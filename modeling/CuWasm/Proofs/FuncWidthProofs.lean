import CuWasm.Proofs.RunProofs
import CuWasm.Proofs.WidthProofs

/-!
# Widths for the functions of a verified module

Every function of a valid module without imports has widths that solve the rules at every position
the verifier reaches, whether it was lowered or replaced by the stub.
-/

namespace CuWasm

open Wasm Structured Verify Translate

/-- The widths `K` of the operands, by program counter, and `L` of the locals of the function `g`
that the code entry `c` of type `ft` with index `j` defines. -/
structure FuncWidths (M : Module) (m0 m : HostModule) (j : Nat) (g : FuncMeta) (ft : FuncType) (c : Func)
    (K : Nat → List Nat) (L : List Nat) : Prop where
  frame : L.length = g.locals
  start : K g.codeOff = []
  rules : ∀ rel, Located m g rel → heights m g rel = (K (g.codeOff + rel)).length ∧
    WidthOk m0 (M.ctx ft c) L K (g.codeOff + rel) (instrAt m g rel)
  sites : ∀ q ∈ M.operandTypes j, K q.1 = widths q.2
  declared : ∀ i t, i < g.locals → (M.ctx ft c).locals[i]? = some t → L[i]? = some t.width
  params : widths ft.1 <+: L

variable {M : Module} {m0 m : HostModule}

/-- The scratch local of a `br_table` lies behind the declared locals. -/
theorem Translate.LoweredAt.scratchApart {ft : FuncType} {c : Func} {s : TState} {f : FuncMeta} {is : Items}
    (h : LoweredAt M m ft c s f is) : ScratchApart (bodyEnv s ft c) (M.ctx ft c) := by
  intro hlt k hk
  have hlocals := h.locals
  have hlen : (M.ctx ft c).locals.length = ft.1.length + (c.locals.map (·.1)).sum := by
    show (ft.1 ++ _).length = _
    rw [List.length_append, sum_locals]
  simp only [bodyEnv, lowerEnv, scratchIndex] at hlt hk
  split_ifs at hk with hany
  have hn : scratchLocals c.body.function (c.locals.map (·.1)).sum =
      min ((c.locals.map (·.1)).sum + 1) (2 ^ 16 - 1) := if_pos hany
  rw [hn] at hlt hk
  have := Option.some.inj hk
  omega

/-- The widths of a function that was lowered. -/
theorem Translate.LoweredAt.widths (ht : Translated M m0) (hv : M.Valid) (himp : M.imports = []) {j : Nat}
    {ft : FuncType} {c : Func} {s : TState} {f : FuncMeta} {is : Items} (h : LoweredAt M m0 ft c s f is)
    (hs : M.before j = .ok s) (hty : M.codeType j = some ft) (hc : M.code[j]? = some c)
    (hids : s.hostFnIds.length = M.imports.length) (hframe : f.nParams + f.nLocals < 2 ^ 16) :
    ∃ K, K f.codeOff = [] ∧
      is.AllFrom (Fits m0 (M.ctx ft c) (localWidths (bodyEnv s ft c) (M.ctx ft c)) K fun _ => 0) f.codeOff ∧
      ∀ q ∈ M.operandTypes j, K q.1 = Structured.widths q.2 := by
  obtain ⟨consts', hpass, hpool⟩ := h.pass
  have hn : (bodyEnv s ft c).nImports = 0 := by
    show s.hostFnIds.length = 0
    rw [hids, himp]
    rfl
  have hoff : f.codeOff = s.code.length := by rw [h.func]
  obtain ⟨K, h1, h2, h3, h4⟩ :=
    function_sound (h.linked ht hv hframe) hn h.scratchApart h.valid hpass hpool
  refine ⟨K, hoff ▸ h1, hoff ▸ h2, fun q hq => ?_⟩
  unfold Module.operandTypes at hq
  have hpass' : function (bodyEnv s ft c) s.code.length s.consts c.body = some (is, consts') := hpass
  simp only [hs, hty, hc, hpass'] at hq
  rcases List.mem_append.mp hq with hq | hq
  · exact h3 q hq
  · rw [List.mem_singleton.mp hq]
    exact h4

/-- The stub of a function that was not lowered has no operands. -/
theorem operandTypes_stub {j : Nat} {ft : FuncType} {c : Func} {s : TState} (hs : M.before j = .ok s)
    (hty : M.codeType j = some ft) (hc : M.code[j]? = some c) (hplain : c.body.Plain)
    {e : String} {code' : List CuOp} {consts' : List Slot}
    (herr : lowerOperators s.lowerModule c.body.function ft.1.length ft.2.length
      (c.locals.map (·.1)).sum s.code s.consts = (.error e, code', consts')) :
    M.operandTypes j = [] := by
  have hfun := lowerOperators_function s.lowerModule c.body hplain ft.1.length ft.2.length
    (c.locals.map (·.1)).sum s.code s.consts
  unfold Module.operandTypes
  simp only [hs, hty, hc]
  cases hf : function (bodyEnv s ft c) s.code.length s.consts c.body with
  | none => rfl
  | some p =>
    have hf' : function (lowerEnv s.lowerModule c.body.function ft.1.length ft.2.length
      (c.locals.map (·.1)).sum) s.code.length s.consts c.body = some p := hf
    rw [hf', herr] at hfun
    cases hfun

section Verified

variable (h : Verified M m0 m) (himp : M.imports = [])

include h himp

/-- Every function has widths. -/
theorem Verified.funcWidths {j : Nat} {g : FuncMeta} (hg : m.funcs[j]? = some g) :
    ∃ ft c K L, M.codeType j = some ft ∧ M.code[j]? = some c ∧ FuncWidths M m0 m j g ft c K L := by
  obtain ⟨f, hf, hsig, hheights, han, hinstr⟩ := h.func hg
  have hlt := (List.getElem?_eq_some_iff.mp hf).1
  rw [h.translated.length, himp, List.length_nil, Nat.zero_add] at hlt
  have hc := List.getElem?_eq_getElem hlt
  set c := M.code[j] with hcdef
  obtain ⟨s, ft, f', hs, hty, hmem, hf', hcase⟩ := h.translated.defined h.valid hc
  obtain ⟨s', -, -, -, -, hs', -, -, hids, -⟩ := h.translated.entry _ _ hc
  rw [hs] at hs'
  cases hs'
  rw [himp, List.length_nil, Nat.zero_add, hf] at hf'
  cases hf'
  obtain ⟨-, ⟨-, hlt⟩ | ⟨hpos, st, hst, hmax, hle⟩⟩ := h.accepted.func j g hg
  · rw [h.typeFp.2.2.1, h.translated.nHostImports, himp] at hlt
    exact absurd hlt (Nat.not_lt_zero _)
  have hst0 : analyse id m0 f = .ok st := han ▸ hst
  have hnp : g.codeOff = f.codeOff ∧ g.codeLen = f.codeLen ∧ g.nParams = f.nParams ∧
      g.nLocals = f.nLocals := by
    rw [hsig]
    exact ⟨rfl, rfl, rfl, rfl⟩
  have hpos0 : 0 < f.codeLen := hnp.2.1 ▸ hpos
  have hheight : ∀ r, heights m g r = st.height r := fun r => by
    unfold heights
    rw [hst]
  have hmaxH : 0 ≤ st.maxH := by
    have hcl := analyse_closed hpos0 hst0
    obtain ⟨fl, hfl⟩ := hcl.flowAt 0 (by rw [hcl.start])
    exact (by rw [hcl.start] : (0 : Int) ≤ st.height 0).trans hfl.le
  rcases hcase with ⟨is, hlow⟩ | ⟨e, code', consts', off, herr, rfl, h1, -⟩
  · have hframe : f.nParams + f.nLocals < 2 ^ 16 := by omega
    have hem := hlow.emitted h.translated h.valid hframe
    have hl := hem.linked
    obtain ⟨K, hK0, hfits, hsites⟩ :=
      hlow.widths h.translated h.valid himp hs hty hc (himp ▸ hids) hframe
    have hL := Linked.localWidths_length hl
    refine ⟨ft, c, K, localWidths (bodyEnv s ft c) (M.ctx ft c), hty, hc, ⟨?_, hnp.1 ▸ hK0, ?_, hsites, ?_,
      ?_⟩⟩
    · refine hL.trans ?_
      rw [FuncMeta.locals, hnp.2.2.1, hnp.2.2.2, hl.nParams, hl.nLocals]
    · intro rel hloc
      have hknown := hloc.known
      rw [hheight] at hknown
      obtain ⟨hmark, -⟩ := hem.agree hpos0 hst0 (by omega) hknown
      rw [hmark] at hknown
      obtain ⟨p, hp, hp2⟩ := marks_nonneg hknown
      obtain ⟨h2, h3⟩ := List.allFrom_iff.mp hfits rel p hp (hp2 ▸ hknown)
      have hi : instrAt m g rel = p.1.render fun _ => 0 := by
        rw [hinstr]
        unfold instrAt
        rw [List.getD_eq_getElem?_getD, hem.code rel p hp]
        rfl
      rw [hi, hheight, hmark, ← hp2, hnp.1]
      exact ⟨h2, h3⟩
    · intro i t hi ht
      have hlen := (List.getElem?_eq_some_iff.mp ht).1
      rw [localWidths, List.getElem?_append_left (by rwa [widths_length]), widths, List.getElem?_map, ht]
      rfl
    · rw [localWidths, show (M.ctx ft c).locals = ft.1 ++ _ from rfl, widths_append, List.append_assoc]
      exact List.prefix_append ..
  · -- the stub is left at its first instruction
    obtain ⟨st', hst', hagree, -⟩ := (stub_closed ft.1.length ft.2.length h1).analyse
    rw [hst0] at hst'
    cases hst'
    refine ⟨ft, c, fun _ => [], widths ft.1, hty, hc, ⟨?_, rfl, ?_, ?_, ?_, List.prefix_rfl⟩⟩
    · rw [widths_length, FuncMeta.locals, hnp.2.2.1, hnp.2.2.2]
      rfl
    · intro rel hloc
      have hknown := hloc.known
      rw [hheight] at hknown
      have heq := hagree rel hknown
      have hzero : rel = 0 := by
        by_contra hne
        rw [if_neg hne] at heq
        omega
      subst hzero
      refine ⟨by rw [hheight, heq]; rfl, .unreachable ?_⟩
      rw [hinstr]
      unfold instrAt stub
      rw [List.getD_eq_getElem?_getD, Nat.add_zero, h1]
      rfl
    · rw [operandTypes_stub hs hty hc (typed_plain (h.valid.body j ft c hty hc)) herr]
      exact List.forall_mem_nil _
    · intro i t hi ht
      have hlt : i < ft.1.length := by
        rw [FuncMeta.locals, hnp.2.2.1, hnp.2.2.2] at hi
        exact hi
      rw [show (M.ctx ft c).locals = ft.1 ++ _ from rfl, List.getElem?_append_left hlt] at ht
      rw [widths, List.getElem?_map, ht]
      rfl

end Verified

end CuWasm
