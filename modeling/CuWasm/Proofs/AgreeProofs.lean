import CuWasm.Proofs.AcceptProofs
import CuWasm.Proofs.IntProofs
import CuWasm.Proofs.PositionProofs
import CuWasm.Proofs.TranslateProofs

/-!
# The two height analyses agree

`verify_cuop` accepts what `translate_wasm` makes of a valid module whose frames fit, and the heights
it computes are those the lowering tracked.
-/

namespace CuWasm

open Wasm Structured Verify Exit

namespace Translate

variable {M : Module} {m : HostModule}

/-! ## Functions of a translated module -/

theorem placeholder_eq (i : Item) : i.placeholder = i.render fun _ => 0 := by
  cases i <;> rfl

/-- The items behind a function that was lowered. -/
theorem lowered_items {lm : LowerModule} {b : Body} {np nr n : Nat} {code code' : List CuOp}
    {consts consts' : List Slot} {f : FuncMeta} (hb : b.Plain)
    (h : lowerOperators lm b.function np nr n code consts = (.ok f, code', consts')) :
    ∃ is, function (lowerEnv lm b.function np nr n) code.length consts b = some (is, consts') ∧
      code' = code ++ draft is ∧
      f = { codeOff := code.length
            codeLen := is.length
            nParams := np
            nResults := nr
            nLocals := scratchLocals b.function n } := by
  have hfun := lowerOperators_function lm b hb np nr n code consts
  cases hf : function (lowerEnv lm b.function np nr n) code.length consts b with
  | none =>
    rw [hf] at hfun
    obtain ⟨e, c1, k1, he⟩ := hfun
    rw [h] at he
    cases he
  | some p =>
    rw [hf] at hfun
    have := h.symm.trans hfun
    cases this
    exact ⟨p.1, rfl, rfl, rfl⟩

theorem Placed.signature {lm : LowerModule} {ft : FuncType} {n : Nat} {ops : List Operator}
    {code code' : List CuOp} {consts consts' : List Slot} {f : FuncMeta}
    (h : Placed lm ft n ops code consts f code' consts') :
    f.nParams = ft.1.length % 2 ^ 16 ∧ f.nResults = ft.2.length % 2 ^ 16 := by
  cases h with
  | lowered h =>
    rw [lowerOperators_meta h]
    exact ⟨rfl, rfl⟩
  | stub h hf hc =>
    rw [hf]
    exact ⟨rfl, rfl⟩

section Modules

variable (ht : Translated M m)

include ht

theorem Translated.short : ∀ ft ∈ M.funcTypes, ft.1.length ≤ 8 ∧ ft.2.length ≤ 8 := by
  intro ft hft
  obtain ⟨k, hk⟩ := List.mem_iff_getElem?.mp hft
  obtain ⟨fp, -, hfp⟩ := (fingerprints_ok ht.typeFp).2 k ft hk
  have := typeFingerprint_ok hfp
  exact ⟨this.1, this.2.1⟩

theorem Translated.fingerprint {ti : Nat} {ft : FuncType} (h : M.funcTypes[ti]? = some ft) :
    ∃ fpv, m.typeFp[ti]? = some fpv ∧ fpv &&& 0xff = ft.1.length ∧
      (fpv >>> 8) &&& 0xff = ft.2.length := by
  obtain ⟨fp, hget, hfp⟩ := (fingerprints_ok ht.typeFp).2 ti ft h
  exact ⟨fp, hget, (typeFingerprint_ok hfp).2.2⟩

/-- Every function of the index space has its declared signature. -/
theorem Translated.signature (hv : M.Valid) {fi ti : Nat} {ft : FuncType}
    (hti : M.funcTypeidx[fi]? = some ti) (hft : M.funcTypes[ti]? = some ft) :
    ∃ g, m.funcs[fi]? = some g ∧ g.nParams = ft.1.length ∧ g.nResults = ft.2.length := by
  have hshort := ht.short ft (List.mem_of_getElem? hft)
  have h1 : ft.1.length % 2 ^ 16 = ft.1.length := Nat.mod_eq_of_lt (by omega)
  have h2 : ft.2.length % 2 ^ 16 = ft.2.length := Nat.mod_eq_of_lt (by omega)
  have hlt := (List.getElem?_eq_some_iff.mp hti).1
  rw [Module.funcTypeidx, List.length_append, ht.imports, ← hv.code] at hlt
  have hlen : fi < m.funcs.length := ht.length ▸ hlt
  obtain hfi | hfi := Nat.lt_or_ge fi M.imports.length
  · obtain ⟨t, ft', h3, h4, h5⟩ := ht.imported fi _ hfi (List.getElem?_eq_getElem hlen)
    rw [hti] at h3
    cases h3
    rw [hft] at h4
    cases h4
    exact ⟨_, List.getElem?_eq_getElem hlen, by rw [h5]; exact h1, by rw [h5]; exact h2⟩
  · have hk : fi - M.imports.length < M.code.length := by omega
    obtain ⟨s, ft', f, code', consts', -, -, -, -, htype, -, hp, hf, -, -⟩ :=
      ht.entry _ _ (List.getElem?_eq_getElem hk)
    rw [Nat.add_sub_cancel' hfi] at hf
    have hft' : ft' = ft := by
      unfold Module.codeType at htype
      rw [Module.funcTypeidx, List.getElem?_append_right (by rw [ht.imports]; exact hfi),
        ht.imports] at hti
      rw [hti] at htype
      exact Option.some.inj (htype.symm.trans hft)
    rw [hft'] at hp
    exact ⟨f, hf, hp.signature.1.trans h1, hp.signature.2.trans h2⟩

end Modules

/-- A function of `M` that was lowered: where its code and its constants stand in `m`. -/
structure LoweredAt (M : Module) (m : HostModule) (ft : FuncType) (c : Func) (s : TState)
    (f : FuncMeta) (is : Items) : Prop where
  types : s.funcTypes = M.funcTypes
  typeidx : s.funcTypeidx = M.funcTypeidx
  mem : ft ∈ M.funcTypes
  valid : c.body.Valid (M.ctx ft c)
  locals : (c.locals.map (·.1)).sum ≤ 2 ^ 16 - 1
  pass : ∃ consts', function (lowerEnv s.lowerModule c.body.function ft.1.length ft.2.length
    (c.locals.map (·.1)).sum) s.code.length s.consts c.body = some (is, consts') ∧ consts' <+: m.consts
  code : s.code ++ draft is <+: m.code
  func : f = { codeOff := s.code.length
               codeLen := is.length
               nParams := ft.1.length
               nResults := ft.2.length
               nLocals := scratchLocals c.body.function (c.locals.map (·.1)).sum }

theorem sum_locals (groups : List (Nat × ValType)) :
    (groups.flatMap fun g => List.replicate g.1 g.2).length = (groups.map (·.1)).sum := by
  induction groups with
  | nil => rfl
  | cons g groups ih =>
    rw [List.flatMap_cons, List.length_append, List.length_replicate, ih, List.map_cons, List.sum_cons]

section Lowered

variable {ft : FuncType} {c : Func} {s : TState} {f : FuncMeta} {is : Items}

theorem LoweredAt.frame (h : LoweredAt M m ft c s f is) (hfit : M.frameSize 1 ft c ≤ 65535) :
    f.nParams + f.nLocals + c.body.deepest (M.ctx ft c) 1 (some 0) ≤ 65535 := by
  rw [h.func]
  unfold Module.frameSize at hfit
  unfold scratchLocals
  simp only
  split_ifs at hfit ⊢ <;> omega

theorem LoweredAt.linked (ht : Translated M m) (hv : M.Valid) (h : LoweredAt M m ft c s f is)
    (hframe : f.nParams + f.nLocals < 2 ^ 16) :
    Linked m f (lowerEnv s.lowerModule c.body.function ft.1.length ft.2.length
      (c.locals.map (·.1)).sum) (M.ctx ft c) := by
  have hshort := ht.short
  have hreads : Reads s (M.ctx ft c) ft :=
    ⟨h.types, h.typeidx, h.mem, rfl, fun ft' h' => by have := hshort ft' h'; omega⟩
  have hdesc := hreads.describes c.body.function (c.locals.map (·.1)).sum
  have hft := hshort ft h.mem
  have h1 : ft.1.length % 2 ^ 16 = ft.1.length := Nat.mod_eq_of_lt (by omega)
  have h2 : ft.2.length % 2 ^ 16 = ft.2.length := Nat.mod_eq_of_lt (by omega)
  rw [h1, h2] at hdesc
  rw [h.func] at hframe
  simp only at hframe
  have hlocals := h.locals
  refine ⟨hdesc, by rw [h.func]; rfl, by rw [h.func]; rfl, by rw [h.func]; rfl, hframe, ?_, ?_, ?_,
    hshort, fun ti ft' h' => ht.fingerprint h'⟩
  · show (ft.1 ++ _).length ≤ ft.1.length + scratchLocals c.body.function (c.locals.map (·.1)).sum
    rw [List.length_append, sum_locals]
    unfold scratchLocals
    split_ifs <;> omega
  · intro k hk
    show k < ft.1.length + scratchLocals c.body.function (c.locals.map (·.1)).sum
    simp only [lowerEnv, scratchIndex] at hk
    split_ifs at hk with hany
    have hpos : 0 < scratchLocals c.body.function (c.locals.map (·.1)).sum := by
      rw [scratchLocals, if_pos hany]
      omega
    rw [← Option.some.inj hk]
    omega
  · intro fi ft' h'
    unfold Ctx.funcType at h'
    obtain ⟨ti, hti, hft'⟩ := Option.bind_eq_some_iff.mp h'
    exact ht.signature hv hti hft'

theorem LoweredAt.emitted (ht : Translated M m) (hv : M.Valid) (h : LoweredAt M m ft c s f is)
    (hframe : f.nParams + f.nLocals < 2 ^ 16) :
    Emitted m f (lowerEnv s.lowerModule c.body.function ft.1.length ft.2.length
      (c.locals.map (·.1)).sum) (M.ctx ft c) c.body is := by
  obtain ⟨consts', hpass, hpool⟩ := h.pass
  refine ⟨h.linked ht hv hframe, h.valid, ⟨s.consts, consts', ?_, hpool⟩, by rw [h.func], fun k p hp => ?_⟩
  · rw [h.func]
    exact hpass
  · have hd : (draft is)[k]? = some p.1.placeholder := by
      rw [draft, List.getElem?_map, hp]
      rfl
    have hlt := (List.getElem?_eq_some_iff.mp hd).1
    obtain ⟨l, hl⟩ := h.code
    rw [h.func, ← hl, List.append_assoc, List.getElem?_append_right (by simp), ← placeholder_eq]
    simp only [Nat.add_sub_cancel_left]
    rw [List.getElem?_append_left hlt, hd]

end Lowered

end Translate

/-- No height next to an item is far above the deepest operand stack. -/
theorem Structured.Emitted.le_frame {m : HostModule} {f : FuncMeta} {env : LowerEnv} {C : Ctx}
    {b : Body} {is : Items} (h : Emitted m f env C b is) :
    ∀ p ∈ is, p.2 ≤ (max (b.deepest C 1 (some 0)) C.results.length : Nat) := by
  obtain ⟨consts, isb, stb, hb, his, -, -, htr, -⟩ := h.body_some
  intro p hp
  rw [his] at hp
  obtain hp | hp := List.mem_append.mp hp
  · have := close_le (t := stb.pc) (body_le h.linked.describes b h.valid htr hb).1 p hp
    exact this.trans (Int.ofNat_le.mpr (le_max_left _ _))
  · rw [List.mem_singleton.mp hp, h.linked.describes.results]
    exact Int.ofNat_le.mpr (le_max_right _ _)

/-! ## Acceptance -/

namespace Verify

variable {m : HostModule} {f : FuncMeta}

/-- A solution of the flow equations whose reachable heights fit the frame makes a function pass. -/
theorem func_accept (fi : Nat) (hle : f.codeOff + f.codeLen ≤ m.code.length) (hpos : 0 < f.codeLen)
    (hlast : (instrAt m f (f.codeLen - 1)).op = .endFunc) {G : Nat → Int} {B K : Int}
    (hG : Closed m f G B) (hK : ∀ r, Reach m f r → G r ≤ K) (hfit : f.nParams + f.nLocals + K ≤ 65535) :
    ∃ f', func id m fi f = .ok f' := by
  obtain ⟨st, hst, hag, -⟩ := hG.analyse
  have hmax : st.maxH ≤ K := maxH_le hpos hst fun r hr => by
    rw [hag r hr]
    exact hK r ((known_iff_reach hpos hst).mp hr)
  exact ⟨_, func_eq hpos hle (.inr hlast) hst (by simp only [id_eq]; omega)⟩

theorem func_import {fi : Nat} (hoff : f.codeOff = 0) (hlen : f.codeLen = 0)
    (hfi : fi < m.nHostImports) : ∃ f', func id m fi f = .ok f' := by
  unfold func
  rw [if_neg (by omega)]
  simp only [if_pos hlen, if_pos hfi]
  exact ⟨_, rfl⟩

theorem funcs_accept {fs : List FuncMeta} (fi : Nat)
    (h : ∀ (k : Nat) f, fs[k]? = some f → ∃ f', func id m (fi + k) f = .ok f') :
    ∃ fs', funcs id m fi fs = .ok fs' := by
  induction fs generalizing fi with
  | nil => exact ⟨[], rfl⟩
  | cons f fs ih =>
    obtain ⟨f', hf'⟩ := h 0 f rfl
    obtain ⟨fs', hfs'⟩ := ih (fi + 1) fun k g hg => by
      rw [show fi + 1 + k = fi + (k + 1) by omega]
      exact h (k + 1) g hg
    refine ⟨f' :: fs', ?_⟩
    rw [Nat.add_zero] at hf'
    simp only [funcs, hf', hfs', bind, Except.bind, pure, Except.pure]

end Verify

namespace Translate

variable {M : Module} {m : HostModule}

theorem LoweredAt.closed (ht : Translated M m) (hv : M.Valid) {ft : FuncType} {c : Func} {s : TState}
    {f : FuncMeta} {is : Items} (h : LoweredAt M m ft c s f is) (hfit : M.frameSize 1 ft c ≤ 65535) :
    ∃ B : Nat, Closed m f (marks is) B ∧ f.nParams + f.nLocals + B < 2 ^ 31 ∧
      ∀ r, Reach m f r → marks is r ≤ (c.body.deepest (M.ctx ft c) 1 (some 0) : Nat) := by
  have hframe := h.frame hfit
  have hem := h.emitted ht hv (by omega)
  have hshort := ht.short ft h.mem
  have hB : f.nParams + f.nLocals + max (c.body.deepest (M.ctx ft c) 1 (some 0)) ft.2.length < 2 ^ 31 := by
    omega
  have hle : ∀ p ∈ is, p.2 ≤ (max (c.body.deepest (M.ctx ft c) 1 (some 0)) ft.2.length : Nat) :=
    hem.le_frame
  have hcl := hem.closed (fun p hp => by have := hle p hp; omega) hle
  exact ⟨_, hcl, hB, fun r hr => hem.reached_le hcl hr⟩

theorem stub_closed {off : Nat} (np nr : Nat) (h : m.code[off]? = some { op := .unreachable }) :
    Closed m (stub off np nr) (fun r => if r = 0 then 0 else -1) 0 := by
  refine ⟨rfl, fun r hr => ?_⟩
  have h0 : r = 0 := by
    by_contra hne
    simp [hne] at hr
  subst h0
  have hinstr : instrAt m (stub off np nr) 0 = { op := .unreachable } := by
    unfold instrAt stub
    rw [List.getD_eq_getElem?_getD, Nat.add_zero, h]
    rfl
  refine ⟨{ nextH := 0, fall := false }, Nat.zero_lt_two, ?_, ?_, nofun, nofun, le_rfl, le_rfl⟩
  · rw [hinstr]
    rfl
  · rw [hinstr]
    rfl

/-- Every defined function is lowered with its code in place, or is the stub. -/
theorem Translated.defined (ht : Translated M m) (hv : M.Valid) {k : Nat}
    {c : Func} (hc : M.code[k]? = some c) :
    ∃ s ft f, M.before k = .ok s ∧ M.codeType k = some ft ∧ ft ∈ M.funcTypes ∧
      m.funcs[M.imports.length + k]? = some f ∧
      ((∃ is, LoweredAt M m ft c s f is) ∨
        ∃ e code' consts' off, lowerOperators s.lowerModule c.body.function ft.1.length ft.2.length
          (c.locals.map (·.1)).sum s.code s.consts = (.error e, code', consts') ∧
          f = stub off ft.1.length ft.2.length ∧
          m.code[off]? = some { op := .unreachable } ∧
          m.code[off + 1]? = some { op := .endFunc, a := ft.2.length }) := by
  obtain ⟨s, ft, f, code', consts', hs, h1, h2, -, htype, hn, hp, hf, hcode, hpool⟩ := ht.entry k c hc
  have hmem : ft ∈ M.funcTypes := by
    unfold Module.codeType at htype
    obtain ⟨ti, -, h⟩ := Option.bind_eq_some_iff.mp htype
    exact List.mem_of_getElem? h
  have hshort := ht.short ft hmem
  have e1 : ft.1.length % 2 ^ 16 = ft.1.length := Nat.mod_eq_of_lt (by omega)
  have e2 : ft.2.length % 2 ^ 16 = ft.2.length := Nat.mod_eq_of_lt (by omega)
  have hvalid := hv.body k ft c htype hc
  refine ⟨s, ft, f, hs, htype, hmem, hf, ?_⟩
  cases hp with
  | lowered h =>
    rw [e1, e2] at h
    obtain ⟨is, hfun, rfl, hmeta⟩ := lowered_items (typed_plain hvalid) h
    exact .inl ⟨is, h1, h2, hmem, hvalid, hn, ⟨consts', hfun, hpool⟩, hcode, hmeta⟩
  | stub h hstub hc' =>
    rename_i e code1
    rw [e1, e2] at h hstub
    rw [e2] at hc'
    obtain ⟨l, hl⟩ := hcode
    refine .inr ⟨e, code1, consts', code1.length, h, hstub, ?_, ?_⟩ <;>
      rw [← hl, hc', List.append_assoc, List.getElem?_append_right (by omega)] <;> simp

theorem LoweredAt.accept (ht : Translated M m) (hv : M.Valid) {ft : FuncType} {c : Func} {s : TState}
    {f : FuncMeta} {is : Items} (h : LoweredAt M m ft c s f is)
    (hfit : M.frameSize 1 ft c ≤ 65535) (fi : Nat) :
    f.codeOff + f.codeLen ≤ m.code.length ∧ 0 < f.codeLen ∧ ∃ f', Verify.func id m fi f = .ok f' := by
  have hframe := h.frame hfit
  have hem := h.emitted ht hv (by omega)
  obtain ⟨consts, isb, stb, -, his, -⟩ := hem.body_some
  obtain ⟨B, hcl, -, hreach⟩ := h.closed ht hv hfit
  have hlen : f.codeLen = isb.length + 1 := by
    rw [hem.codeLen, his]
    simp
  have hle : f.codeOff + f.codeLen ≤ m.code.length := by
    have := h.code.length_le
    rw [List.length_append, draft_length] at this
    rw [h.func]
    exact this
  have hlast : (instrAt m f (f.codeLen - 1)).op = .endFunc := by
    obtain ⟨a, h, hget⟩ : ∃ a h, is[isb.length]? = some (.code ⟨.endFunc, a, 0⟩, h) := by
      rw [his, List.getElem?_append_right (by simp), close_length, Nat.sub_self]
      exact ⟨_, _, rfl⟩
    unfold instrAt
    rw [hlen, Nat.add_sub_cancel, List.getD_eq_getElem?_getD, hem.code _ _ hget]
    rfl
  exact ⟨hle, by omega, func_accept fi hle (by omega) hlast hcl hreach (by omega)⟩

/-- Every function of a translated module passes the check. -/
theorem Translated.accept (ht : Translated M m) (hv : M.Valid) (hfit : M.FramesFit 1) (k : Nat)
    (f : FuncMeta) (hf : m.funcs[k]? = some f) : ∃ f', func id m k f = .ok f' := by
  obtain hk | hk := Nat.lt_or_ge k M.imports.length
  · obtain ⟨t, ft, -, -, rfl⟩ := ht.imported k f hk hf
    exact func_import rfl rfl (by rw [ht.nHostImports]; exact hk)
  · have hlt := (List.getElem?_eq_some_iff.mp hf).1
    rw [ht.length] at hlt
    have hc := List.getElem?_eq_getElem (show k - M.imports.length < M.code.length by omega)
    obtain ⟨s, ft, f', -, hty, hmem, hf', hcase⟩ := ht.defined hv hc
    rw [Nat.add_sub_cancel' hk, hf] at hf'
    cases hf'
    obtain ⟨is, h⟩ | ⟨e, code', consts', off, -, rfl, h1, h2⟩ := hcase
    · exact (h.accept ht hv (hfit _ ft _ hty hc) k).2.2
    · have hlen := (List.getElem?_eq_some_iff.mp h2).1
      have hcl := stub_closed ft.1.length ft.2.length h1
      refine func_accept (K := 0) k ?_ Nat.zero_lt_two ?_ hcl (fun r hr => ?_) ?_
      · exact hlen
      · show (m.code.getD (off + 1) _).op = _
        rw [List.getD_eq_getElem?_getD, h2]
        rfl
      · obtain ⟨fl, hfl⟩ := hcl.flowAt r (hcl.reach_nonneg hr)
        exact hfl.le
      · have hshort := ht.short ft hmem
        simp only [stub]
        omega

/-- `verify_cuop` accepts a translated module. -/
theorem Translated.verifies (ht : Translated M m) (hv : M.Valid) (hfit : M.FramesFit 1)
    (hne : M.code ≠ []) : ∃ m', verifyCuop m = .ok m' := by
  obtain ⟨fs, hfs⟩ := funcs_accept 0 fun k f hf => by
    rw [Nat.zero_add]
    exact ht.accept hv hfit k f hf
  obtain ⟨c, cs, hcs⟩ := List.exists_cons_of_ne_nil hne
  have hlen : 0 < M.code.length := by rw [hcs]; exact Nat.succ_pos _
  have h1 : m.funcs ≠ [] := List.ne_nil_of_length_pos (by rw [ht.length]; omega)
  have h2 : m.code ≠ [] := by
    have hc := List.getElem?_eq_getElem hlen
    obtain ⟨s, ft, f, -, hty, -, -, hcase⟩ := ht.defined hv hc
    refine List.ne_nil_of_length_pos ?_
    obtain ⟨is, h⟩ | ⟨e, code', consts', off, -, -, h1, -⟩ := hcase
    · have := h.accept ht hv (hfit _ ft _ hty hc) 0
      omega
    · have := (List.getElem?_eq_some_iff.mp h1).1
      omega
  exact ⟨_, cuop_iff.mpr ⟨h1, h2, fs, hfs, rfl⟩⟩

/-! ## The `int` of the verifier -/

/-- The counts that the verifier adds up are small in a translated module, and no function is longer than
the code. -/
theorem Translated.counts (ht : Translated M m) (hv : M.Valid) {f : FuncMeta} (hf : f ∈ m.funcs) :
    f.nParams ≤ 8 ∧ f.nResults ≤ 8 ∧ f.nLocals ≤ 2 ^ 16 ∧ f.codeLen ≤ m.code.length := by
  obtain ⟨k, hk, rfl⟩ := List.getElem_of_mem hf
  have hget := List.getElem?_eq_getElem hk
  obtain himp | hdef := Nat.lt_or_ge k M.imports.length
  · obtain ⟨t, ft, -, hft, heq⟩ := ht.imported k _ himp hget
    have hshort := ht.short ft (List.mem_of_getElem? hft)
    rw [heq]
    refine ⟨?_, ?_, Nat.zero_le _, Nat.zero_le _⟩ <;> simp only [importMeta] <;> omega
  · have hc := List.getElem?_eq_getElem (show k - M.imports.length < M.code.length by
      rw [ht.length] at hk
      omega)
    obtain ⟨s, ft, f, -, -, hmem, hf', hcase⟩ := ht.defined hv hc
    rw [Nat.add_sub_of_le hdef, hget, Option.some.injEq] at hf'
    subst hf'
    have hshort := ht.short ft hmem
    obtain ⟨is, h⟩ | ⟨e, code', consts', off, -, heq, -, h2⟩ := hcase
    · have hlen := h.code.length_le
      have hlocals := h.locals
      rw [List.length_append, draft_length] at hlen
      rw [h.func]
      refine ⟨hshort.1, hshort.2, ?_, by simp only; omega⟩
      simp only [scratchLocals]
      split_ifs <;> omega
    · have hlen := (List.getElem?_eq_some_iff.mp h2).1
      rw [heq]
      refine ⟨hshort.1, hshort.2, Nat.zero_le _, ?_⟩
      simp only [stub]
      omega

/-- The C++ `int` is wide enough for a translated module of at most 2^23 instructions: both verifiers
accept the same, with the same result. -/
theorem Translated.verifyCuopInt_iff (ht : Translated M m) (hv : M.Valid) {m' : HostModule}
    (hcode : m.code.length ≤ 2 ^ 23) : verifyCuopInt m = .ok m' ↔ verifyCuop m = .ok m' := by
  refine Verify.verifyCuopInt_iff fun f hf hpos => ?_
  obtain ⟨hparams, -, hlocals, hlen⟩ := ht.counts hv hf
  have hresults : ∀ g ∈ m.funcs, g.nResults ≤ 255 := fun g hg =>
    (ht.counts hv hg).2.1.trans (by decide)
  refine noOverflow_of_short le_rfl hresults hpos ?_
  have := Nat.mul_le_mul_left 255 (hlen.trans hcode)
  omega

/-! ## Agreement -/

/-- The state of `lower_operators` in front of the first operator. -/
def lowerInit (s : TState) (ft : FuncType) : LState where
  code := s.code
  consts := s.consts
  h := 0
  dead := false
  ctrl := [funcCtrl s.code.length ft.2.length]

theorem LoweredAt.marked (ht : Translated M m) (hv : M.Valid) {ft : FuncType} {c : Func} {s : TState}
    {f : FuncMeta} {is : Items} (h : LoweredAt M m ft c s f is)
    (hframe : f.nParams + f.nLocals < 2 ^ 16) :
    Marked (lowerEnv s.lowerModule c.body.function ft.1.length ft.2.length (c.locals.map (·.1)).sum)
      c.body.function (lowerInit s ft) (is.map (·.2)) := by
  have hem := h.emitted ht hv hframe
  obtain ⟨consts', hpass, -⟩ := h.pass
  set env := lowerEnv s.lowerModule c.body.function ft.1.length ft.2.length (c.locals.map (·.1)).sum
    with henv
  unfold function at hpass
  obtain ⟨⟨isb, stb⟩, hb, heq⟩ := Option.map_eq_some_iff.mp hpass
  cases heq
  have htr : Tracks [⟨none, 0, env.nResults⟩] [(M.ctx ft c).results.reverse] 0 []
      ⟨s.code.length, s.consts, 0, false⟩ :=
    ⟨by simp [hem.linked.describes.results], fun _ => rfl⟩
  obtain ⟨htracks, -⟩ := body_tracks hem.linked.describes c.body h.valid htr hb
  have hplain := typed_plain h.valid
  have hmb := body_marked env c.body hplain false (lowerInit s ft) isb stb hb
  have href := refines_body env c.body hplain _ false (lowerInit s ft) rfl
  have href' : Refines _ _ (some (isb, stb)) := hb ▸ href
  obtain ⟨-, hx⟩ := href'
  rw [Body.function, List.map_append, close_heights]
  refine hmb.append hx (by rw [extend_length, List.length_map]) (Marked.single fun _ _ _ hdead => ?_)
  refine ⟨_, rfl, .inl ?_⟩
  have := (htracks hdead).2
  rw [List.length_reverse, Nat.zero_add, ← hem.linked.describes.results] at this
  exact congrArg Nat.cast this.symm

end Translate

open Translate

/-- For a valid module with a defined function whose frames fit, with one slot more for a `br_table`
that compares its index, `verify_cuop` accepts what the translator makes of it; and where
`lower_operators` processed an operator in live code whose first instruction is reached from the
function's entry, the height the verifier has for that instruction is the height tracked in front of
the operator. -/
theorem translated_verifies_agree {M : Module} {ps : List (Parsed Payload)} {m : HostModule}
    (hv : M.Valid) (hne : M.code ≠ []) (hfit : M.FramesFit 1) (he : Encodes M ps)
    (hm : loadWasm ps = .ok m) :
    (∃ m', verifyCuopInt m = .ok m' ∧ verifyCuop m = .ok m') ∧
      ∀ (k : Nat) (c : Func) (ft : FuncType) (s : TState) (f : FuncMeta) (code : List CuOp)
        (consts : List Slot), M.code[k]? = some c → M.codeType k = some ft → M.before k = .ok s →
        lowerOperators s.lowerModule c.body.function (ft.1.length % 2 ^ 16) (ft.2.length % 2 ^ 16)
          (c.locals.map (·.1)).sum s.code s.consts = (.ok f, code, consts) →
        ∀ pre o post t t', c.body.function = pre ++ o :: post →
          Lower.operators (lowerEnv s.lowerModule c.body.function (ft.1.length % 2 ^ 16)
            (ft.2.length % 2 ^ 16) (c.locals.map (·.1)).sum) pre (lowerInit s ft) = .ok () t →
          Lower.operator (lowerEnv s.lowerModule c.body.function (ft.1.length % 2 ^ 16)
            (ft.2.length % 2 ^ 16) (c.locals.map (·.1)).sum) o t = .ok () t' →
          t.code.length < t'.code.length → t.dead = false →
          Reach m f (t.code.length - f.codeOff) →
          ∃ st, analyse cInt m f = .ok st ∧ st.height (t.code.length - f.codeOff) = t.h := by
  have ht := loadWasm_translated he hm
  refine ⟨(ht.verifies hv hfit hne).imp fun m' h => ⟨verifyCuop_int h, h⟩, ?_⟩
  intro k c ft s f code consts hc hty hs hlow pre o post t t' hsplit hpre ho hlt hdead hreach
  obtain ⟨s', ft', f', hs', hty', hmem, -, hcase⟩ := ht.defined hv hc
  rw [hs] at hs'
  cases hs'
  rw [hty] at hty'
  cases hty'
  have hshort := ht.short ft hmem
  have e1 : ft.1.length % 2 ^ 16 = ft.1.length := Nat.mod_eq_of_lt (by omega)
  have e2 : ft.2.length % 2 ^ 16 = ft.2.length := Nat.mod_eq_of_lt (by omega)
  rw [e1, e2] at hlow hpre ho
  obtain ⟨is, h⟩ | ⟨e, code', consts', off, herr, -⟩ := hcase
  · have hf : f = f' := by
      obtain ⟨is', hfun, -, hmeta⟩ := lowered_items (typed_plain h.valid) hlow
      obtain ⟨consts', hfun', -⟩ := h.pass
      rw [hfun] at hfun'
      cases hfun'
      rw [hmeta, h.func]
    subst hf
    have hfits := hfit k ft c hty hc
    have hframe := h.frame hfits
    obtain ⟨B, hcl, hB, -⟩ := h.closed ht hv hfits
    obtain ⟨st, hst, hagree, -⟩ := hcl.analyse
    have hpos := (h.accept ht hv hfits 0).2.1
    have hknown := (known_iff_reach hpos hst).mpr hreach
    refine ⟨st, (analyse_int hpos (noOverflow_of_closed hcl (by omega))).mpr hst, ?_⟩
    rw [hagree _ hknown]
    rw [hagree _ hknown] at hknown
    obtain ⟨hle, x, hx, hor⟩ := h.marked ht hv (by omega) pre o post hsplit t t' hpre ho hlt hdead
    have hoff : f.codeOff = (lowerInit s ft).code.length := by rw [h.func]; rfl
    rw [← hoff, List.getElem?_map] at hx
    obtain ⟨p, hp, rfl⟩ := Option.map_eq_some_iff.mp hx
    have hmark : marks is (t.code.length - f.codeOff) = p.2 := by
      unfold marks
      rw [hp]
    rw [hmark] at hknown ⊢
    obtain hor | hor := hor
    · exact hor
    · omega
  · rw [hlow] at herr
    cases herr

/-- A function that adds two constants. -/
def sumFunc : Func where
  locals := []
  body := .op (.const (.i32 7)) (.op (.const (.i32 8)) (.op (.num .i32Add) .nil))

/-- The module of this function alone. -/
def sumModule : Module where
  types := [[.func ([], [.i32])]]
  funcs := [0]
  code := [sumFunc]

/-- The code of the module. -/
def sumCode : List CuOp :=
  [⟨.i64Const, 0, 0⟩, ⟨.i64Const, 0, 1⟩, ⟨.bin .i32Add, 0, 0⟩, ⟨.endFunc, 1, 0⟩]

theorem sumModule_valid : sumModule.Valid := by
  refine ⟨by decide, rfl, fun k ft c hty hc => ?_⟩
  cases k with
  | zero =>
    cases hc
    cases hty
    have hadd : Typed (sumModule.ctx ([], [.i32]) sumFunc) [[.i32]] true (NumOp.i32Add.pops ++ [])
        (.op (.num .i32Add) .nil) (NumOp.i32Add.pushes ++ []) := .op (.num _) .nil
    have height : Typed (sumModule.ctx ([], [.i32]) sumFunc) [[.i32]] true ([] ++ [.i32])
        (.op (.const (.i32 8)) (.op (.num .i32Add) .nil)) [.i32] := .op (.const (.i32 8)) hadd
    exact .op (.const (.i32 7)) height
  | succ k => cases hc

theorem sumModule_fits : sumModule.FramesFit 1 := by
  intro k ft c hty hc
  cases k with
  | zero =>
    cases hc
    cases hty
    decide
  | succ k => cases hc

/-- The lowered function. -/
def sumMeta : FuncMeta where
  codeOff := 0
  codeLen := 4
  nParams := 0
  nResults := 1
  nLocals := 0

/-- The addition is lowered and verified at height 2. -/
theorem sumModule_agrees : ∃ m, loadWasm sumModule.payloads = .ok m ∧
    (∃ m', verifyCuopInt m = .ok m') ∧
      ∃ st, analyse cInt m sumMeta = .ok st ∧ st.height 2 = 2 := by
  have hcode : (loadWasm sumModule.payloads).toOption.map (fun m => m.code) = some sumCode := by
    decide +kernel
  cases hm : loadWasm sumModule.payloads with
  | error e =>
    rw [hm] at hcode
    cases hcode
  | ok m =>
    rw [hm] at hcode
    have hinstr (r : Nat) : instrAt m sumMeta r = sumCode.getD (0 + r) { op := .unknown 0 } := by
      unfold instrAt
      rw [show m.code = sumCode from Option.some.inj hcode]
      rfl
    have hreach : Reach m sumMeta 2 := by
      refine .step (r := 1) (.step .entry ?_) ?_
      · rw [hinstr]
        decide
      · rw [hinstr]
        decide
    obtain ⟨hver, hagree⟩ :=
      translated_verifies_agree sumModule_valid (by decide) sumModule_fits rfl hm
    have hlow := hagree 0 sumFunc ([], [.i32]) { funcTypes := [([], [.i32])], funcTypeidx := [0] } sumMeta
      sumCode [7, 8] rfl rfl rfl (by decide +kernel)
    have hsum := hlow [.const (.i32 7), .const (.i32 8)] (.num .i32Add) [.end_] _ _ rfl rfl rfl
      (by decide) rfl
    exact ⟨m, rfl, hver.imp fun _ h => h.1, hsum hreach⟩

/-- A `br_table` behind 65533 locals. With the scratch local and the index its frame takes up 65535
slots. -/
def tableFunc : Func where
  locals := [(65533, .i32)]
  body := .op (.const (.i32 0)) (.op (.brTable [0] 0) .nil)

/-- The module of this function alone. -/
def crowdedModule : Module where
  types := [[.func ([], [])]]
  funcs := [0]
  code := [tableFunc]

theorem crowdedModule_valid : crowdedModule.Valid := by
  refine ⟨by decide, rfl, fun k ft c hty hc => ?_⟩
  cases k with
  | zero =>
    cases hc
    cases hty
    have hnil : Typed (crowdedModule.ctx ([], []) tableFunc) [[]] false [] .nil [] := .nil
    have htable : Typed (crowdedModule.ctx ([], []) tableFunc) [[]] true (.i32 :: ([] ++ []))
        (.op (.brTable [0] 0) .nil) [] :=
      .brTable rfl (fun k hk => ⟨[], by rw [List.mem_singleton.mp hk]; rfl, rfl, fun _ => rfl⟩) hnil
    exact .op (.const (.i32 0)) htable
  | succ k => cases hc

/-- The comparison that stands in for the `br_table` takes two operands in place of the index. The
frame of the source fits in 65535 slots, the frame of the lowered function does not. -/
theorem crowdedModule_refused : crowdedModule.Valid ∧ crowdedModule.code ≠ [] ∧ crowdedModule.FramesFit 0 ∧
    ∃ m, loadWasm crowdedModule.payloads = .ok m ∧ verifyCuopInt m = .error "max_stack overflow" := by
  have hload : (loadWasm crowdedModule.payloads).toOption.map (fun m =>
      match verifyCuopInt m with
      | .ok _ => ""
      | .error e => e) = some "max_stack overflow" := by decide +kernel
  refine ⟨crowdedModule_valid, by decide, fun k ft c hty hc => ?_, ?_⟩
  · cases k with
    | zero =>
      cases hc
      cases hty
      decide
    | succ k => cases hc
  · cases hm : loadWasm crowdedModule.payloads with
    | error e =>
      rw [hm] at hload
      cases hload
    | ok m =>
      rw [hm] at hload
      refine ⟨m, rfl, ?_⟩
      cases hv : verifyCuopInt m with
      | ok m' => simp [Except.toOption, hv] at hload
      | error e => simpa [Except.toOption, hv] using hload

end CuWasm
