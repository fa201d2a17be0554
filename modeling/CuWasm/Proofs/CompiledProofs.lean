import CuWasm.Proofs.FuncWidthProofs
import CuWasm.Proofs.ImportProofs
import CuWasm.Proofs.IndirectProofs
import CuWasm.Proofs.LayoutProofs
import CuWasm.Proofs.SegmentProofs

/-!
# Loaded modules are compiled

What the loader and `verify_cuop` establish about a module, in the terms of the simulation: where the code
of each function stands, and what an indirect call finds.
-/

namespace CuWasm

open Wasm Structured Translate

variable {M : Module} {m0 m : HostModule} {segs : List (List Byte)}

theorem codeAt_iff {T : Nat → Nat} {pc : Nat} {is : Items} :
    CodeAt m T pc is ↔ ∀ (k : Nat) p, is[k]? = some p → m.code[pc + k]? = some (p.1.render T) :=
  List.allFrom_iff

/-- The code of a function in the module that contains it. -/
theorem Structured.Emitted.codeAt {f : FuncMeta} {env : LowerEnv} {C : Ctx} {b : Body} {is : Items}
    (h : Emitted m f env C b is) : ∃ consts isb st,
      Structured.body env [⟨none, 0, env.nResults⟩] false ⟨f.codeOff, consts, 0, false⟩ b = some (isb, st) ∧
        st.consts <+: m.consts ∧ CodeAt m (ends st.pc fun _ => 0) f.codeOff isb ∧
        ∃ i, m.code[st.pc]? = some i ∧ i.op = .endFunc := by
  obtain ⟨consts, isb, st, hb, rfl, hpool, hpc, -, -⟩ := h.body_some
  have hcode := codeAt_append.mp (codeAt_iff.mpr h.code)
  refine ⟨consts, isb, st, hb, hpool, codeAt_close.mp hcode.1, ⟨.endFunc, env.nResults, 0⟩, ?_, rfl⟩
  have hend := hcode.2.1
  rw [close_length, ← hpc] at hend
  exact hend

/-- The index of the scratch local, when the frame fits. -/
theorem scratchIndex_fits {ops : List Operator} {np n k : Nat}
    (hfit : np + n + (if ops.any Operator.isBrTable then 1 else 0) ≤ 65535)
    (hk : scratchIndex ops np (scratchLocals ops n) = some k) :
    np + n ≤ k ∧ k < np + scratchLocals ops n := by
  unfold scratchIndex at hk
  split_ifs at hk with hany
  rw [if_pos hany] at hfit
  rw [scratchLocals, if_pos hany] at hk ⊢
  have := Option.some.inj hk
  omega

/-- A function that has been lowered. -/
theorem Verified.funcAt (h : Verified M m0 m) (hfit : M.FramesFit 1) {k : Nat} {c : Func} {ft : FuncType}
    (hk : M.Lowers k) (hc : M.code[k]? = some c) (hty : M.codeType k = some ft)
    (hids : ∀ s, M.before k = .ok s → s.hostFnIds = m.hostFnId) :
    ∃ g env, m.funcs[M.imports.length + k]? = some g ∧ FuncAt M m ft c g env := by
  have ht := h.translated
  obtain ⟨s, ft', f, hs, hty', hmem, hf, hcase⟩ := ht.defined h.valid hc
  rw [hty] at hty'
  cases hty'
  obtain ⟨is, hlow⟩ | ⟨e, code', consts', off, herr, -⟩ := hcase
  · obtain ⟨-, -, -, hcode, hlen⟩ := h.typeFp
    have hlt := (List.getElem?_eq_some_iff.mp hf).1
    have hg := List.getElem?_eq_getElem (l := m.funcs) (hlen ▸ hlt)
    obtain ⟨f0, hf0, hsig, -⟩ := h.func hg
    rw [hf] at hf0
    cases hf0
    set g := m.funcs[M.imports.length + k]
    have hframe := hlow.frame (hfit k ft c hty hc)
    have hsize := hfit k ft c hty hc
    have hem := hlow.emitted ht h.valid (by omega)
    obtain ⟨consts, isb, st, hb, hpool, hat, i, hi, hop⟩ := hem.codeAt
    have hsame : g.codeOff = f.codeOff ∧ g.nParams = f.nParams ∧ g.nLocals = f.nLocals ∧
        g.nResults = f.nResults := by
      rw [hsig]
      exact ⟨rfl, rfl, rfl, rfl⟩
    obtain ⟨-, fs, rfl, -, -⟩ := verifyCuop_accepted h.verified
    have hnp : f.nParams = ft.1.length := by rw [hlow.func]
    have hnr : f.nResults = ft.2.length := by rw [hlow.func]
    have hnl : f.nLocals = scratchLocals c.body.function (c.locals.map (·.1)).sum := by rw [hlow.func]
    refine ⟨g, bodyEnv s ft c, hg, hlow.types, hlow.typeidx, ?_, hids s hs, hsame.2.1.trans hnp,
      hsame.2.2.2.trans hnr, ?_, by omega, ?_, fun j hj => ?_, ?_⟩
    · show s.hostFnIds.length = M.imports.length
      obtain ⟨s', _, _, _, _, hs', -, -, hlen', -⟩ := ht.entry k c hc
      rw [hs] at hs'
      cases hs'
      exact hlen'
    · rw [hsame.2.1, hsame.2.2.1, hnp, hnl]
      rfl
    · rw [hsame.2.2.1, hnl]
      unfold scratchLocals
      split_ifs
      · exact le_min (Nat.le_succ _) hlow.locals
      · exact le_rfl
    · rw [hsame.2.1, hsame.2.2.1, hnp, hnl]
      refine scratchIndex_fits ?_ hj
      unfold Module.frameSize at hsize
      omega
    · rw [hsame.1]
      exact ⟨consts, isb, st, hb, hpool, hat, i, hi, hop⟩
  · obtain ⟨c', ft', s', f', code, consts, hat, hok⟩ := hk
    obtain ⟨rfl, rfl, rfl⟩ := Module.EntryAt.unique ⟨hc, hty, hs⟩ hat
    have hshort := ht.short _ hmem
    rw [Nat.mod_eq_of_lt (by omega), Nat.mod_eq_of_lt (by omega), herr] at hok
    cases hok

/-- An indirect call finds the function in the slot, if it is of the type asked for. -/
theorem Verified.indirectTarget (h : Verified M m0 m) {ti : Nat} {ft : FuncType}
    (hti : M.funcTypes[ti]? = some ft) (i : Nat) :
    Run.indirectTarget m.dev ti i =
      m.table[i]?.bind fun fi =>
        if fi ≠ TABLE_NULL ∧ M.funcType fi = some ft then m.funcs[fi]? else none := by
  obtain ⟨fpv, hfp, hok⟩ := (fingerprints_ok h.translated.typeFp).2 ti ft hti
  rw [← h.typeFp.1] at hfp
  cases hg : Run.indirectTarget m.dev ti i with
  | some g =>
    obtain ⟨fi, htab, htype⟩ := h.indirect_type hok hfp hg
    obtain ⟨fi', -, -, htab', hf, -⟩ := Run.indirectTarget_some hg
    cases htab.symm.trans htab'
    have hnull : fi ≠ TABLE_NULL := by
      intro hnull
      unfold Run.indirectTarget at hg
      have htab'' : m.dev.table[i]? = some fi := htab
      simp only [htab'', if_pos hnull] at hg
      cases hg
    rw [htab, Option.bind_some, if_pos ⟨hnull, htype⟩]
    exact hf.symm
  | none =>
    cases htab : m.table[i]? with
    | none => rfl
    | some fi =>
      rw [Option.bind_some]
      split_ifs with hfi
      · cases hf : m.funcs[fi]? with
        | none => rfl
        | some g =>
          rw [h.indirect_found hok hfp htab hfi.1 hf hfi.2] at hg
          cases hg
      · rfl

theorem loaded_hostCount {ps : List (Parsed Payload)} (hm : loadWasm ps = .ok m) :
    m.hostFnId.length = m.nHostImports := by
  unfold loadWasm translateWasm at hm
  obtain ⟨m1, hm1, hm⟩ := Verify.bind_eq_ok hm
  obtain ⟨s, -, hfin⟩ := Verify.bind_eq_ok hm1
  cases hm
  obtain ⟨-, -, -, -, -, hcount, hids, -⟩ := finish_ok hfin
  show m1.hostFnId.length = m1.nHostImports
  rw [hcount, hids]

theorem loaded_segments {ps : List (Parsed Payload)} {segs : List DataSegment}
    (hm : loadWasm ps = .ok m0) (hv : verifyCuop m0 = .ok m)
    (hdata : dataItems ps = segs.map fun d => .ok d.data) (hblob : m.dataBlob.length ≤ 2 ^ 32) :
    DataSegments m.cpuViews (segs.map DataSegment.bytes) := by
  obtain ⟨-, fs, rfl, -, -⟩ := verifyCuop_accepted hv
  unfold loadWasm at hm
  obtain ⟨m1, hm1, hm⟩ := Verify.bind_eq_ok hm
  cases hm
  have h := translated_dataSegments hdata hm1 hblob
  exact ⟨h.count, h.lens, h.fits, h.bytes⟩

theorem Wasm.Module.codeType_eq (himp : (M.imports.filterMap importType).length = M.imports.length)
    {fi : Nat} (hfi : M.imports.length ≤ fi) : M.codeType (fi - M.imports.length) = M.funcType fi := by
  unfold Module.codeType Module.funcType Module.funcTypeidx
  rw [List.getElem?_append_right (by rw [himp]; exact hfi), himp]

/-- What has been loaded as a whole is compiled. -/
theorem Translates.compiled {ps : List (Parsed Payload)} {segs : List DataSegment}
    (h : Translates M ps segs m) : Compiled M m (segs.map DataSegment.bytes) := by
  obtain ⟨m0, hm, hv⟩ := h.loads
  have hver : Verified M m0 m := ⟨loadWasm_translated h.encodes hm, h.valid, hv⟩
  have ht := hver.translated
  have hids : ∀ {k s}, M.before k = .ok s → s.hostFnIds = m.hostFnId := fun hs => by
    rw [hver.hostFnId, loaded_hostFnId h.encodes hm hs]
  refine ⟨fun ft hft => ?_, fun fi ft _ hft => ?_, ?_, ?_, by rw [List.length_map]; exact h.fewSegs, ?_, ?_,
    fun ti ft i hti => hver.indirectTarget hti i, h.table⟩
  · have := ht.short ft hft
    omega
  · obtain ⟨ti, -, hti⟩ := Option.bind_eq_some_iff.mp hft
    exact ht.short ft (List.mem_of_getElem? hti)
  · rw [← hver.nHostImports, hver.hostFnId, hver.typeFp.2.2.1]
    exact loaded_hostCount hm
  · exact loaded_segments hm hv h.data h.blob
  · have hsmall := (loaded_sizeOk hm hv).small
    have : 1024 * WASM_PAGE < 2 ^ 32 := by decide
    omega
  · intro fi ft hfi hft
    have hcode := (Module.codeType_eq ht.imports hfi).trans hft
    obtain ⟨ti, hti, -⟩ := Option.bind_eq_some_iff.mp hcode
    have hlt : fi - M.imports.length < M.code.length := by
      rw [h.valid.code]
      exact (List.getElem?_eq_some_iff.mp hti).1
    have hc := List.getElem?_eq_getElem hlt
    obtain ⟨g, env, hg, hF⟩ := hver.funcAt h.frames (h.lowers _ hlt) hc hcode fun s hs => hids hs
    rw [Nat.add_sub_cancel' hfi] at hg
    exact ⟨_, g, env, hc, hg, hF⟩

end CuWasm
