import CuWasm.Proofs.AgreeProofs
import CuWasm.Proofs.FrameProofs
import CuWasm.Run

/-!
# Heights along a run

Lowered code satisfies the conditions that `verify_cuop` leaves open (`StepOk`), so every state of a
run of a valid module without imports obeys the frame discipline.
-/

namespace CuWasm

open Wasm Structured Verify Translate

variable {M : Module} {m0 m : HostModule}

/-- What `verify_cuop` has made of a translated module. -/
structure Verified (M : Module) (m0 m : HostModule) : Prop where
  translated : Translated M m0
  valid : M.Valid
  verified : verifyCuop m0 = .ok m

section Verified

variable (h : Verified M m0 m)

include h

theorem Verified.accepted : Accepted m := (verifyCuop_accepted h.verified).1

/-- The functions are the translated ones up to `max_stack`. -/
theorem Verified.func {f : FuncMeta} {k : Nat} (hf : m.funcs[k]? = some f) :
    ∃ f0, m0.funcs[k]? = some f0 ∧ SameSig f0 f ∧ heights m f = heights m0 f0 ∧
      analyse id m f = analyse id m0 f0 ∧ ∀ r, instrAt m f r = instrAt m0 f0 r := by
  obtain ⟨-, fs, rfl, hlen, hsig⟩ := verifyCuop_accepted h.verified
  obtain ⟨f0, hf0, hs⟩ := hsig k f hf
  have han := analyse_congr (sameSigs_of hlen hsig) hs
  refine ⟨f0, hf0, hs, ?_, han, fun r => ?_⟩
  · unfold heights
    rw [han]
  · rw [hs]
    rfl

theorem Verified.typeFp : m.typeFp = m0.typeFp ∧ m.funcTypeidx = m0.funcTypeidx ∧
    m.nHostImports = m0.nHostImports ∧ m.code = m0.code ∧ m.funcs.length = m0.funcs.length := by
  obtain ⟨-, fs, rfl, hlen, -⟩ := verifyCuop_accepted h.verified
  exact ⟨rfl, rfl, rfl, rfl, hlen⟩

/-- Reached instructions of a defined function satisfy what the verifier does not check. -/
theorem Verified.tame {k : Nat} {f : FuncMeta} (hk : M.imports.length ≤ k) (hf : m.funcs[k]? = some f)
    (hpos : 0 < f.codeLen) {r : Nat} (hr : 0 ≤ heights m f r) : Tame m f (instrAt m f r) := by
  obtain ⟨f0, hf0, hs, -, han, hinstr⟩ := h.func hf
  have hlt := (List.getElem?_eq_some_iff.mp hf0).1
  rw [h.translated.length] at hlt
  have hc := List.getElem?_eq_getElem (show k - M.imports.length < M.code.length by omega)
  obtain ⟨s, ft, f', -, -, -, hf', hcase⟩ := h.translated.defined h.valid hc
  rw [Nat.add_sub_cancel' hk, hf0] at hf'
  cases hf'
  have hpos0 : 0 < f0.codeLen := by
    rw [hs] at hpos
    exact hpos
  obtain ⟨-, ⟨h0, -⟩ | ⟨-, st, hst, hmax, hle⟩⟩ := h.accepted.func k f hf
  · omega
  have hst0 : analyse id m0 f0 = .ok st := han ▸ hst
  have hheight : heights m f r = st.height r := by
    unfold heights
    rw [hst]
  rw [hheight] at hr
  have hnp : f.nParams = f0.nParams ∧ f.nLocals = f0.nLocals ∧ f.nResults = f0.nResults := by
    rw [hs]
    exact ⟨rfl, rfl, rfl⟩
  have hmaxH : 0 ≤ st.maxH := by
    obtain ⟨fl, hfl⟩ := (analyse_closed hpos0 hst0).flowAt r hr
    exact hr.trans hfl.le
  have htrans : Tame m0 f0 (instrAt m0 f0 r) → Tame m f (instrAt m f r) := by
    rw [hinstr]
    unfold Tame FuncMeta.locals
    generalize instrAt m0 f0 r = i
    rw [hnp.1, hnp.2.1, hnp.2.2]
    cases i.op <;> try exact fun h => h
    intro htame g hg
    obtain ⟨g0, hg0, hsg, -⟩ := h.func hg
    rw [hsg]
    exact htame g0 hg0
  obtain ⟨is, hlow⟩ | ⟨e, code', consts', off, -, rfl, h1, -⟩ := hcase
  · have hem := hlow.emitted h.translated h.valid (by omega)
    exact htrans (hem.agree hpos0 hst0 (by omega) hr).2
  · -- the stub is left at its first instruction
    obtain ⟨st', hst', hagree, -⟩ := (stub_closed ft.1.length ft.2.length h1).analyse
    rw [hst0] at hst'
    cases hst'
    have hzero : r = 0 := by
      by_contra hne
      have := hagree r hr
      rw [if_neg hne] at this
      omega
    refine htrans ?_
    have hunr : instrAt m0 (stub off ft.1.length ft.2.length) 0 = { op := .unreachable } := by
      unfold instrAt stub
      rw [List.getD_eq_getElem?_getD, Nat.add_zero, h1]
      rfl
    rw [hzero, hunr]
    trivial

/-- A function with code is not a placeholder. -/
theorem Verified.defined_of {k : Nat} {f : FuncMeta} (hf : m.funcs[k]? = some f)
    (hpos : 0 < f.codeLen) : M.imports.length ≤ k := by
  by_contra hlt
  obtain ⟨f0, hf0, hs, -⟩ := h.func hf
  obtain ⟨t, ft, -, -, rfl⟩ := h.translated.imported k f0 (Nat.lt_of_not_le hlt) hf0
  rw [hs] at hpos
  exact Nat.lt_irrefl 0 hpos

/-- Without imports every function has code. -/
theorem Verified.code_pos (himp : M.imports = []) {f : FuncMeta} (hf : f ∈ m.funcs) :
    0 < f.codeLen := by
  obtain ⟨k, hk⟩ := List.mem_iff_getElem?.mp hf
  obtain ⟨-, ⟨-, hlt⟩ | ⟨hpos, -⟩⟩ := h.accepted.func k f hk
  · rw [h.typeFp.2.2.1, h.translated.nHostImports, himp] at hlt
    exact absurd hlt (Nat.not_lt_zero _)
  · exact hpos

/-- The signature of the function that an indirect call finds is that of the fingerprint. -/
theorem Verified.indirect {b idx fpv : Nat} {g : FuncMeta}
    (hg : Run.indirectTarget m.dev b idx = some g) (hfp : m.typeFp[b]? = some fpv) :
    g ∈ m.funcs ∧ g.nParams = fpv &&& 0xff ∧ g.nResults = (fpv >>> 8) &&& 0xff := by
  obtain ⟨fi, want, tidx, -, hf, hwant, htidx, heq⟩ := Run.indirectTarget_some hg
  obtain ⟨g0, hg0, hs, -⟩ := h.func hf
  obtain ⟨e1, e2, -⟩ := h.typeFp
  have hwant' : m.typeFp[b]? = some want := hwant
  rw [hfp] at hwant'
  cases hwant'
  have heq' : m.typeFp[tidx]? = some fpv := heq
  have htidx' : m.funcTypeidx[fi]? = some tidx := htidx
  rw [e2, h.translated.funcTypeidx, List.getElem?_take] at htidx'
  split_ifs at htidx'
  rw [e1] at heq'
  have hlen := (fingerprints_ok h.translated.typeFp).1
  have hlt := (List.getElem?_eq_some_iff.mp heq').1
  obtain ⟨g1, hg1, hp, hr⟩ := h.translated.signature h.valid htidx'
    (List.getElem?_eq_getElem (hlen ▸ hlt))
  rw [hg0] at hg1
  cases hg1
  obtain ⟨fpv', hfp', hlow⟩ := h.translated.fingerprint (List.getElem?_eq_getElem (hlen ▸ hlt))
  rw [heq'] at hfp'
  cases hfp'
  refine ⟨List.mem_of_getElem? hf, ?_, ?_⟩
  · rw [hs, hlow.1]
    exact hp
  · rw [hs, hlow.2]
    exact hr

/-- Functions do not share code. -/
theorem Verified.disjoint (himp : M.imports = []) {f g : FuncMeta} {pc : Nat} (hf : f ∈ m.funcs)
    (hg : g ∈ m.funcs) (hpf : f.codeOff ≤ pc ∧ pc < f.codeOff + f.codeLen)
    (hpg : g.codeOff ≤ pc ∧ pc < g.codeOff + g.codeLen) : g = f := by
  obtain ⟨j, hj⟩ := List.mem_iff_getElem?.mp hf
  obtain ⟨k, hk⟩ := List.mem_iff_getElem?.mp hg
  obtain ⟨f0, hf0, hsf, -⟩ := h.func hj
  obtain ⟨g0, hg0, hsg, -⟩ := h.func hk
  have ef : f.codeOff = f0.codeOff ∧ f.codeLen = f0.codeLen := by rw [hsf]; exact ⟨rfl, rfl⟩
  have eg : g.codeOff = g0.codeOff ∧ g.codeLen = g0.codeLen := by rw [hsg]; exact ⟨rfl, rfl⟩
  have hord := h.translated.ordered
  simp only [himp, List.length_nil, Nat.zero_add] at hord
  obtain hlt | rfl | hlt := Nat.lt_trichotomy j k
  · have := hord j k f0 g0 hlt hf0 hg0
    omega
  · rw [hj] at hk
    cases hk
    rfl
  · have := hord k j g0 f0 hlt hg0 hf0
    omega

variable {v : Views} {f : FuncMeta} {gs : List FuncMeta} {s : Mach}

/-- Valid code whose callees have code satisfies `StepOk`. -/
theorem Verified.stepOk_of (hinv : FrameInv v m f gs s)
    (hcall : ∀ i g, m.code[s.pc]? = some i → i.op = .call ∨ i.op = .returnCall →
      m.funcs[i.b]? = some g → 0 < g.codeLen)
    (hind : ∀ i g, m.code[s.pc]? = some i → i.op = .callIndirect →
      Run.indirectTarget m.dev i.b (u32 (s.stack (v.stack.idx (s.sp - 1)))).toNat = some g →
      0 < g.codeLen) : StepOk v m s := by
  obtain ⟨k, hk⟩ := List.mem_iff_getElem?.mp hinv.located.mem
  have htame := h.tame (h.defined_of hk hinv.located.code) hk hinv.located.code hinv.located.known
  intro i hi
  have hcall := hcall i
  have hind := hind i
  rw [(hinv.instr h.accepted).1] at hi hcall hind
  cases hi
  generalize instrAt m f (s.pc - f.codeOff) = i at htame hcall hind ⊢
  unfold Tame at htame
  cases hop : i.op <;> simp only [hop] at htame ⊢
  case unwind => exact .inl (by omega)
  case call => exact fun g hg => hcall g rfl (.inl hop) hg
  case returnCall =>
    refine fun g hg => ⟨hcall g rfl (.inr hop) hg, fun _ => ?_⟩
    rw [htame g hg, hinv.csp, Nat.add_sub_cancel]
    have hcallers := hinv.callers
    cases gs with
    | nil => exact hcallers.2.symm
    | cons g gs => exact hcallers.2.1.symm
  case callIndirect =>
    intro g fpv hg hfp
    obtain ⟨-, hp, hr⟩ := h.indirect hg hfp
    exact ⟨hind g rfl hop hg, hp, hr⟩

/-- Valid code without imports never reaches a state that violates `StepOk`. -/
theorem Verified.stepOk (himp : M.imports = []) (hinv : FrameInv v m f gs s) : StepOk v m s := by
  refine h.stepOk_of hinv (fun i g _ _ hg => h.code_pos himp (List.mem_of_getElem? hg)) ?_
  exact fun i g _ _ hg => h.code_pos himp (Run.indirectTarget_mem hg)

/-- Every state that a run of valid code without imports gets to from the entry of a function. -/
theorem Verified.frameInv (himp : M.imports = []) {e : FuncMeta} (hmem : e ∈ m.funcs) {s0 : Mach}
    (h0 : Entry v e s0) (hr : Runs v m (fun _ => True) s0 s) : ∃ f gs, FrameInv v m f gs s := by
  induction hr with
  | refl => exact ⟨e, [], h0.frameInv h.accepted hmem (h.code_pos himp hmem)⟩
  | tail _ hstep ih =>
    obtain ⟨f, gs, hinv⟩ := ih
    exact (go_frame h.accepted hinv (h.stepOk himp hinv) hstep.2).1

end Verified

theorem Callers.site {v : Views} {fr : Nat → Frame} {gs : List FuncMeta} {f : FuncMeta} {fp : Nat}
    (hc : Callers v m fr gs f fp) {k : Nat} {g : FuncMeta} (hk : gs[k]? = some g) :
    ∃ rel np, (fr (v.frames.idx (gs.length - k))).retPc = g.codeOff + rel + 1 ∧
      CallSite m g rel np (fr (v.frames.idx (gs.length - k))).nResults := by
  induction gs generalizing f fp k with
  | nil => simp at hk
  | cons g' gs ih =>
    obtain ⟨-, hn, ⟨rel, np, hret, hsite, -⟩, hrest⟩ := hc
    cases k with
    | zero =>
      cases hk
      refine ⟨rel, np, hret, ?_⟩
      rw [List.length_cons, Nat.sub_zero, hn]
      exact hsite
    | succ k =>
      rw [List.length_cons, Nat.add_sub_add_right]
      exact ih hrest hk

theorem taken_plain {f : FuncMeta} {i : CuOp} {p q : Nat} (he : effect i = some (p, q)) :
    taken m f i = p := by
  unfold taken
  rw [he]
  unfold effect at he
  cases hop : i.op <;> simp [hop] at he ⊢

theorem local_lt {f : FuncMeta} {i : CuOp} {k : Nat} (hi : indexCheck m f i = .ok ())
    (hk : localOf i = some k) : k < f.nParams + f.nLocals := by
  unfold localOf at hk
  unfold indexCheck at hi
  cases hop : i.op <;> simp only [hop, reduceCtorEq, Option.some.injEq] at hk hi
  all_goals
    split_ifs at hi
    have := Nat.mod_le (f.nParams + f.nLocals) (2 ^ 16)
    omega

/-- The consequences of the frame invariant for the instruction about to be fetched. -/
theorem FrameInv.balanced {v : Views} {f : FuncMeta} {gs : List FuncMeta} {s : Mach}
    (hm : Accepted m) (htame : Tame m f (instrAt m f (s.pc - f.codeOff)))
    (hinv : FrameInv v m f gs s) : Balanced v m f gs s := by
  have hsp := hinv.sp
  have hknown := hinv.located.known
  obtain ⟨⟨fl, hfl, hcase⟩, -⟩ := hinv.located.flowAt hm
  have hcode := (hinv.instr hm).1
  have hle := hfl.le
  have hidx := hfl.index
  unfold FuncMeta.locals at hsp hle
  have htaken : (taken m f (instrAt m f (s.pc - f.codeOff)) : Int) ≤
      heights m f (s.pc - f.codeOff) := by
    generalize instrAt m f (s.pc - f.codeOff) = i at hcase htame
    unfold taken
    cases hcase with
    | plain he hp =>
      rw [← taken, taken_plain he]
      exact hp
    | unwind hop h0 h1 =>
      have hb := toI32_of_nonneg (show 0 ≤ toI32 i.b by omega)
      simp only [hop, Tame, FuncMeta.locals] at htame ⊢
      omega
    | br hop h1 h2 => simp [hop, effect]; exact hknown
    | brIfNot hop h0 h1 h2 => simp [hop]; exact h0
    | call hop hg hp => simp [hop, hg]; exact hp
    | returnCall hop hg hp => simp [hop, hg]; exact hp
    | leave hop hp => obtain hop | hop := hop <;> simp [hop] <;> exact hp
    | unreachable hop => simp [hop, effect]; exact hknown
    | callHost hop hp => simp only [hop]; exact hp
    | callIndirect hop hfp hp => simp only [hop, hfp]; simpa using hp
  refine ⟨by omega, fun i hi => ?_, fun i k hi hk => ?_, by omega, hinv.csp,
    fun k g hk => hinv.callers.site hk⟩
  · rw [hcode] at hi
    cases hi
    omega
  · rw [hcode] at hi
    cases hi
    have hlt := local_lt hidx hk
    exact ⟨by omega, by omega⟩

/-- The machine that `run_cpu` starts in the entry of `f`. -/
def entryMach (m : HostModule) (f : FuncMeta) (args : List Slot) (fuel : Int) : Mach :=
  Mach.load (entryState m f fuel) m.memSize {} (m.entryArrays f args)

theorem entryMach_entry (m : HostModule) (f : FuncMeta) (args : List Slot) (fuel : Int) :
    Entry m.cpuViews f (entryMach m f args fuel) := by
  refine ⟨rfl, rfl, rfl, rfl, ?_⟩
  have hidx : m.cpuViews.frames.idx 0 = 0 := by simp [AoSView.idx, HostModule.cpuViews]
  rw [hidx]
  rfl

/-- In a valid module without imports that the translator and the verifier accept, every state a run
from the entry of a function gets to is balanced: the stack pointer stands at the height that the
verifier computed for the program counter. The function the program counter lies in is unique. -/
theorem verified_runs_balanced {ps : List (Parsed Payload)} (hv : M.Valid) (himp : M.imports = [])
    (he : Encodes M ps) (hm : loadWasm ps = .ok m0) (hver : verifyCuop m0 = .ok m) {e : FuncMeta}
    (hmem : e ∈ m.funcs) (args : List Slot) (fuel : Int) {s : Mach}
    (hr : Runs m.cpuViews m (fun _ => True) (entryMach m e args fuel) s) :
    ∃ f gs, f ∈ m.funcs ∧ (f.codeOff ≤ s.pc ∧ s.pc < f.codeOff + f.codeLen) ∧
      (∀ g ∈ m.funcs, g.codeOff ≤ s.pc ∧ s.pc < g.codeOff + g.codeLen → g = f) ∧
      Balanced m.cpuViews m f gs s := by
  have h : Verified M m0 m := ⟨loadWasm_translated he hm, hv, hver⟩
  obtain ⟨f, gs, hinv⟩ := h.frameInv himp hmem (entryMach_entry m e args fuel) hr
  have hloc := hinv.located
  obtain ⟨⟨fl, hfl, -⟩, -⟩ := hloc.flowAt h.accepted
  have hlt := hfl.lt
  have hpc := hinv.pc
  have hrange : f.codeOff ≤ s.pc ∧ s.pc < f.codeOff + f.codeLen := ⟨hpc, by omega⟩
  obtain ⟨k, hk⟩ := List.mem_iff_getElem?.mp hloc.mem
  have htame := h.tame (by rw [himp]; exact Nat.zero_le _) hk hloc.code hloc.known
  exact ⟨f, gs, hloc.mem, hrange, fun g hg hpg => h.disjoint himp hloc.mem hg hrange hpg,
    hinv.balanced h.accepted htame⟩

/-- A constant is pushed when there is room. -/
theorem step_const {s : Mach} {b : Nat} (hc : m.code[s.pc]? = some ⟨.i64Const, 0, b⟩)
    (hcap : s.sp < STACK_CAP) :
    ∃ t, Run.step m.cpuViews m.dev s = .ok () t ∧ t.pc = s.pc + 1 ∧ t.sp = s.sp + 1 := by
  have hc' : m.dev.code[s.pc]? = some ⟨.i64Const, 0, b⟩ := hc
  rw [Run.step_apply, hc']
  simp only [Run.exec, Run.push_apply]
  rw [if_neg (show ¬ (Run.fetched s).sp ≥ m.cpuViews.stack.cap from Nat.not_le.mpr hcap)]
  simp only [Exit.pure_apply]
  rw [if_neg (show ¬ (Run.fetched s).sp + 1 > STACK_CAP from Nat.not_lt.mpr hcap)]
  exact ⟨_, rfl, rfl, rfl⟩

/-- The addition of `sumModule` finds its two operands. -/
theorem sumModule_balanced : ∃ m0 m e s f gs, loadWasm sumModule.payloads = .ok m0 ∧
    verifyCuop m0 = .ok m ∧ e ∈ m.funcs ∧
    Runs m.cpuViews m (fun _ => True) (entryMach m e [] 10) s ∧ s.pc = 2 ∧ s.sp = 2 ∧
    Balanced m.cpuViews m f gs s := by
  have hload : (loadWasm sumModule.payloads).toOption.map (fun m => (m.code, m.funcs)) =
      some (sumCode, [sumMeta]) := by decide +kernel
  cases hm : loadWasm sumModule.payloads with
  | error e =>
    rw [hm] at hload
    cases hload
  | ok m0 =>
    rw [hm] at hload
    obtain ⟨hcode, hfuncs⟩ := Prod.mk.inj (Option.some.inj hload)
    have htrans : Translated sumModule m0 := loadWasm_translated rfl hm
    obtain ⟨m, hver⟩ := htrans.verifies sumModule_valid sumModule_fits (by decide)
    have hv : Verified sumModule m0 m := ⟨htrans, sumModule_valid, hver⟩
    have hcode' : m.code = sumCode := hv.typeFp.2.2.2.1.trans hcode
    have hlen : 0 < m.funcs.length := by
      rw [hv.typeFp.2.2.2.2, hfuncs]
      decide
    obtain ⟨f0, hf0, hs, -⟩ := hv.func (List.getElem?_eq_getElem hlen)
    rw [hfuncs] at hf0
    cases hf0
    set e := m.funcs[0]
    have hstart : (entryMach m e [] 10).pc = 0 ∧ (entryMach m e [] 10).sp = 0 := by
      rw [hs]
      exact ⟨rfl, rfl⟩
    obtain ⟨t, ht, htp, hts⟩ := step_const (m := m) (s := entryMach m e [] 10) (b := 0)
      (by rw [hstart.1, hcode']; rfl) (by rw [hstart.2]; decide)
    rw [hstart.1] at htp
    rw [hstart.2] at hts
    obtain ⟨u, hu, hup, hus⟩ := step_const (m := m) (s := t) (b := 1) (by rw [htp, hcode']; rfl)
      (by rw [hts]; decide)
    have hrun : Runs m.cpuViews m (fun _ => True) (entryMach m e [] 10) u :=
      (Relation.ReflTransGen.refl.tail ⟨trivial, .step ht⟩).tail ⟨trivial, .step hu⟩
    have hmem : e ∈ m.funcs := List.getElem_mem _
    obtain ⟨f, gs, -, -, -, hbal⟩ :=
      verified_runs_balanced sumModule_valid rfl rfl hm hver hmem [] 10 hrun
    exact ⟨m0, m, e, u, f, gs, rfl, hver, hmem, hrun, by rw [hup, htp], by rw [hus, hts], hbal⟩

end CuWasm
