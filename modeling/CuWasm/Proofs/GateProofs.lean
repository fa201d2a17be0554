import CuWasm.Proofs.FrameProofs
import CuWasm.Proofs.IntProofs

/-!
# `verify_cuop` as a gate

Code that no lowering produced: an accepted module keeps every activation above its frame base and
gives every caller what it expects as long as no `int` of the verifier overflows and the executed
instructions satisfy `StepOk`. The verifier itself does not enforce `StepOk`; `hostile` passes it and
overwrites its caller's operand.
-/

namespace CuWasm

open Verify

/-- In every run of a module accepted without an overflow whose instructions satisfy `StepOk`,
activations stay above their frame base, and a call that returns has left its caller's slots alone and
delivered the number of results the verifier assumed. -/
theorem verified_frameSafe {m m' : HostModule} (hv : verifyCuopInt m = .ok m') (hint : IntExact m)
    {f : FuncMeta} (hf : f ∈ m'.funcs) (hc : 0 < f.codeLen) (v : Views) {s0 : Mach}
    (h0 : Entry v f s0) : FrameSafe v m' (StepOk v m') s0 := by
  obtain ⟨hm, _⟩ := verifyCuop_accepted ((verifyCuopInt_iff hint).mp hv)
  have hstart : ∃ f gs, FrameInv v m' f gs s0 := ⟨f, [], h0.frameInv hm hf hc⟩
  refine ⟨fun s hs hok a ha hr => ?_, fun s t u w hs hok hst hcsp hrun hoku huw hw => ?_⟩
  · obtain ⟨g, gs, hinv⟩ := hs.frameInv hm hstart
    have hstep := step_frame hm hinv hok
    cases hx : Run.step v m'.dev s with
    | ok _ t =>
      rw [hx] at hstep ha
      exact hstep.1.log a ha hr
    | error e t =>
      rw [hx] at hstep ha
      exact hstep.1.log a ha hr
  · obtain ⟨g, gs, hinv⟩ := hs.frameInv hm hstart
    exact call_returned hm hinv hok hst hcsp hrun hoku huw hw

/-- Function 1 keeps one operand at a target height of zero: `OP_UNWIND` puts it below the frame
base, over the operand of function 0. -/
def hostile : HostModule where
  code := [{ op := .i64Const, b := 0 }, { op := .call, b := 1 }, { op := .endFunc, a := 1 },
    { op := .i64Const, b := 1 }, { op := .unwind, a := 1, b := 0 }, { op := .endFunc }]
  consts := [7, 9]
  funcs := [{ codeOff := 0, codeLen := 3, nParams := 0, nResults := 1, nLocals := 0, maxStack := 1 },
    { codeOff := 3, codeLen := 3, nParams := 0, nResults := 0, nLocals := 0, maxStack := 1 }]
  exports := [("f", 0)]
  globals := []
  memory := fun _ => 0
  memMax := 0
  memSize := 0
  dataBlob := []
  dataOff := []
  dataLen := []
  dataLive := []
  table := []
  funcTypeidx := [0, 1]
  typeFp := [0x100, 0]
  nHostImports := 0
  hostFnId := []
  hostImportMod := []
  hostImportName := []
  hostImportEnv := []

/-- The view of a single instance with the capacities of the CPU. -/
def soloViews : Views where
  stack := { base := 0, cap := STACK_CAP }
  frames := { base := 0, cap := FRAME_CAP }
  nGlobals := 0
  memMax := 0
  nData := 0

/-- The machine at the entry of function 0 of `hostile`. -/
def hostileEntry : Mach where
  pc := 0
  sp := 0
  fp := 0
  csp := 1
  fuel := 100
  peakCsp := 1
  memSize := 0
  hostFn := 0
  hostNArgs := 0
  hostNResults := 0
  mb := {}
  stack := fun _ => 0
  frames := fun i => if i = 0 then ⟨0, 0, 0, 1⟩ else default
  globals := fun _ => 0
  mem := fun _ => 0
  live := fun _ => 0
  log := []

theorem hostile_verified : verifyCuopInt hostile = .ok hostile := rfl

/-- Without `StepOk` the gate does not hold. -/
theorem hostile_not_frameSafe :
    ¬ ∀ (m m' : HostModule) (f : FuncMeta) (v : Views) (s0 : Mach), verifyCuopInt m = .ok m' →
      f ∈ m'.funcs → 0 < f.codeLen → Entry v f s0 → FrameSafe v m' (fun _ => True) s0 := by
  intro h
  have hsafe := h hostile hostile _ soloViews hostileEntry hostile_verified
    (List.mem_cons_self ..) (by decide) ⟨rfl, rfl, rfl, rfl, rfl⟩
  have hrun : Runs soloViews hostile (fun _ => True) hostileEntry
      (Run.loop soloViews hostile.dev 3 hostileEntry).2 :=
    ((Relation.ReflTransGen.refl.tail ⟨trivial, .step rfl⟩).tail ⟨trivial, .step rfl⟩).tail
      ⟨trivial, .step rfl⟩
  have habove := hsafe.above _ hrun trivial ⟨.stack, 0, 1⟩ (List.mem_cons_self ..) rfl
  exact absurd habove (by decide)

/-- `hostile` with an `OP_UNWIND` that keeps nothing. -/
def tamed : HostModule :=
  { hostile with
    code := [{ op := .i64Const, b := 0 }, { op := .call, b := 1 }, { op := .endFunc, a := 1 },
      { op := .i64Const, b := 1 }, { op := .unwind, a := 0, b := 0 }, { op := .endFunc }] }

theorem tamed_verified : verifyCuopInt tamed = .ok tamed := rfl

theorem tamed_intExact : IntExact tamed := by
  intro f hf hc
  refine noOverflow_of_short (K := 255) le_rfl (by decide) hc ?_
  rcases List.mem_cons.mp hf with rfl | hf
  · decide
  · rw [List.mem_singleton.mp hf]
    decide

theorem tamed_stepOk {s : Mach} (h : s.pc < 6) : StepOk soloViews tamed s := by
  intro i hi
  have hpc : s.pc = 0 ∨ s.pc = 1 ∨ s.pc = 2 ∨ s.pc = 3 ∨ s.pc = 4 ∨ s.pc = 5 := by omega
  obtain h | h | h | h | h | h := hpc <;> rw [h] at hi <;> cases hi
  case inr.inl =>
    intro g hg
    cases hg
    decide
  case inr.inr.inr.inr.inl => exact Or.inl (Nat.zero_le _)
  all_goals trivial

/-- Calling function 1 of `tamed` leaves the operand of function 0 alone. -/
theorem tamed_frameSafe :
    FrameSafe soloViews tamed (StepOk soloViews tamed) hostileEntry ∧
      Runs soloViews tamed (StepOk soloViews tamed) hostileEntry
        (Run.loop soloViews tamed.dev 5 hostileEntry).2 ∧
      (Run.loop soloViews tamed.dev 5 hostileEntry).2.pc = 2 := by
  refine ⟨verified_frameSafe tamed_verified tamed_intExact (List.mem_cons_self ..) (by decide) soloViews
    ⟨rfl, rfl, rfl, rfl, rfl⟩, ?_, rfl⟩
  have hrun : Runs soloViews tamed (StepOk soloViews tamed) hostileEntry hostileEntry := .refl
  have h1 := hrun.tail ⟨tamed_stepOk (by decide), .step rfl⟩
  have h2 := h1.tail ⟨tamed_stepOk (by decide), .step rfl⟩
  have h3 := h2.tail ⟨tamed_stepOk (by decide), .step rfl⟩
  have h4 := h3.tail ⟨tamed_stepOk (by decide), .step rfl⟩
  exact h4.tail ⟨tamed_stepOk (by decide), .step rfl⟩

end CuWasm
