import CuWasm.Fuel
import CuWasm.Proofs.BodyProofs
import CuWasm.Proofs.StepProofs

/-!
# Fuel and back edges

`OP_BR` compares its target with the program counter that has already moved on, so a branch to the
next instruction costs fuel like a branch back. No other instruction costs any. In a function without a
second `else`, every branch back leads to the start of a loop.
-/

namespace CuWasm

open Wasm Exit Translate

namespace Run

variable (v : Views) (m : DevModule)

/-- `OP_BR` costs fuel when its target is not beyond the program counter. -/
theorem br_fuel (b : Nat) (s : Mach) :
    (final (br b s)).fuel = s.fuel - if b ≤ s.pc then FUEL_BACKEDGE else 0 := by
  unfold br
  simp only [bind_apply, get_apply, ite_run, modify_apply, throw_apply]
  split_ifs
  · rfl
  · rfl
  · show s.fuel = s.fuel - 0
    omega

/-- What an executed instruction costs. -/
def cost (e : Nat × CuOp) : Nat := if BackEdge e ∨ Hop e then 1 else 0

/-- An `OP_BR` costs one unit if it is a back edge or leads to the next instruction. -/
theorem cost_br {p : Nat} {i : CuOp} (hop : i.op = .br) :
    cost (p, i) = if i.b ≤ p + 1 then 1 else 0 := by
  unfold cost BackEdge Hop
  simp only [hop, true_and]
  congr 1
  exact propext (by omega)

theorem cost_other {p : Nat} {i : CuOp} (hop : i.op ≠ .br) : cost (p, i) = 0 := by
  unfold cost BackEdge Hop
  simp only [hop, false_and, or_self, if_false]

/-- A round of the loop takes the cost of its instruction, also when it is the last. -/
theorem step_fuel {s : Mach} {i : CuOp} (hi : m.code[s.pc]? = some i) :
    (final (step v m s)).fuel = s.fuel - cost (s.pc, i) := by
  rw [final_step v m hi]
  by_cases hop : i.op = .br
  · have hexec : exec v m i = br i.b := by
      unfold exec
      rw [hop]
    rw [hexec, br_fuel, cost_br hop]
    show s.fuel - (if i.b ≤ s.pc + 1 then 1 else 0) = _
    split_ifs <;> rfl
  · rw [cost_other hop]
    have hkeep : (final (exec v m i (fetched s))).fuel = s.fuel :=
      exec_keeps_fuel v m hop (fetched s)
    exact hkeep.trans (Int.sub_zero s.fuel).symm

/-- A run takes the costs of the instructions it executes. -/
theorem loop_fuel (n : Nat) : ∀ s : Mach,
    (loop v m n s).2.fuel = s.fuel - ((executed v m n s).map cost).sum := by
  induction n with
  | zero => exact fun s => (Int.sub_zero s.fuel).symm
  | succ n ih =>
    intro s
    unfold loop executed
    cases hi : m.code[s.pc]? with
    | none =>
      have hstop : step v m s = .error .trapUnreachable { s with log := [] } := by
        rw [step_apply, hi]
      rw [hstop]
      exact (Int.sub_zero s.fuel).symm
    | some i =>
      have hstep := step_fuel v m hi
      cases hx : step v m s with
      | ok a t =>
        rw [hx] at hstep
        dsimp only [final_ok] at hstep ⊢
        rw [ih t, hstep, List.map_cons, List.sum_cons]
        omega
      | error e t =>
        rw [hx] at hstep
        dsimp only [final_error] at hstep ⊢
        rw [hstep, List.map_cons, List.sum_cons, List.map_nil, List.sum_nil, Nat.add_zero]

/-- The costs of a run: its back edges and its branches to the next instruction. -/
theorem sum_cost (es : List (Nat × CuOp)) : (es.map cost).sum =
    es.countP (fun e => decide (BackEdge e)) + es.countP fun e => decide (Hop e) := by
  induction es with
  | nil => rfl
  | cons e es ih =>
    rw [List.map_cons, List.sum_cons, ih, List.countP_cons, List.countP_cons]
    have hone : cost e = (if decide (BackEdge e) = true then 1 else 0) +
        if decide (Hop e) = true then 1 else 0 := by
      unfold cost
      simp only [decide_eq_true_eq]
      by_cases hb : BackEdge e
      · have hh : ¬ Hop e := fun hh => by
          have := hb.2
          have := hh.2
          omega
        rw [if_pos (.inl hb), if_pos hb, if_neg hh]
      · by_cases hh : Hop e
        · rw [if_pos (.inr hh), if_neg hb, if_pos hh]
        · rw [if_neg (by rintro (h | h) <;> contradiction), if_neg hb, if_neg hh]
    rw [hone]
    omega

end Run

namespace Invocation

variable (x : Invocation) (m : DevModule)

/-- What a call consumes. -/
theorem consumed_eq : x.consumed m = x.backEdges m + x.hops m := by
  have hfuel := Run.loop_fuel x.views m x.maxSteps (Mach.load x.st x.memSize x.mb x.ar)
  rw [Run.sum_cost] at hfuel
  have hleft : x.left m = x.st.fuel - (x.backEdges m + x.hops m : Nat) := hfuel
  unfold consumed
  rw [hleft]
  omega

/-- Fuel counts the back edges exactly when no branch leads to the next instruction. -/
theorem consumed_iff :
    x.consumed m = x.backEdges m ↔ ∀ e ∈ x.executed m, ¬ Hop e := by
  have hzero : x.hops m = 0 ↔ ∀ e ∈ x.executed m, ¬ Hop e := by
    unfold hops
    rw [List.countP_eq_zero]
    simp only [decide_eq_true_eq]
  rw [← hzero, consumed_eq]
  omega

end Invocation

/-- In a function without a second `else`, a branch back leads to the start of a loop. -/
theorem Translate.Pass.Yields.back {p : Pass} {f : FuncMeta} (hf : p.Yields f)
    (hr : (Scan.function p.ops).repeated = false) {q : Nat} {i : CuOp} (hq : f.codeOff ≤ q)
    (hi : p.result.2.1[q]? = some i) (hb : BackEdge (q, i)) :
    Lower.LoopHeader p.env p.ops p.start i.b := by
  obtain ⟨hop, hle⟩ := hb
  have hleads := hf.leads hq hi (.inl hop) (Pass.not_forgotten hr q)
  rcases hleads.back with hlt | ⟨-, hH⟩
  · exact absurd hlt (Nat.not_lt_of_le hle)
  · exact hH

/-- What a run executes stands in the code. -/
theorem Run.executed_get {v : Views} {m : DevModule} {e : Nat × CuOp} (n : Nat) :
    ∀ {s : Mach}, e ∈ Run.executed v m n s → m.code[e.1]? = some e.2 := by
  induction n with
  | zero => exact fun h => by cases h
  | succ n ih =>
    intro s h
    unfold Run.executed at h
    cases hi : m.code[s.pc]? with
    | none =>
      rw [hi] at h
      cases h
    | some i =>
      rw [hi] at h
      rcases List.mem_cons.mp h with rfl | h
      · exact hi
      · cases hx : Run.step v m s with
        | ok a t =>
          rw [hx] at h
          exact ih h
        | error st t =>
          rw [hx] at h
          cases h

/-- A run of a translated module consumes as much fuel as it takes back edges exactly when none of its
branches leads to the next instruction. The back edges in a function without a second `else` lead to
its loops. Two runs of this kind with as many back edges consume the same fuel. -/
theorem fuel_counts_iff {payloads : List (Parsed Payload)} {m : HostModule}
    (h : translateWasm payloads = .ok m) (x : Invocation) :
    (x.consumed m.dev = x.backEdges m.dev ↔ ∀ e ∈ x.executed m.dev, ¬ Hop e) ∧
      (∀ p f, Makes payloads p → p.Yields f → (Scan.function p.ops).repeated = false →
        ∀ e ∈ x.executed m.dev, BackEdge e → f.codeOff ≤ e.1 → e.1 < f.codeOff + f.codeLen →
          Lower.LoopHeader p.env p.ops p.start e.2.b) ∧
      ∀ y : Invocation, (∀ e ∈ x.executed m.dev, ¬ Hop e) → (∀ e ∈ y.executed m.dev, ¬ Hop e) →
        x.backEdges m.dev = y.backEdges m.dev → x.consumed m.dev = y.consumed m.dev := by
  refine ⟨x.consumed_iff m.dev, fun p f hp hf hr e he hb hlow hhigh => ?_, fun y hx hy hxy => ?_⟩
  · have hget : m.code[e.1]? = some e.2 := Run.executed_get x.maxSteps he
    obtain ⟨-, hcode, -⟩ := hp.yields h hf
    rw [hf.range.2] at hhigh
    obtain ⟨later, hlater⟩ := hcode
    rw [← hlater, List.getElem?_append_left hhigh] at hget
    exact hf.back hr hlow hget hb
  · rw [(x.consumed_iff m.dev).mpr hx, (y.consumed_iff m.dev).mpr hy, hxy]

/-- A module whose function has an `if` with two empty arms. -/
def emptyArms : List (Parsed Payload) :=
  [.ok .other,
    .ok (.typeSection [.ok [.func ([.i32], [])]]),
    .ok (.functionSection [.ok 0]),
    .ok .other,
    .ok (.codeSectionEntry
      ⟨.ok [], .ok [.ok (.localGet 0), .ok (.if_ .empty), .ok .else_, .ok .end_, .ok .end_]⟩)]

/-- The call of the first function with the argument `c` and ten units of fuel. -/
def enterWith (c : Slot) : Invocation where
  views := { stack := ⟨0, STACK_CAP, 0⟩, frames := ⟨0, FRAME_CAP, 0⟩, nGlobals := 0, memMax := 0
             nData := 0 }
  st := { sp := 1, csp := 1, fuel := 10, peakCsp := 1 }
  memSize := 0
  mb := {}
  ar := { stack := fun _ => c, frames := fun _ => ⟨0, 0, 0, 0⟩, globals := fun _ => 0
          mem := fun _ => 0, live := fun _ => 0 }
  maxSteps := 10

/-- A run without branches. -/
theorem fuel_counts_straight : ∃ m, translateWasm emptyArms = .ok m ∧
    (enterWith 0).consumed m.dev = (enterWith 0).backEdges m.dev := by
  have heval : (translateWasm emptyArms).toOption.map (fun m : HostModule =>
      decide (∀ e ∈ (enterWith 0).executed m.dev, ¬ Hop e)) = some true := by
    decide +kernel
  obtain ⟨m, hm, hno⟩ := translated_eval heval
  exact ⟨m, hm, (fuel_counts_iff hm (enterWith 0)).1.mpr (of_decide_eq_true hno)⟩

/-- The jump over the empty else arm costs fuel: of two runs without a back edge, the one that takes
the first arm consumes more. -/
theorem empty_arm_costs : ∃ m, translateWasm emptyArms = .ok m ∧
    0 < (enterWith 1).left m.dev ∧ 0 < (enterWith 0).left m.dev ∧
    (enterWith 1).consumed m.dev ≠ (enterWith 1).backEdges m.dev ∧
    (enterWith 1).backEdges m.dev = (enterWith 0).backEdges m.dev ∧
    (enterWith 1).consumed m.dev ≠ (enterWith 0).consumed m.dev := by
  have heval : (translateWasm emptyArms).toOption.map (fun m : HostModule =>
      ((enterWith 1).left m.dev, (enterWith 0).left m.dev, (enterWith 1).backEdges m.dev,
        (enterWith 0).backEdges m.dev)) = some (9, 10, 0, 0) := by
    decide +kernel
  obtain ⟨m, hm, hval⟩ := translated_eval heval
  simp only [Prod.mk.injEq] at hval
  obtain ⟨h1, h2, h3, h4⟩ := hval
  refine ⟨m, hm, ?_⟩
  unfold Invocation.consumed
  rw [h1, h2, h3, h4]
  decide

end CuWasm
