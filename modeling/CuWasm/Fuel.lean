import CuWasm.Interp

/-!
# What a run costs

Fuel is meant to bound the number of loop iterations: a jump back to the start of a loop costs one
unit, and nothing else costs any. The instructions that a run executes are listed here with their
positions, so that its jumps can be counted.
-/

namespace CuWasm

namespace Run

variable (v : Views) (m : DevModule)

/-- The instructions that `loop` fetches, each with its position. -/
def executed : Nat → Mach → List (Nat × CuOp)
  | 0, _ => []
  | n + 1, s =>
    match m.code[s.pc]? with
    | none => []
    | some i =>
      (s.pc, i) :: match step v m s with
        | .ok _ s' => executed n s'
        | .error _ _ => []

end Run

/-- An executed `OP_BR` whose target is at or before the instruction itself. -/
def BackEdge (e : Nat × CuOp) : Prop := e.2.op = .br ∧ e.2.b ≤ e.1

/-- An executed `OP_BR` to the instruction right behind it. -/
def Hop (e : Nat × CuOp) : Prop := e.2.op = .br ∧ e.2.b = e.1 + 1

instance (e : Nat × CuOp) : Decidable (BackEdge e) := inferInstanceAs (Decidable (_ ∧ _))

instance (e : Nat × CuOp) : Decidable (Hop e) := inferInstanceAs (Decidable (_ ∧ _))

/-- A call of `run_instance`, up to the module. -/
structure Invocation where
  views : Views
  st : VmState
  memSize : Nat
  mb : HostMailbox
  ar : Arrays
  maxSteps : Nat

namespace Invocation

variable (x : Invocation) (m : DevModule)

/-- The instructions the call executes. -/
def executed : List (Nat × CuOp) :=
  Run.executed x.views m x.maxSteps (Mach.load x.st x.memSize x.mb x.ar)

/-- The fuel that is left when the call returns. -/
def left : Int := (runInstance x.views m x.st x.memSize x.mb x.ar x.maxSteps).1.fuel

/-- The fuel the call consumes. -/
def consumed : Int := x.st.fuel - x.left m

/-- The number of back edges the call takes. -/
def backEdges : Nat := (x.executed m).countP fun e => decide (BackEdge e)

/-- The number of branches to the next instruction. -/
def hops : Nat := (x.executed m).countP fun e => decide (Hop e)

end Invocation

end CuWasm
