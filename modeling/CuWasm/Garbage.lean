import CuWasm.Alike

/-!
# Stack garbage

Two runs of one instance whose stack buffers differ above the stack pointer. The buffer is never
cleared: what an earlier run, a popped operand or an abandoned frame left there is garbage.
-/

namespace CuWasm

section Garbage

variable (v : Views)

/-- Two machines whose registers and arrays other than the stack are the same. -/
structure SameRest (s t : Mach) : Prop where
  regs : SameRegs s t
  frames : ∀ k, t.frames (v.frames.idx k) = s.frames (v.frames.idx k)
  globals : ∀ j, t.globals (v.globals + j) = s.globals (v.globals + j)
  mem : ∀ j, t.mem (v.memory + j) = s.mem (v.memory + j)
  live : ∀ j, t.live (v.live + j) = s.live (v.live + j)

/-- Two machines that differ in the stack slots from the stack pointer upwards only. -/
structure SameBelow (s t : Mach) : Prop extends SameRest v s t where
  stack : ∀ j, j < s.sp → t.stack (v.stack.idx j) = s.stack (v.stack.idx j)

/-- What an instruction does to two such machines: the same, and as long as the stack may still be
looked at (the run goes on, or is over without a trap), the machines again differ above the stack
pointer only. -/
inductive Matched : EStateM.Result Status Mach Unit → EStateM.Result Status Mach Unit → Prop where
  | ok {s t : Mach} (h : SameBelow v s t) : Matched (.ok () s) (.ok () t)
  | error {s t : Mach} (e : Status) (h : SameRest v s t)
      (hok : e = .running ∨ e = .ok → SameBelow v s t) : Matched (.error e s) (.error e t)

/-- The cells below the stack pointer `n`, and all cells of the other arrays. -/
def ownBelow (n : Nat) : Region → Nat → Prop
  | .stack, j => j < n
  | _, _ => True

end Garbage

end CuWasm
