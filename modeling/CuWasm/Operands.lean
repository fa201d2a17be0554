import CuWasm.Interp
import CuWasm.Lib.LittleEndian
import CuWasm.Wasm.Memory

/-!
# Operands on the stack

What an instruction that works on the operand stack does, seen from outside: it finds its operands on
top, and either replaces them by its results or exits with a trap. Nothing else of the machine
changes.
-/

namespace CuWasm

open Wasm

/-- The number that a slot holds for a value of type `t`: an `i32` is its low half. -/
def operand (t : ValType) (x : Slot) : Nat := x.toNat % 2 ^ t.width

/-- The status of a trap. -/
def trapStatus : Trap → Status
  | .divByZero => .trapDivByZero
  | .intOverflow => .trapIntOverflow

/-- The results of an operator as slots, or the status of its trap. -/
def slots : Except Trap (List Nat) → Except Status (List Slot)
  | .ok ys => .ok (ys.map (BitVec.ofNat 64))
  | .error t => .error (trapStatus t)

/-- The number with the low word `lo` and the high word `hi`. -/
def wide (lo hi : Slot) : Nat := hi.toNat * 2 ^ 64 + lo.toNat

/-- The machine without its operand stack. -/
def Mach.offStack (s : Mach) : Mach := { s with sp := 0, stack := fun _ => 0, log := [] }

/-- A machine without memory and globals whose operand stack is `xs`. -/
def operandMach (xs : List Slot) : Mach :=
  Mach.load { sp := xs.length } 0 {}
    ⟨fun i => xs.getD i 0, fun _ => default, fun _ => 0, fun _ => 0, fun _ => 0⟩

/-- The views of a single instance without memory and globals. -/
def operandViews : Views where
  stack := { base := 0, cap := STACK_CAP }
  frames := { base := 0, cap := FRAME_CAP }
  nGlobals := 0
  memMax := 0
  nData := 0

/-- The memory as an array of numbers. -/
def bytes (mem : Nat → Byte) : Nat → Nat := fun c => (mem c).toNat

section Operands

variable (v : Views)

/-- The operand stack of `s` ends with `xs`, the last one on top, and fits the capacity. -/
structure OnTop (s : Mach) (xs : List Slot) : Prop where
  enough : xs.length ≤ s.sp
  fits : s.sp ≤ v.stack.cap
  operands : ∀ k x, xs[k]? = some x → s.stack (v.stack.idx (s.sp - xs.length + k)) = x

/-- The machine `s'` is `s` with the `n` operands on top replaced by `ys`. -/
structure Replaced (n : Nat) (ys : List Slot) (s s' : Mach) : Prop where
  sp : s'.sp = s.sp - n + ys.length
  results : ∀ k y, ys[k]? = some y → s'.stack (v.stack.idx (s.sp - n + k)) = y
  cells : ∀ c, (∀ k < ys.length, c ≠ v.stack.idx (s.sp - n + k)) → s'.stack c = s.stack c
  others : s'.offStack = s.offStack

/-- From `s`, an instruction with `n` operands ended with the results or the trap `r`. -/
def Yields (n : Nat) (r : Except Status (List Slot)) (s : Mach) :
    EStateM.Result Status Mach Unit → Prop
  | .ok _ s' => ∃ ys, r = .ok ys ∧ Replaced v n ys s s'
  | .error e s' => r = .error e ∧ s'.stack = s.stack ∧ s'.offStack = s.offStack

/-- A store from `s` to `s'` that did not trap: the `n` bytes at `ea` are those of `x`, and nothing
else of the memory and the machine changed, the two operands aside. -/
structure Stored (ea n : Nat) (x : Slot) (s s' : Mach) : Prop where
  sp : s'.sp = s.sp - 2
  stack : s'.stack = s.stack
  mem : bytes s'.mem = LittleEndian.write (bytes s.mem) (v.memory + ea) n x.toNat
  others : { s'.offStack with mem := s.mem } = s.offStack

end Operands

end CuWasm
