import CuWasm.Frames
import CuWasm.OperandTypes
import CuWasm.Wasm.Numeric

/-!
# Canonical slots

Every value lives in a 64-bit slot. A slot is canonical for a type of 32 bits if its upper half is
zero. The operators read only the part they need, but `run_instance` hands whole slots to its caller,
and a run keeps them canonical: its locals, its operands, its globals and its results.

`CanonicalState` states this for one machine, with the types that validation gives to the operands at
the program counters of the running function and of its suspended callers. `Continues` is one step of
a run without host calls, where a driver may re-enter `run_instance` after an exhausted quota.
-/

namespace CuWasm

open Wasm

/-- The slot can hold a value of type `t`: the upper half is zero if `t` has 32 bits. -/
def Canonical (t : ValType) (x : Slot) : Prop := x.toNat < 2 ^ t.width

instance (t : ValType) (x : Slot) : Decidable (Canonical t x) :=
  inferInstanceAs (Decidable (x.toNat < 2 ^ t.width))

/-- The initialisers of the globals are valid: each is a sequence whose result has the type of the
global. -/
def Wasm.Module.InitsValid (M : Module) : Prop :=
  ∀ g ∈ M.globals, ∃ b : Body, g.1.initExpr = b.function.map .ok ∧
    b.Valid (M.ctx ([], [g.1.contentType]) ⟨[], b⟩)

section States

variable (M : Module) (m : HostModule) (v : Views) (s : Mach)

/-- The stack slots from `base` on hold values of the types `ts`, bottom first. -/
def CanonicalFrom (base : Nat) (ts : List ValType) : Prop :=
  ∀ (k : Nat) (t : ValType), ts[k]? = some t → Canonical t (s.stack (v.stack.idx (base + k)))

/-- The globals hold values of their types. -/
def CanonicalGlobals : Prop :=
  ∀ (k : Nat) (g : GlobalEntry × Bool), M.globals[k]? = some g →
    Canonical g.1.contentType (s.globals (v.globals + k))

/-- An activation of the function `j` with frame base `fp` that goes on at `pc`, where the `pending`
operands on top are still to come and the others end below `top`. -/
structure CanonicalFrame (j fp pc pending top : Nat) : Prop where
  locals : ∀ g ft c i t, m.funcs[j]? = some g → M.codeType j = some ft → M.code[j]? = some c →
    i < g.locals → (M.ctx ft c).locals[i]? = some t → Canonical t (s.stack (v.stack.idx (fp + i)))
  operands : ∀ g ts, m.funcs[j]? = some g → (pc, ts) ∈ M.operandTypes j →
    top = fp + g.locals + (ts.drop pending).length ∧
      CanonicalFrom v s (fp + g.locals) (ts.drop pending).reverse

/-- The suspended callers `js`, innermost first, of an activation with frame base `fp`. -/
def CanonicalCallers : List Nat → Nat → Prop
  | [], _ => True
  | j :: js, fp =>
    let fr := s.frames (v.frames.idx (js.length + 1))
    (∃ g, m.funcs[j]? = some g ∧ g.codeOff < fr.retPc ∧ fr.retPc < g.codeOff + g.codeLen) ∧
      CanonicalFrame M m v s j fr.fp fr.retPc fr.nResults fp ∧ CanonicalCallers js fr.fp

/-- All values of the machine are canonical: those of the function `j` it is about to execute an
instruction of, those of the suspended callers, and the globals. -/
structure CanonicalState : Prop where
  frames : ∃ j js, s.csp = js.length + 1 ∧
    (∃ g, m.funcs[j]? = some g ∧ g.codeOff ≤ s.pc ∧ s.pc < g.codeOff + g.codeLen) ∧
    CanonicalFrame M m v s j s.fp s.pc 0 s.sp ∧ CanonicalCallers M m v s js s.fp
  globals : CanonicalGlobals M v s

/-- The machine starts in the function `j`: with canonical arguments, with zeros in the other locals,
and with canonical globals. -/
structure CanonicalStart (j : Nat) : Prop where
  entry : ∃ e, m.funcs[j]? = some e ∧ Entry v e s ∧
    ∀ i, e.nParams ≤ i → i < e.locals → s.stack (v.stack.idx i) = 0
  args : ∀ ft, M.codeType j = some ft → CanonicalFrom v s 0 ft.1
  globals : CanonicalGlobals M v s
  memSize : s.memSize < 2 ^ 32

/-- One instruction, or a new call of `run_instance` that finds the state the last one left when its
quota was exhausted. -/
inductive Continues : Mach → Mach → Prop where
  | step {s s' : Mach} (h : Run.step v m.dev s = .ok () s') : Continues s s'
  | reenter {s : Mach} {memSize : Nat} (mb : HostMailbox) (h : memSize < 2 ^ 32) :
      Continues s (Mach.load (s.save .running) memSize mb s.arrays)

end States

end CuWasm
