import CuWasm.CheckedLower

/-!
# Where the lowering overflows

The condition under which no arithmetic operation of `lower_operators` overflows, operator by
operator, on the state before the operator: most operators take from the operand stack at least what
they push, and only the others can make the height too large.
-/

namespace CuWasm.Checked

open Wasm

/-- `x` is the value of an `i32`. -/
def FitsI32 (x : Int) : Prop := -2 ^ 31 ≤ x ∧ x < 2 ^ 31

/-- The height of the operand stack behind a jump to the label `c`. -/
def labelHeight (c : Ctrl) : Int := c.base + labelArity c

/-- What the arithmetic of the pass depends on. -/
structure Heights where
  h : Int
  dead : Bool
  labels : List Int

def LState.heights (s : LState) : Heights := ⟨s.h, s.dead, s.ctrl.map labelHeight⟩

namespace Heights

/-- `pops` operands are replaced with `pushes`. -/
def ConsumeFits (v : Heights) (pops pushes : Int) : Prop :=
  v.dead = true ∨ v.h < pops ∨ FitsI32 (v.h - pops) ∧ FitsI32 (v.h - pops + pushes)

/-- A jump to the label `depth` levels out. -/
def LabelFits (v : Heights) (depth : Nat) : Prop :=
  v.dead = true ∨ ∀ x ∈ v.labels[depth]?, x < 2 ^ 31

/-- There is a label `depth` levels out, and the operands that it takes. -/
def Jumps (v : Heights) (depth : Nat) : Prop :=
  ∃ x, v.labels[depth]? = some x ∧ (v.dead = true ∨ x ≤ v.h)

/-- There is an operand on the stack. -/
def Pops (v : Heights) : Prop := v.dead = true ∨ 1 ≤ v.h

/-- One operand less. -/
def pop (v : Heights) : Heights := if v.dead then v else { v with h := v.h - 1 }

/-- The jumps of a `br_table`; each but the default one needs two operands more. -/
def TargetsFit (v : Heights) (default : Nat) : List Nat → Prop
  | [] => v.LabelFits default
  | depth :: depths =>
    (v.dead = true ∨ v.h + 2 < 2 ^ 31) ∧ v.LabelFits depth ∧
      (v.Jumps depth → TargetsFit v default depths)

end Heights

/-- The operators that can make the stack higher, and the jumps. -/
def OperatorFits (env : LowerEnv) (s : LState) : Operator → Prop
  | .const _ | .globalGet _ | .localGet _ => s.heights.ConsumeFits 0 1
  | .memorySize mem => mem = 0 → s.heights.ConsumeFits 0 1
  | .else_ => ∀ c ∈ s.ctrl.head?, c.kind = .if_ → c.base + c.nParams < 2 ^ 31
  | .end_ => ∀ c ∈ s.ctrl.head?, c.base + c.nResults < 2 ^ 31
  | .br depth => s.heights.LabelFits depth
  | .brIf depth => s.heights.Pops → s.heights.LabelFits depth
  | .brTable targets default => env.scratch ≠ none → s.heights.Pops →
      s.heights.pop.TargetsFit default targets
  | .call fi => ∀ np nr, funcArity fi env.funcTypes env.funcTypeidx = .ok (np, nr) →
      s.heights.ConsumeFits np nr
  | .callIndirect ti tab => tab = 0 → ∀ ft ∈ env.funcTypes[ti]?,
      1 + wrapI32 ft.1.length < 2 ^ 31 ∧
        s.heights.ConsumeFits (1 + wrapI32 ft.1.length) (wrapI32 ft.2.length)
  | _ => True

/-- The operators `ops` from the state `s` on, as far as the pass gets. -/
def OperatorsFit (env : LowerEnv) : List Operator → LState → Prop
  | [], _ => True
  | o :: os, s =>
    OperatorFits env s o ∧ ∀ t, Lower.operator .release env o s = .ok () t → OperatorsFit env os t

/-- A whole body: the index of the scratch local is one, the heights fit, and the code does not grow
over the end of the positions. -/
structure BodyFits (env : LowerEnv) (ops : List Operator) (code : List CuOp) (consts : List Slot) :
    Prop where
  scratch : ops.any Operator.isBrTable = true → env.nParams + env.nLocals < 2 ^ 16
  heights : OperatorsFit env ops (initState code consts env.nResults)
  codeLen : ∀ t, Lower.operators .release env ops (initState code consts env.nResults) = .ok () t →
    t.ctrl = [] → code.length % 2 ^ 32 ≤ t.code.length % 2 ^ 32

end CuWasm.Checked
