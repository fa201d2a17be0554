import CuWasm.Wasm.Typing

/-!
# Operand stack heights

The height of the operand stack in front of every instruction of a body, computed over the syntax:
`some n` for `n` operands, `none` behind an unconditional branch, where the height is arbitrary. In a
valid body the heights are the lengths of the stack types, counted from the bottom of the function's
operand stack.

The else arm of an `if` that stands behind an unconditional branch is measured from the arm's own
bottom. `Contained` says that the branches in such an arm fit this measure.
-/

namespace CuWasm.Wasm

/-- The type of a function. -/
def Ctx.funcType (C : Ctx) (fi : Nat) : Option FuncType := C.funcs[fi]?.bind fun ti => C.types[ti]?

/-- The numbers of operands and results; a branch counts only its condition. -/
def Operator.arity (C : Ctx) : Operator → Nat × Nat
  | .const _ | .globalGet _ | .localGet _ | .memorySize _ => (0, 1)
  | .drop | .globalSet _ | .localSet _ | .brIf _ => (1, 0)
  | .localTee _ | .load _ _ | .memoryGrow _ | .reinterpret _ => (1, 1)
  | .store _ _ => (2, 0)
  | .select | .typedSelect _ => (3, 1)
  | .memoryCopy _ _ | .memoryFill _ | .memoryInit _ _ => (3, 0)
  | .num o => (o.type.1.1, o.type.2.1)
  | .call fi =>
    match C.funcType fi with
    | some ft => (ft.1.length, ft.2.length)
    | none => (0, 0)
  | .callIndirect ti _ =>
    match C.types[ti]? with
    | some ft => (1 + ft.1.length, ft.2.length)
    | none => (0, 0)
  | _ => (0, 0)

/-- Operators behind which control does not continue. -/
def Operator.transfers : Operator → Bool
  | .unreachable | .br _ | .brTable _ _ | .return_ | .returnCall _ => true
  | _ => false

/-- The labels an operator may branch to. -/
def Operator.targets : Operator → List Nat
  | .br l | .brIf l => [l]
  | .brTable ls l => ls ++ [l]
  | _ => []

/-- The number of operands a branch takes before it looks at its label. -/
def Operator.condition : Operator → Nat
  | .brIf _ | .brTable _ _ => 1
  | _ => 0

/-- The height behind an operator. -/
def Operator.height (C : Ctx) (o : Operator) (h : Option Nat) : Option Nat :=
  if o.transfers then none else h.map fun n => n - (o.arity C).1 + (o.arity C).2

/-- The numbers of parameters and results of a block. -/
def BlockType.arity (types : List FuncType) (bt : BlockType) : Nat × Nat :=
  match bt.expand types with
  | some ft => (ft.1.length, ft.2.length)
  | none => (0, 0)

/-- The height below the operands of a block with `np` parameters. -/
def below (np : Nat) : Option Nat → Nat
  | some n => n - np
  | none => 0

/-- The height behind a block. -/
def behind (np nr : Nat) (h : Option Nat) : Option Nat := h.map fun n => n - np + nr

/-- Every branch in the else arm of an `if` behind an unconditional branch (`ghost`) finds at least
as many operands, counted from the bottom of that arm, as its label has in front of the instruction
it leads to. `D` holds these numbers for the enclosing labels, innermost first. -/
def Body.Contained (C : Ctx) : List Nat → Bool → Option Nat → Body → Prop
  | _, _, _, .nil => True
  | D, ghost, h, .op o rest =>
    (ghost = true → ∀ n, h = some n → ∀ l ∈ o.targets, ∀ d, D[l]? = some d → d + o.condition ≤ n) ∧
      rest.Contained C D ghost (o.height C h)
  | D, ghost, h, .block bt b rest =>
    let a := bt.arity C.types
    b.Contained C ((below a.1 h + a.2) :: D) ghost h ∧ rest.Contained C D ghost (behind a.1 a.2 h)
  | D, ghost, h, .loop bt b rest =>
    let a := bt.arity C.types
    b.Contained C ((below a.1 h + a.1) :: D) ghost h ∧ rest.Contained C D ghost (behind a.1 a.2 h)
  | D, ghost, h, .ifThen bt b rest =>
    let a := bt.arity C.types
    let h := h.map (· - 1)
    b.Contained C ((below a.1 h + a.2) :: D) ghost h ∧ rest.Contained C D ghost (behind a.1 a.2 h)
  | D, ghost, h, .ifElse bt b els rest =>
    let a := bt.arity C.types
    let h := h.map (· - 1)
    b.Contained C ((below a.1 h + a.2) :: D) ghost h ∧
      els.Contained C ((below a.1 h + a.2) :: D) (ghost || h.isNone) (some (below a.1 h + a.1)) ∧
      rest.Contained C D ghost (behind a.1 a.2 h)

/-- A `br_table` that looks at its index: with a single target there is nothing to decide. -/
def Operator.compares : Operator → Bool
  | .brTable ls _ => !ls.isEmpty
  | _ => false

/-- The greatest height in a body. In front of a `br_table` that compares its index `extra` more
operands are counted. -/
def Body.deepest (C : Ctx) (extra : Nat) : Option Nat → Body → Nat
  | h, .nil => h.getD 0
  | h, .op o rest =>
    max (h.elim 0 (· + if o.compares then extra else 0)) (rest.deepest C extra (o.height C h))
  | h, .block bt b rest =>
    let a := bt.arity C.types
    max (b.deepest C extra h) (rest.deepest C extra (behind a.1 a.2 h))
  | h, .loop bt b rest =>
    let a := bt.arity C.types
    max (b.deepest C extra h) (rest.deepest C extra (behind a.1 a.2 h))
  | h, .ifThen bt b rest =>
    let a := bt.arity C.types
    let h0 := h.map (· - 1)
    max (h.getD 0) (max (b.deepest C extra h0) (rest.deepest C extra (behind a.1 a.2 h0)))
  | h, .ifElse bt b els rest =>
    let a := bt.arity C.types
    let h0 := h.map (· - 1)
    max (h.getD 0)
      (max (max (b.deepest C extra h0) (els.deepest C extra h0))
        (rest.deepest C extra (behind a.1 a.2 h0)))

/-- The operators with a case of their own in the lowering. -/
def Operator.supported : Operator → Bool
  | .refFunc _ | .refNull | .other _ => false
  | _ => true

/-- A block type with an integer or a function-type signature. -/
def BlockType.supported : BlockType → Bool
  | .empty | .funcType _ | .type .i32 | .type .i64 => true
  | .type _ => false

/-- A body of operators with a case of their own whose block types are supported, without a tail
call to one of the first `nImports` functions. -/
def Body.Supported (nImports : Nat) : Body → Prop
  | .nil => True
  | .op o rest =>
    o.supported = true ∧ (∀ fi, o = .returnCall fi → nImports ≤ fi) ∧ rest.Supported nImports
  | .block bt b rest | .loop bt b rest | .ifThen bt b rest =>
    bt.supported = true ∧ b.Supported nImports ∧ rest.Supported nImports
  | .ifElse bt b els rest =>
    bt.supported = true ∧ b.Supported nImports ∧ els.Supported nImports ∧ rest.Supported nImports

end CuWasm.Wasm
