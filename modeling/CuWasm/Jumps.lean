import CuWasm.Lower

/-!
# Where the jumps of a pass lead

A jump back to a loop is emitted with its target. Every other jump is emitted with the target 0, and
the pass keeps its position in an open block, to patch the target in when it is known. This module
names what the pass can still do with a jump, and a scan of the operators that says which jumps it
leaves without a target inside the function.
-/

namespace CuWasm

open Wasm

/-- `OP_BR` and `OP_BR_IF_NOT`. -/
def CuOp.IsJump (i : CuOp) : Prop := i.op = .br ∨ i.op = .brIfNot

instance (i : CuOp) : Decidable i.IsJump := inferInstanceAs (Decidable (_ ∨ _))

namespace Lower

variable (env : LowerEnv) (ops : List Operator) (init : LState)

/-- The pass over `ops` comes to the operator `o` in the state `t`. -/
def ComesTo (o : Operator) (t : LState) : Prop :=
  ∃ pre post, ops = pre ++ o :: post ∧ operators env pre init = .ok () t

/-- A `loop` of the source begins at `b`. -/
def LoopHeader (b : Nat) : Prop :=
  ∃ ty t, ComesTo env ops init (.loop ty) t ∧ t.code.length = b

/-- The jump at `q` leads over an else arm, and a further `else` of the same `if` takes its place in
the block. Nothing patches it any more. -/
def Forgotten (q : Nat) : Prop :=
  ∃ t c rest, ComesTo env ops init .else_ t ∧ t.ctrl = c :: rest ∧ c.kind = .if_ ∧
    c.elseBr = some q

end Lower

/-! ## The scan -/

/-- An open block, as the scan sees it: whether it had an `else`, and whether a jump waits for its
end. -/
structure Scope where
  kind : CtrlKind
  hasElse : Bool := false
  jumped : Bool := false
  deriving DecidableEq, Repr

/-- The scan between two operators: the open blocks, whether a jump leads to the end of the code
emitted so far, and whether an `if` had a second `else`. -/
structure Scan where
  scopes : List Scope
  atEnd : Bool := false
  repeated : Bool := false
  deriving DecidableEq, Repr

namespace Scan

/-- An instruction is emitted. -/
def emit (x : Scan) : Scan := { x with atEnd := false }

/-- A block opens. -/
def enter (x : Scan) (kind : CtrlKind) : Scan := { x with scopes := { kind := kind } :: x.scopes }

/-- A jump out of the block `depth` levels out. -/
def jump (x : Scan) (depth : Nat) : Scan where
  scopes := x.scopes.modify depth fun c => { c with jumped := c.jumped || c.kind != .loop }
  repeated := x.repeated

/-- A jump is patched with the end of the code. -/
def patch (x : Scan) : Scan := { x with atEnd := true }

/-- `else`. -/
def alternative (x : Scan) : Scan :=
  match x.scopes with
  | [] => x
  | c :: rest =>
    { scopes := { c with hasElse := true } :: rest, atEnd := true
      repeated := x.repeated || c.hasElse }

/-- `end`. -/
def leave (x : Scan) : Scan :=
  match x.scopes with
  | [] => x
  | c :: rest =>
    { x with
      scopes := rest
      atEnd := c.kind != .func && (x.atEnd || c.kind == .if_ || c.jumped) }

/-- One operator. -/
def step (x : Scan) : Operator → Scan
  | .nop => x
  | .reinterpret _ => x
  | .block _ => x.enter .block
  | .loop _ => x.enter .loop
  | .if_ _ => x.emit.enter .if_
  | .else_ => x.alternative
  | .end_ => x.leave
  | .br depth => x.jump depth
  | .brIf depth => (x.jump depth).patch
  | .brTable targets default => (targets.foldl jump x).jump default
  | _ => x.emit

/-- The scan of a whole function. -/
def function (ops : List Operator) : Scan := ops.foldl step { scopes := [{ kind := .func }] }

end Scan

/-- No `if` of the function has a second `else`, and no jump leads to the end of its code. -/
def Settled (ops : List Operator) : Prop :=
  (Scan.function ops).repeated = false ∧ (Scan.function ops).atEnd = false

instance (ops : List Operator) : Decidable (Settled ops) := inferInstanceAs (Decidable (_ ∧ _))

end CuWasm
