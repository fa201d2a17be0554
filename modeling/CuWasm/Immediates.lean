import CuWasm.Bodies
import CuWasm.Lib.Exit
import CuWasm.Wasm.Module

/-!
# Immediates

`lower_operators` packs the immediates of an operator into the 16-bit field `a` and the 32-bit field
`b` of the instructions it emits. This module reads them back from the fields, and says which
operators have immediates that fit.
-/

namespace CuWasm

open Wasm Exit

/-- An immediate: an index, the offset of a memory access, the signature of a host import, or a
constant. -/
inductive Immediate where
  | localIndex (i : Nat)
  | globalIndex (i : Nat)
  | funcIndex (i : Nat)
  | typeIndex (i : Nat)
  | dataIndex (i : Nat)
  | offset (n : Nat)
  | host (params results : Nat)
  | value (x : Slot)
  deriving DecidableEq, Repr

/-- What the fields of an instruction denote, `consts` being the constant pool. -/
def CuOp.immediate (consts : List Slot) (i : CuOp) : Option Immediate :=
  match i.op with
  | .localGet | .localSet => some (.localIndex i.a)
  | .globalGet | .globalSet => some (.globalIndex i.b)
  | .call | .returnCall => some (.funcIndex i.b)
  | .callIndirect => some (.typeIndex i.b)
  | .load | .store => some (.offset i.b)
  | .memoryInit | .dataDrop => some (.dataIndex i.a)
  | .callHost => some (.host (i.a &&& 0xff) (i.a >>> 8 &&& 0xff))
  | .i64Const => consts[i.b]?.map .value
  | _ => none

/-- The immediates of a `br_table` from its target `i` on: each comparison reads the local `scratch`
and the index of the target. -/
def tableImmediates (scratch : Nat) : Nat → List Nat → List Immediate
  | _, [] => []
  | i, _ :: depths =>
    .localIndex scratch :: .value (slot32 (BitVec.ofNat 32 i)) :: tableImmediates scratch (i + 1) depths

/-- The immediates of an operator in a module with `nImports` imports, as often as there are
instructions that carry them. A `br_table` keeps its operand in the local `scratch`. -/
def Wasm.Operator.immediates (C : Ctx) (nImports scratch : Nat) : Operator → List Immediate
  | .const c => [.value (ConstOp.slot c)]
  | .globalGet i | .globalSet i => [.globalIndex i]
  | .localGet i | .localSet i => [.localIndex i]
  | .localTee i => [.localIndex i, .localIndex i]
  | .brTable targets _ => .localIndex scratch :: tableImmediates scratch 0 targets
  | .call fi =>
    if fi < nImports then (C.funcType fi).toList.map fun ft => .host ft.1.length ft.2.length
    else [.funcIndex fi]
  | .returnCall fi => [.funcIndex fi]
  | .callIndirect ti _ => [.typeIndex ti]
  | .load _ ma | .store _ ma => [.offset ma.offset]
  | .memoryInit di _ | .dataDrop di => [.dataIndex di]
  | _ => []

/-- `p` is the pass over the code entry `c` of the module. -/
structure Wasm.Module.Passes (M : Module) (c : Func) (p : Translate.Pass) : Prop where
  entry : ∃ k, M.code[k]? = some c ∧ M.codeType k = some p.type ∧ M.before k = .ok p.state
  nLocals : p.nLocals = (c.locals.map (·.1)).sum
  ops : p.ops = c.body.function

namespace Translate.Pass

variable (p : Pass)

/-- The instructions of `m` that the pass emits for the operator `o` from the state `t` on, also when
it fails. -/
def emitted (m : HostModule) (o : Operator) (t : LState) : List CuOp :=
  (m.code.take (final (Lower.operator p.env o t)).code.length).drop t.code.length

/-- The instructions that are emitted for `o` denote its immediates. The local that a `br_table` uses
is none of the parameters and declared locals. -/
def Denotes (C : Ctx) (nImports : Nat) (m : HostModule) (o : Operator) (t : LState) : Prop :=
  ∃ scratch, p.type.1.length + p.nLocals ≤ scratch ∧
    (p.emitted m o t).filterMap (CuOp.immediate m.consts) <+: o.immediates C nImports scratch ∧
    ((∃ t', Lower.operator p.env o t = .ok () t') →
      (p.emitted m o t).filterMap (CuOp.immediate m.consts) = o.immediates C nImports scratch)

/-- The pass succeeds. -/
def Succeeds : Prop := ∃ f, p.Yields f

/-- The indices that go into the field `a` fit, and a `br_table` finds a free local: the sum of
parameters and locals neither wraps nor saturates with one more. -/
def Fits : Operator → Prop
  | .localGet i | .localSet i | .localTee i => i < 2 ^ 16
  | .memoryInit di mem => mem = 0 → di < 2 ^ 16
  | .dataDrop di => di < 2 ^ 16
  | .brTable _ _ => p.nLocals < 2 ^ 16 - 1 ∧ p.type.1.length + p.nLocals < 2 ^ 16
  | _ => True

end Translate.Pass

/-- The operator reads or writes the local `i`. -/
def Wasm.Operator.Accesses (o : Operator) (i : Nat) : Prop :=
  o = .localGet i ∨ o = .localSet i ∨ o = .localTee i

end CuWasm
