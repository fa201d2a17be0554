import CuWasm.CuOp
import CuWasm.Wasm.Syntax

/-!
# The lowering `lower_operators`

`lib.rs`: one pass over the operators of a body emits CuOp code. Structured control is flattened with
absolute targets that are patched when the end of the block is known, and the height of the operand
stack is tracked except behind an unconditional branch (`dead`).

The pass is a computation in an exception-and-state monad: `code` and `consts` are shared with the
other functions of the module, and what a failing pass has appended to them stays.
-/

namespace CuWasm

open Wasm

/-- `CtrlKind`. -/
inductive CtrlKind where
  | func | block | loop | if_
  deriving DecidableEq, Repr

/-- `Ctrl`: an open block. -/
structure Ctrl where
  kind : CtrlKind
  start : Nat
  brIfNot : Option Nat := none
  elseBr : Option Nat := none
  patches : List Nat := []
  hasElse : Bool := false
  base : Nat
  nParams : Nat
  nResults : Nat
  deadOnEntry : Bool
  deriving DecidableEq, Repr

/-- The arguments of `lower_operators` that do not change during the pass, and the scratch local. -/
structure LowerEnv where
  nParams : Nat
  nResults : Nat
  nLocals : Nat
  scratch : Option Nat
  funcTypes : List FuncType
  funcTypeidx : List Nat
  nImports : Nat
  hostFnIds : List Nat

/-- The mutable variables of `lower_operators`; the innermost control frame comes first. -/
structure LState where
  code : List CuOp
  consts : List Slot
  h : Nat
  dead : Bool
  ctrl : List Ctrl

/-- A computation of the lowering. -/
abbrev Lower := EStateM String LState

/-- `load_flags`. -/
def loadFlags (nbytes : Nat) (signed i64dest : Bool) : Nat :=
  nbytes ||| (if signed then 0x10 else 0) ||| (if i64dest then 0x20 else 0)

/-- `check_memarg`. -/
def checkMemarg (m : MemArg) : Except String Nat :=
  if m.memory ≠ 0 then .error "multi-memory not supported"
  else if m.offset > 2 ^ 32 - 1 then .error "memory64 offset"
  else .ok m.offset

/-- The arms for integer operators: opcode, `a` field, operands popped and pushed. -/
def NumOp.lower : NumOp → Opcode × Nat × Nat × Nat
  | .i32Eqz => (.un .i32Eqz, 0, 1, 1)
  | .i32Eq => (.bin .i32Eq, 0, 2, 1)
  | .i32Ne => (.bin .i32Ne, 0, 2, 1)
  | .i32LtS => (.bin .i32LtS, 0, 2, 1)
  | .i32LtU => (.bin .i32LtU, 0, 2, 1)
  | .i32LeS => (.bin .i32LeS, 0, 2, 1)
  | .i32LeU => (.bin .i32LeU, 0, 2, 1)
  | .i32GtS => (.bin .i32GtS, 0, 2, 1)
  | .i32GtU => (.bin .i32GtU, 0, 2, 1)
  | .i32GeS => (.bin .i32GeS, 0, 2, 1)
  | .i32GeU => (.bin .i32GeU, 0, 2, 1)
  | .i32Add => (.bin .i32Add, 0, 2, 1)
  | .i32Sub => (.bin .i32Sub, 0, 2, 1)
  | .i32Mul => (.bin .i32Mul, 0, 2, 1)
  | .i32And => (.bin .i32And, 0, 2, 1)
  | .i32Or => (.bin .i32Or, 0, 2, 1)
  | .i32Xor => (.bin .i32Xor, 0, 2, 1)
  | .i32DivS => (.bin .i32DivS, 0, 2, 1)
  | .i32DivU => (.bin .i32DivU, 0, 2, 1)
  | .i32RemS => (.bin .i32RemS, 0, 2, 1)
  | .i32RemU => (.bin .i32RemU, 0, 2, 1)
  | .i32Shl => (.bin .i32Shl, 0, 2, 1)
  | .i32ShrS => (.bin .i32ShrS, 0, 2, 1)
  | .i32ShrU => (.bin .i32ShrU, 0, 2, 1)
  | .i32WrapI64 => (.un .i32WrapI64, 0, 1, 1)
  | .i32Clz => (.clz, 32, 1, 1)
  | .i64Eqz => (.un .i64Eqz, 0, 1, 1)
  | .i64Eq => (.bin .i64Eq, 0, 2, 1)
  | .i64Ne => (.bin .i64Ne, 0, 2, 1)
  | .i64LtS => (.bin .i64LtS, 0, 2, 1)
  | .i64LtU => (.bin .i64LtU, 0, 2, 1)
  | .i64LeS => (.bin .i64LeS, 0, 2, 1)
  | .i64LeU => (.bin .i64LeU, 0, 2, 1)
  | .i64GtS => (.bin .i64GtS, 0, 2, 1)
  | .i64GtU => (.bin .i64GtU, 0, 2, 1)
  | .i64GeS => (.bin .i64GeS, 0, 2, 1)
  | .i64GeU => (.bin .i64GeU, 0, 2, 1)
  | .i64Add => (.bin .i64Add, 0, 2, 1)
  | .i64Sub => (.bin .i64Sub, 0, 2, 1)
  | .i64Mul => (.bin .i64Mul, 0, 2, 1)
  | .i64And => (.bin .i64And, 0, 2, 1)
  | .i64Or => (.bin .i64Or, 0, 2, 1)
  | .i64Xor => (.bin .i64Xor, 0, 2, 1)
  | .i64DivS => (.bin .i64DivS, 0, 2, 1)
  | .i64DivU => (.bin .i64DivU, 0, 2, 1)
  | .i64RemS => (.bin .i64RemS, 0, 2, 1)
  | .i64RemU => (.bin .i64RemU, 0, 2, 1)
  | .i64Shl => (.bin .i64Shl, 0, 2, 1)
  | .i64ShrS => (.bin .i64ShrS, 0, 2, 1)
  | .i64ShrU => (.bin .i64ShrU, 0, 2, 1)
  | .i64Extend32S => (.un .i64ExtendI32S, 0, 1, 1)
  | .i64ExtendI32S => (.un .i64ExtendI32S, 0, 1, 1)
  | .i64ExtendI32U => (.un .i64ExtendI32U, 0, 1, 1)
  | .i64Clz => (.clz, 64, 1, 1)
  | .i64MulWideS => (.i64MulWideS, 0, 2, 2)
  | .i64MulWideU => (.i64MulWideU, 0, 2, 2)
  | .i64Add128 => (.i64Add128, 0, 4, 2)
  | .i64Sub128 => (.i64Sub128, 0, 4, 2)

/-- The arms for loads: the flags in the `a` field. -/
def LoadOp.lower : LoadOp → Nat
  | .i32Load => loadFlags 4 false false
  | .i64Load => loadFlags 8 false true
  | .i32Load8S => loadFlags 1 true false
  | .i32Load8U => loadFlags 1 false false
  | .i32Load16S => loadFlags 2 true false
  | .i32Load16U => loadFlags 2 false false
  | .i64Load8S => loadFlags 1 true true
  | .i64Load8U => loadFlags 1 false true
  | .i64Load16S => loadFlags 2 true true
  | .i64Load16U => loadFlags 2 false true
  | .i64Load32S => loadFlags 4 true true
  | .i64Load32U => loadFlags 4 false true
  | .f32Load => loadFlags 4 false false
  | .f64Load => loadFlags 8 false true

/-- The arms for stores: the width in the `a` field. -/
def StoreOp.lower : StoreOp → Nat
  | .i32Store => 4
  | .i64Store => 8
  | .i32Store8 => 1
  | .i32Store16 => 2
  | .i64Store8 => 1
  | .i64Store16 => 2
  | .i64Store32 => 4
  | .f32Store => 4
  | .f64Store => 8

/-- The slot a constant operator puts into the pool. -/
def ConstOp.slot : ConstOp → Slot
  | .i32 x => slot32 x
  | .i64 x => x
  | .f32 x => slot32 x
  | .f64 x => x

/-- `block_arity`. -/
def blockArity (ty : BlockType) (funcTypes : List FuncType) : Except String (Nat × Nat) :=
  match ty with
  | .empty => .ok (0, 0)
  | .type t =>
    if t ≠ .i32 ∧ t ≠ .i64 then .error ("unsupported block valtype " ++ t.text) else .ok (0, 1)
  | .funcType idx =>
    match funcTypes[idx]? with
    | none => .error "block type index oob"
    | some ft => .ok (ft.1.length % 2 ^ 16, ft.2.length % 2 ^ 16)

/-- `func_arity`. -/
def funcArity (functionIndex : Nat) (funcTypes : List FuncType) (funcTypeidx : List Nat) :
    Except String (Nat × Nat) :=
  match funcTypeidx[functionIndex]? with
  | none => .error "call function index oob"
  | some t =>
    match funcTypes[t]? with
    | none => .error "call type index oob"
    | some ft => .ok (ft.1.length % 2 ^ 16, ft.2.length % 2 ^ 16)

/-- `label_arity`. -/
def labelArity (c : Ctrl) : Nat := if c.kind = .loop then c.nParams else c.nResults

/-- `patch_b`. -/
def patchB (code : List CuOp) (pc b : Nat) : List CuOp := code.modify pc fun i => { i with b := b }

namespace Lower

/-- Lift an error that changes nothing. -/
def ofExcept {α : Type} : Except String α → Lower α
  | .ok a => pure a
  | .error e => throw e

/-- `intern`. -/
def intern (x : Slot) : Lower Nat := do
  let s ← get
  match s.consts.findIdx? (· == x) with
  | some i => return i
  | none =>
    set { s with consts := s.consts ++ [x] }
    return s.consts.length

/-- `emit`. -/
def emit (op : Opcode) (a b : Nat) : Lower Nat := do
  let s ← get
  set { s with code := s.code ++ [CuOp.mk op a b] }
  return s.code.length

/-- `patch_b` on the code emitted so far. -/
def patch (pc b : Nat) : Lower Unit := modify fun s => { s with code := patchB s.code pc b }

/-- `consume`. -/
def consume (pops pushes : Nat) : Lower Unit := do
  let s ← get
  if s.dead then return
  if s.h < pops then throw "operand stack underflow"
  set { s with h := s.h - pops + pushes }

/-- `emit_unwind` for the label `c`. -/
def emitUnwind (env : LowerEnv) (c : Ctrl) : Lower Unit := do
  let s ← get
  let destH := c.base + labelArity c
  if s.h < destH then throw "branch stack underflow"
  if s.h > destH then
    let _ ← emit .unwind (labelArity c) (env.nParams + env.nLocals + destH)

/-- `push_ctrl`. -/
def pushCtrl (kind : CtrlKind) (np nr : Nat) (brIfNot : Option Nat := none) : Lower Unit := do
  let s ← get
  if ¬ s.dead ∧ s.h < np then throw "block params underflow"
  let base := if s.dead then 0 else s.h - np
  set { s with ctrl :=
    { kind := kind, start := s.code.length, brIfNot := brIfNot, base := base, nParams := np,
      nResults := nr, deadOnEntry := s.dead } :: s.ctrl }

/-- `emit_jump` to the label `idx` levels out. -/
def emitJump (idx : Nat) (c : Ctrl) : Lower Unit := do
  if c.kind = .loop then
    let _ ← emit .br 0 c.start
  else
    let pc ← emit .br 0 0
    modify fun s => { s with
      ctrl := s.ctrl.modify idx fun c => { c with patches := c.patches ++ [pc] } }

/-- `resolve_br`: the label `depth` levels out. -/
def resolveBr (depth : Nat) : Lower Ctrl := do
  match (← get).ctrl[depth]? with
  | none => throw ("br depth " ++ toString depth ++ " out of range")
  | some c => return c

/-- The common part of the branches: unwind the surplus operands and jump. -/
def branch (env : LowerEnv) (depth : Nat) : Lower Unit := do
  let c ← resolveBr depth
  if ¬ (← get).dead then emitUnwind env c
  emitJump depth c

/-- The arms that emit one instruction and adjust the height. -/
def plain (op : Opcode) (a b pops pushes : Nat) : Lower Unit := do
  let _ ← emit op a b
  consume pops pushes

/-- The loop over the targets of `br_table`: compare the scratch local with each index. -/
def brTableArms (env : LowerEnv) (scratch : Nat) : Nat → List Nat → Lower Unit
  | _, [] => pure ()
  | i, depth :: depths => do
    let idxc ← intern (BitVec.ofNat 64 (i % 2 ^ 32))
    plain .localGet scratch 0 0 1
    plain .i64Const 0 idxc 0 1
    plain (.bin .i32Eq) 0 0 2 1
    consume 1 0
    let skip ← emit .brIfNot 0 0
    branch env depth
    patch skip (← get).code.length
    brTableArms env scratch (i + 1) depths

/-- `Operator::If`. -/
def ifArm (env : LowerEnv) (ty : BlockType) : Lower Unit := do
  let (np, nr) ← ofExcept (blockArity ty env.funcTypes)
  consume 1 0
  let pc ← emit .brIfNot 0 0
  pushCtrl .if_ np nr (some pc)

/-- `Operator::Else`. -/
def elseArm : Lower Unit := do
  match (← get).ctrl with
  | [] => throw "else without if"
  | c :: rest =>
    if c.kind ≠ .if_ then throw "else not in if"
    let br ← emit .br 0 0
    modify fun s => { s with ctrl := { c with elseBr := some br, hasElse := true } :: rest }
    if let some ifPc := c.brIfNot then patch ifPc (← get).code.length
    modify fun s => { s with h := c.base + c.nParams, dead := false }

/-- The patches `Operator::End` makes once the end of the block is known. -/
def endPatches (c : Ctrl) (joinPc : Nat) : Lower Unit := do
  if c.kind = .if_ then
    if c.hasElse then
      if let some br := c.elseBr then patch br joinPc
    else if let some ifPc := c.brIfNot then patch ifPc joinPc
  c.patches.forM fun p => patch p joinPc

/-- `Operator::End`. -/
def endArm (env : LowerEnv) : Lower Unit := do
  match (← get).ctrl with
  | [] => throw "unmatched end"
  | c :: rest =>
    modify fun s => { s with ctrl := rest }
    let joinPc ← if c.kind = .func then emit .endFunc env.nResults 0
      else pure (← get).code.length
    endPatches c joinPc
    modify fun s => { s with h := c.base + c.nResults, dead := c.deadOnEntry }

/-- Set `dead` behind an unconditional transfer of control. -/
def markDead : Lower Unit := modify fun s => { s with dead := true }

/-- `Operator::BrTable`. -/
def brTableArm (env : LowerEnv) (targets : List Nat) (default : Nat) : Lower Unit := do
  match env.scratch with
  | none => throw "br_table without scratch local"
  | some scratch =>
    plain .localSet scratch 0 1 0
    brTableArms env scratch 0 targets
    branch env default
    markDead

/-- `Operator::Call`. -/
def callArm (env : LowerEnv) (functionIndex : Nat) : Lower Unit := do
  let (np, nr) ← ofExcept (funcArity functionIndex env.funcTypes env.funcTypeidx)
  if functionIndex < env.nImports then
    match env.hostFnIds[functionIndex]? with
    | none => throw "host fn_id oob"
    | some fnId => plain .callHost (np ||| (nr <<< 8) % 2 ^ 16) fnId np nr
  else plain .call 0 functionIndex np nr

/-- `Operator::CallIndirect`. -/
def callIndirectArm (env : LowerEnv) (typeIndex tableIndex : Nat) : Lower Unit := do
  if tableIndex ≠ 0 then throw "multi-table not supported"
  match env.funcTypes[typeIndex]? with
  | none => throw "call_indirect type oob"
  | some ft => plain .callIndirect 0 typeIndex (1 + ft.1.length) ft.2.length

/-- A bulk or size operator on memory `mem`. -/
def memArm (mem : Nat) (op : Opcode) (a pops pushes : Nat) : Lower Unit := do
  if mem ≠ 0 then throw "multi-memory not supported"
  plain op a 0 pops pushes

/-- The `match` of `lower_operators`. -/
def operator (env : LowerEnv) : Operator → Lower Unit
  | .nop => pure ()
  | .unreachable => do
    let _ ← emit .unreachable 0 0
    markDead
  | .const c => do
    let idx ← intern (ConstOp.slot c)
    plain .i64Const 0 idx 0 1
  | .drop => plain .drop 0 0 1 0
  | .select => plain .select 0 0 3 1
  | .typedSelect _ => plain .select 0 0 3 1
  | .num o =>
    let (op, a, pops, pushes) := NumOp.lower o
    plain op a 0 pops pushes
  | .globalGet i => plain .globalGet 0 i 0 1
  | .globalSet i => plain .globalSet 0 i 1 0
  | .localGet i => plain .localGet (i % 2 ^ 16) 0 0 1
  | .localSet i => plain .localSet (i % 2 ^ 16) 0 1 0
  | .localTee i => do
    let _ ← emit .localSet (i % 2 ^ 16) 0
    let _ ← emit .localGet (i % 2 ^ 16) 0
  | .block ty => do
    let (np, nr) ← ofExcept (blockArity ty env.funcTypes)
    pushCtrl .block np nr
  | .loop ty => do
    let (np, nr) ← ofExcept (blockArity ty env.funcTypes)
    pushCtrl .loop np nr
  | .if_ ty => ifArm env ty
  | .else_ => elseArm
  | .end_ => endArm env
  | .br depth => do
    branch env depth
    markDead
  | .brIf depth => do
    consume 1 0
    let skip ← emit .brIfNot 0 0
    branch env depth
    patch skip (← get).code.length
  | .brTable targets default => brTableArm env targets default
  | .return_ => do
    let _ ← emit .ret env.nResults 0
    markDead
  | .call fi => callArm env fi
  | .returnCall fi => do
    if fi < env.nImports then throw "tail call to host import not supported"
    let _ ← emit .returnCall 0 fi
    markDead
  | .callIndirect ti tab => callIndirectArm env ti tab
  | .load o ma => do
    let off ← ofExcept (checkMemarg ma)
    plain .load (LoadOp.lower o) off 1 1
  | .store o ma => do
    let off ← ofExcept (checkMemarg ma)
    plain .store (StoreOp.lower o) off 2 0
  | .memorySize mem => memArm mem .memorySize 0 0 1
  | .memoryGrow mem => memArm mem .memoryGrow 0 1 1
  | .memoryCopy dst src => do
    if dst ≠ 0 ∨ src ≠ 0 then throw "multi-memory not supported"
    plain .memoryCopy 0 0 3 0
  | .memoryFill mem => memArm mem .memoryFill 0 3 0
  | .memoryInit di mem => memArm mem .memoryInit (di % 2 ^ 16) 3 0
  | .dataDrop di => do let _ ← emit .dataDrop (di % 2 ^ 16) 0
  | .reinterpret _ => consume 1 1
  | other => throw ("unsupported wasm opcode: " ++ reprStr other)

/-- The loop over the operators. -/
def operators (env : LowerEnv) : List Operator → Lower Unit
  | [] => pure ()
  | o :: os => do
    operator env o
    operators env os

end Lower

/-- The number of locals with the scratch local that a `br_table` needs (`saturating_add`). -/
def scratchLocals (ops : List Operator) (nLocals : Nat) : Nat :=
  if ops.any Operator.isBrTable then min (nLocals + 1) (2 ^ 16 - 1) else nLocals

/-- The index `n_params + n_locals - 1` of the scratch local, in 16-bit arithmetic. -/
def scratchIndex (ops : List Operator) (nParams nLocals : Nat) : Option Nat :=
  if ops.any Operator.isBrTable then
    some (((nParams + nLocals) % 2 ^ 16 + (2 ^ 16 - 1)) % 2 ^ 16)
  else none

/-- The control frame of the function itself. -/
def funcCtrl (codeOff nResults : Nat) : Ctrl where
  kind := .func
  start := codeOff
  base := 0
  nParams := 0
  nResults := nResults
  deadOnEntry := false

/-- The arguments of `lower_operators` that describe the module. -/
structure LowerModule where
  funcTypes : List FuncType
  funcTypeidx : List Nat
  nImports : Nat
  hostFnIds : List Nat

/-- The environment of the pass over `ops`. -/
def lowerEnv (lm : LowerModule) (ops : List Operator) (nParams nResults nLocals : Nat) : LowerEnv :=
  let nLocals' := scratchLocals ops nLocals
  { nParams := nParams, nResults := nResults, nLocals := nLocals'
    scratch := scratchIndex ops nParams nLocals'
    funcTypes := lm.funcTypes, funcTypeidx := lm.funcTypeidx
    nImports := lm.nImports, hostFnIds := lm.hostFnIds }

/-- `lower_operators`: the function's metadata or the error, with the code and the constants as the
pass leaves them. -/
def lowerOperators (lm : LowerModule) (ops : List Operator) (nParams nResults nLocals : Nat)
    (code : List CuOp) (consts : List Slot) : Except String FuncMeta × List CuOp × List Slot :=
  let env := lowerEnv lm ops nParams nResults nLocals
  let init : LState :=
    { code := code, consts := consts, h := 0, dead := false
      ctrl := [funcCtrl code.length nResults] }
  match Lower.operators env ops init with
  | .error e s => (.error e, s.code, s.consts)
  | .ok _ s =>
    if s.ctrl ≠ [] then (.error "unclosed control blocks", s.code, s.consts)
    else
      (.ok { codeOff := code.length, codeLen := s.code.length - code.length, nParams := nParams,
             nResults := nResults, nLocals := env.nLocals },
        s.code, s.consts)

end CuWasm
