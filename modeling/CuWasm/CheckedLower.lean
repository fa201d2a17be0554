import CuWasm.Lower

/-!
# The lowering with machine integers and panics

`lower_operators` once more, with what `CuWasm.Lower` leaves out: heights are `i32`, code positions are
`u32`, and an index or an arithmetic operation can panic. Cargo's `dev` profile checks arithmetic and
debug assertions; its `release` profile wraps around and skips the assertions.
-/

namespace CuWasm

open Wasm

/-- The two profiles of cargo. -/
inductive Profile where
  | release | dev
  deriving DecidableEq, Repr

/-- What a panic is about. -/
inductive Panic where
  | overflow | index | unwrap | assert
  deriving DecidableEq, Repr

/-- Why a computation has no result: it returns `Err`, or it panics. -/
inductive Stop where
  | err (e : String)
  | panic (p : Panic)
  deriving DecidableEq, Repr

namespace Checked

/-! ## Machine arithmetic -/

/-- `x` in an `i32`. -/
def wrapI32 (x : Int) : Int := x.bmod (2 ^ 32)

/-- `x` in a `u32`. -/
def wrapU32 (x : Int) : Int := x % 2 ^ 32

/-- `x` in a `u16`. -/
def wrapU16 (x : Int) : Int := x % 2 ^ 16

/-- The result `x` of an arithmetic operation on a type whose values `wrap` keeps. -/
def arith (p : Profile) (wrap : Int → Int) (x : Int) : Except Panic Int :=
  match p with
  | .release => .ok (wrap x)
  | .dev => if wrap x = x then .ok x else .error .overflow

/-- `x << n` on `u64`. -/
def shl (p : Profile) (x n : Nat) : Except Panic Nat :=
  match p with
  | .release => .ok ((x <<< (n % 64)) % 2 ^ 64)
  | .dev => if n < 64 then .ok ((x <<< n) % 2 ^ 64) else .error .overflow

/-! ## The pass -/

/-- `Ctrl`, with an `i32` for the height `base`. -/
structure Ctrl where
  kind : CtrlKind
  start : Nat
  brIfNot : Option Nat := none
  elseBr : Option Nat := none
  patches : List Nat := []
  hasElse : Bool := false
  base : Int
  nParams : Nat
  nResults : Nat
  deadOnEntry : Bool
  deriving DecidableEq, Repr

/-- The mutable variables of `lower_operators`; the innermost control frame comes first. -/
structure LState where
  code : List CuOp
  consts : List Slot
  h : Int
  dead : Bool
  ctrl : List Ctrl

/-- A computation of the lowering. -/
abbrev Lower := EStateM Stop LState

/-- `label_arity`. -/
def labelArity (c : Ctrl) : Nat := if c.kind = .loop then c.nParams else c.nResults

namespace Lower

/-- An error that changes nothing. -/
def ofExcept {α : Type} : Except String α → Lower α
  | .ok a => pure a
  | .error e => throw (.err e)

/-- A result that may be a panic. -/
def ofPanic {α : Type} : Except Panic α → Lower α
  | .ok a => pure a
  | .error p => throw (.panic p)

/-- `intern`. -/
def intern (x : Slot) : Lower Nat := do
  let s ← get
  match s.consts.findIdx? (· == x) with
  | some i => return i % 2 ^ 32
  | none =>
    set { s with consts := s.consts ++ [x] }
    return s.consts.length % 2 ^ 32

/-- `code.len() as u32`. -/
def here : Lower Nat := do return (← get).code.length % 2 ^ 32

/-- `emit`. -/
def emit (op : Opcode) (a b : Nat) : Lower Nat := do
  let s ← get
  set { s with code := s.code ++ [CuOp.mk op a b] }
  return s.code.length % 2 ^ 32

/-- `patch_b` on the code emitted so far. -/
def patch (pc b : Nat) : Lower Unit := do
  let s ← get
  if pc < s.code.length then set { s with code := patchB s.code pc b }
  else throw (.panic .index)

section

variable (p : Profile)

/-- `consume`. -/
def consume (pops pushes : Int) : Lower Unit := do
  let s ← get
  if s.dead then return
  if s.h < pops then throw (.err "operand stack underflow")
  let h ← ofPanic (arith p wrapI32 (s.h - pops))
  let h ← ofPanic (arith p wrapI32 (h + pushes))
  set { s with h := h }

/-- `emit_unwind` for the label `c`. -/
def emitUnwind (env : LowerEnv) (c : Ctrl) : Lower Unit := do
  let s ← get
  let destH ← ofPanic (arith p wrapI32 (c.base + labelArity c))
  if s.h < destH then throw (.err "branch stack underflow")
  if s.h > destH then
    let rel ← ofPanic (arith p wrapU32 (env.nParams + env.nLocals))
    let rel ← ofPanic (arith p wrapU32 (rel + wrapU32 destH))
    let _ ← emit .unwind (labelArity c) rel.toNat

/-- `push_ctrl`. -/
def pushCtrl (kind : CtrlKind) (np nr : Nat) (brIfNot : Option Nat := none) : Lower Unit := do
  let s ← get
  if ¬ s.dead ∧ s.h < np then throw (.err "block params underflow")
  let start ← here
  let base ← if s.dead then pure 0 else ofPanic (arith p wrapI32 (s.h - np))
  set { s with ctrl :=
    { kind := kind, start := start, brIfNot := brIfNot, base := base, nParams := np,
      nResults := nr, deadOnEntry := s.dead } :: s.ctrl }

/-- `emit_jump` to the label `idx` levels out. -/
def emitJump (idx : Nat) (c : Ctrl) : Lower Unit := do
  if c.kind = .loop then
    let _ ← emit .br 0 c.start
  else
    let pc ← emit .br 0 0
    modify fun s => { s with
      ctrl := s.ctrl.modify idx fun c => { c with patches := c.patches ++ [pc] } }

/-- `resolve_br`: the label `depth` levels out. -/
def resolveBr (depth : Nat) : Lower Ctrl := do
  match (← get).ctrl[depth]? with
  | none => throw (.err ("br depth " ++ toString depth ++ " out of range"))
  | some c => return c

/-- The common part of the branches: unwind the surplus operands and jump. -/
def branch (env : LowerEnv) (depth : Nat) : Lower Unit := do
  let c ← resolveBr depth
  if ¬ (← get).dead then emitUnwind p env c
  emitJump depth c

/-- The arms that emit one instruction and adjust the height. -/
def plain (op : Opcode) (a b : Nat) (pops pushes : Int) : Lower Unit := do
  let _ ← emit op a b
  consume p pops pushes

/-- A jump that is skipped when the operand on top is zero. -/
def skippedBranch (env : LowerEnv) (depth : Nat) : Lower Unit := do
  let skip ← emit .brIfNot 0 0
  branch p env depth
  patch skip (← here)

/-- Compare the scratch local with the index `i` and take the result off the stack. -/
def testIndex (scratch i : Nat) : Lower Unit := do
  let idxc ← intern (BitVec.ofNat 64 (i % 2 ^ 32))
  plain p .localGet scratch 0 0 1
  plain p .i64Const 0 idxc 0 1
  plain p (.bin .i32Eq) 0 0 2 1
  consume p 1 0

/-- The loop over the targets of `br_table`. -/
def brTableArms (env : LowerEnv) (scratch : Nat) : Nat → List Nat → Lower Unit
  | _, [] => pure ()
  | i, depth :: depths => do
    testIndex p scratch i
    skippedBranch p env depth
    brTableArms env scratch (i + 1) depths

/-- `Operator::If`. -/
def ifArm (env : LowerEnv) (ty : BlockType) : Lower Unit := do
  let (np, nr) ← ofExcept (blockArity ty env.funcTypes)
  consume p 1 0
  let pc ← emit .brIfNot 0 0
  pushCtrl p .if_ np nr (some pc)

/-- `Operator::Block` and `Operator::Loop`. -/
def blockArm (env : LowerEnv) (kind : CtrlKind) (ty : BlockType) : Lower Unit := do
  let (np, nr) ← ofExcept (blockArity ty env.funcTypes)
  pushCtrl p kind np nr

/-- Patch `pc`, if there is one. -/
def patchSome (pc : Option Nat) (b : Nat) : Lower Unit := do
  if let some pc := pc then patch pc b

/-- `Operator::Else`. -/
def elseArm : Lower Unit := do
  match (← get).ctrl with
  | [] => throw (.err "else without if")
  | c :: rest =>
    if c.kind ≠ .if_ then throw (.err "else not in if")
    let br ← emit .br 0 0
    modify fun s => { s with ctrl := { c with elseBr := some br, hasElse := true } :: rest }
    patchSome c.brIfNot (← here)
    let h ← ofPanic (arith p wrapI32 (c.base + c.nParams))
    modify fun s => { s with h := h, dead := false }

/-- The patches `Operator::End` makes once the end of the block is known. -/
def endPatches (c : Ctrl) (joinPc : Nat) : Lower Unit := do
  if c.kind = .if_ then
    patchSome (if c.hasElse then c.elseBr else c.brIfNot) joinPc
  c.patches.forM fun pc => patch pc joinPc

/-- `Operator::End`. -/
def endArm (env : LowerEnv) : Lower Unit := do
  match (← get).ctrl with
  | [] => throw (.err "unmatched end")
  | c :: rest =>
    modify fun s => { s with ctrl := rest }
    let joinPc ← if c.kind = .func then emit .endFunc env.nResults 0 else here
    endPatches c joinPc
    let h ← ofPanic (arith p wrapI32 (c.base + c.nResults))
    modify fun s => { s with h := h, dead := c.deadOnEntry }

/-- Set `dead` behind an unconditional transfer of control. -/
def markDead : Lower Unit := modify fun s => { s with dead := true }

/-- Emit an instruction behind which the code is dead. -/
def emitDead (op : Opcode) (a b : Nat) : Lower Unit := do
  let _ ← emit op a b
  markDead

/-- `Operator::Br`. -/
def brArm (env : LowerEnv) (depth : Nat) : Lower Unit := do
  branch p env depth
  markDead

/-- `Operator::BrIf`. -/
def brIfArm (env : LowerEnv) (depth : Nat) : Lower Unit := do
  consume p 1 0
  skippedBranch p env depth

/-- `Operator::BrTable`. -/
def brTableArm (env : LowerEnv) (targets : List Nat) (default : Nat) : Lower Unit := do
  match env.scratch with
  | none => throw (.err "br_table without scratch local")
  | some scratch =>
    plain p .localSet scratch 0 1 0
    brTableArms p env scratch 0 targets
    brArm p env default

/-- `Operator::Call`. -/
def callArm (env : LowerEnv) (functionIndex : Nat) : Lower Unit := do
  let (np, nr) ← ofExcept (funcArity functionIndex env.funcTypes env.funcTypeidx)
  if functionIndex < env.nImports then
    match env.hostFnIds[functionIndex]? with
    | none => throw (.err "host fn_id oob")
    | some fnId => plain p .callHost (np ||| (nr <<< 8) % 2 ^ 16) fnId np nr
  else plain p .call 0 functionIndex np nr

/-- `Operator::CallIndirect`. -/
def callIndirectArm (env : LowerEnv) (typeIndex tableIndex : Nat) : Lower Unit := do
  if tableIndex ≠ 0 then throw (.err "multi-table not supported")
  match env.funcTypes[typeIndex]? with
  | none => throw (.err "call_indirect type oob")
  | some ft =>
    let _ ← emit .callIndirect 0 typeIndex
    let pops ← ofPanic (arith p wrapI32 (1 + wrapI32 ft.1.length))
    consume p pops (wrapI32 ft.2.length)

/-- A bulk or size operator on memory `mem`. -/
def memArm (mem : Nat) (op : Opcode) (a : Nat) (pops pushes : Int) : Lower Unit := do
  if mem ≠ 0 then throw (.err "multi-memory not supported")
  plain p op a 0 pops pushes

/-- `Operator::MemoryCopy`. -/
def memoryCopyArm (dst src : Nat) : Lower Unit := do
  if dst ≠ 0 ∨ src ≠ 0 then throw (.err "multi-memory not supported")
  plain p .memoryCopy 0 0 3 0

/-- The loads and stores. -/
def accessArm (ma : MemArg) (op : Opcode) (a : Nat) (pops pushes : Int) : Lower Unit := do
  let off ← ofExcept (checkMemarg ma)
  plain p op a off pops pushes

/-- The constants. -/
def constArm (c : ConstOp) : Lower Unit := do
  let idx ← intern (ConstOp.slot c)
  plain p .i64Const 0 idx 0 1

/-- `Operator::LocalTee`. -/
def localTeeArm (i : Nat) : Lower Unit := do
  let _ ← emit .localSet (i % 2 ^ 16) 0
  let _ ← emit .localGet (i % 2 ^ 16) 0

/-- `Operator::ReturnCall`. -/
def returnCallArm (env : LowerEnv) (fi : Nat) : Lower Unit := do
  if fi < env.nImports then throw (.err "tail call to host import not supported")
  emitDead .returnCall 0 fi

/-- The `match` of `lower_operators`. -/
def operator (env : LowerEnv) : Operator → Lower Unit
  | .nop => pure ()
  | .unreachable => emitDead .unreachable 0 0
  | .const c => constArm p c
  | .drop => plain p .drop 0 0 1 0
  | .select => plain p .select 0 0 3 1
  | .typedSelect _ => plain p .select 0 0 3 1
  | .num o =>
    let (op, a, pops, pushes) := NumOp.lower o
    plain p op a 0 pops pushes
  | .globalGet i => plain p .globalGet 0 i 0 1
  | .globalSet i => plain p .globalSet 0 i 1 0
  | .localGet i => plain p .localGet (i % 2 ^ 16) 0 0 1
  | .localSet i => plain p .localSet (i % 2 ^ 16) 0 1 0
  | .localTee i => localTeeArm i
  | .block ty => blockArm p env .block ty
  | .loop ty => blockArm p env .loop ty
  | .if_ ty => ifArm p env ty
  | .else_ => elseArm p
  | .end_ => endArm p env
  | .br depth => brArm p env depth
  | .brIf depth => brIfArm p env depth
  | .brTable targets default => brTableArm p env targets default
  | .return_ => emitDead .ret env.nResults 0
  | .call fi => callArm p env fi
  | .returnCall fi => returnCallArm env fi
  | .callIndirect ti tab => callIndirectArm p env ti tab
  | .load o ma => accessArm p ma .load (LoadOp.lower o) 1 1
  | .store o ma => accessArm p ma .store (StoreOp.lower o) 2 0
  | .memorySize mem => memArm p mem .memorySize 0 0 1
  | .memoryGrow mem => memArm p mem .memoryGrow 0 1 1
  | .memoryCopy dst src => memoryCopyArm p dst src
  | .memoryFill mem => memArm p mem .memoryFill 0 3 0
  | .memoryInit di mem => memArm p mem .memoryInit (di % 2 ^ 16) 3 0
  | .dataDrop di => do let _ ← emit .dataDrop (di % 2 ^ 16) 0
  | .reinterpret _ => consume p 1 1
  | other => throw (.err ("unsupported wasm opcode: " ++ reprStr other))

/-- The loop over the operators. -/
def operators (env : LowerEnv) : List Operator → Lower Unit
  | [] => pure ()
  | o :: os => do
    operator p env o
    operators env os

end

end Lower

/-- The index `n_params + n_locals - 1` of the scratch local that a `br_table` needs. -/
def scratchIndex (p : Profile) (ops : List Operator) (nParams nLocals : Nat) :
    Except Panic (Option Nat) :=
  if ops.any Operator.isBrTable then do
    let x ← arith p wrapU16 (nParams + nLocals)
    let i ← arith p wrapU16 (x - 1)
    return some i.toNat
  else .ok none

/-- The state in which the pass over a body starts. -/
def initState (code : List CuOp) (consts : List Slot) (nResults : Nat) : LState where
  code := code
  consts := consts
  h := 0
  dead := false
  ctrl := [{
    kind := .func, start := code.length % 2 ^ 32, base := 0, nParams := 0, nResults := nResults
    deadOnEntry := false }]

/-- What `lower_operators` does behind the loop. -/
def passEnd (p : Profile) (env : LowerEnv) (codeOff : Nat) (s : LState) : Except Stop FuncMeta :=
  if s.ctrl ≠ [] then .error (.err "unclosed control blocks")
  else
    match arith p wrapU32 ((s.code.length % 2 ^ 32 : Nat) - codeOff) with
    | .error e => .error (.panic e)
    | .ok codeLen =>
      .ok { codeOff := codeOff, codeLen := codeLen.toNat, nParams := env.nParams,
            nResults := env.nResults, nLocals := env.nLocals }

/-- The loop and what follows it: the function's metadata or the reason why there is none, with the
code and the constants as the pass leaves them. -/
def runPass (p : Profile) (env : LowerEnv) (ops : List Operator) (code : List CuOp)
    (consts : List Slot) : Except Stop FuncMeta × List CuOp × List Slot :=
  match Lower.operators p env ops (initState code consts env.nResults) with
  | .error e s => (.error e, s.code, s.consts)
  | .ok _ s => (passEnd p env (code.length % 2 ^ 32) s, s.code, s.consts)

/-- `lower_operators`. -/
def lowerOperators (p : Profile) (lm : LowerModule) (ops : List Operator)
    (nParams nResults nLocals : Nat) (code : List CuOp) (consts : List Slot) :
    Except Stop FuncMeta × List CuOp × List Slot :=
  let nLocals' := scratchLocals ops nLocals
  match scratchIndex p ops nParams nLocals' with
  | .error e => (.error (.panic e), code, consts)
  | .ok scratch =>
    runPass p
      { nParams := nParams, nResults := nResults, nLocals := nLocals', scratch := scratch
        funcTypes := lm.funcTypes, funcTypeidx := lm.funcTypeidx
        nImports := lm.nImports, hostFnIds := lm.hostFnIds } ops code consts

end Checked

end CuWasm
