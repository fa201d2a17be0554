import Mathlib.Data.BitVec

/-!
# CuOp: the fixed-width instruction set

The instructions that `lower_operators` emits and `run_instance` executes (`cuop.h`, `vmstate.h`),
together with the value part of the integer operators of `interp.h`.

A stack slot is a 64-bit word; an `i32` is kept zero-extended in its slot. Program counters, stack
pointers and table sizes are `uint32_t` in the source and natural numbers here: a code array has
fewer than `2^32` entries. Every place where the source truncates or wraps keeps its `%`.
-/

namespace CuWasm

/-- A slot of the shared locals/operand stack. -/
abbrev Slot := BitVec 64

/-- A byte of linear memory. -/
abbrev Byte := BitVec 8

/-- `enum Status` of `vmstate.h`. -/
inductive Status where
  | running
  | ok
  | trapUnreachable
  | trapStackOverflow
  | trapCallDepth
  | outOfFuel
  | unsupportedOp
  | trapDivByZero
  | trapIntOverflow
  | trapMemOob
  | trapIndirectCall
  | hostcallPending
  deriving DecidableEq, Repr, Inhabited

/-- The opcodes that pop two operands and push one (the `binop` group of `verify_cuop`). -/
inductive BinOp where
  | i64Add | i64Sub | i64Eq | i64LeS | i64LtS
  | i32Eq | i32Ne | i32LtS | i32LtU | i32LeS | i32LeU | i32GtS | i32GtU | i32GeS | i32GeU
  | i32Add | i32Sub | i32Mul | i32And | i32Or | i32Xor
  | i32DivS | i32DivU | i32RemS | i32RemU | i32Shl | i32ShrS | i32ShrU
  | i64Ne | i64LtU | i64LeU | i64GtS | i64GtU | i64GeS | i64GeU
  | i64Mul | i64And | i64Or | i64Xor | i64DivS | i64DivU | i64RemS | i64RemU
  | i64Shl | i64ShrS | i64ShrU
  deriving DecidableEq, Repr

/-- The opcodes that replace the top operand (the `unop` group of `verify_cuop`). -/
inductive UnOp where
  | i64Eqz | i32Eqz | i32WrapI64 | i64ExtendI32S | i64ExtendI32U
  deriving DecidableEq, Repr

/-- `enum CuOpcode`. The 46 two-operand and the 5 one-operand opcodes are grouped; `unknown` is any
number from `CUWASM_OP_COUNT` on. -/
inductive Opcode where
  | unreachable
  | i64Const
  | localGet
  | localSet
  | bin (o : BinOp)
  | un (o : UnOp)
  | br
  | brIfNot
  | call
  | returnCall
  | ret
  | endFunc
  | drop
  | select
  | globalGet
  | globalSet
  | unwind
  | i64MulWideS
  | i64MulWideU
  | i64Add128
  | i64Sub128
  | load
  | store
  | memorySize
  | memoryGrow
  | memoryCopy
  | memoryFill
  | memoryInit
  | dataDrop
  | callHost
  | callIndirect
  | clz
  | unknown (code : Nat)
  deriving DecidableEq, Repr

/-- `struct CuOp`: an opcode with a 16-bit and a 32-bit immediate. -/
structure CuOp where
  op : Opcode
  a : Nat := 0
  b : Nat := 0
  deriving DecidableEq, Repr

/-- `struct FuncMeta`. -/
structure FuncMeta where
  codeOff : Nat
  codeLen : Nat
  nParams : Nat
  nResults : Nat
  nLocals : Nat
  maxStack : Nat := 0
  deriving DecidableEq, Repr

/-- `struct Frame`: what a call saves. -/
structure Frame where
  retPc : Nat
  fp : Nat
  spBase : Nat
  nResults : Nat
  deriving DecidableEq, Repr, Inhabited

/-- The read-only module the interpreter sees. The source passes null pointers for empty arrays;
every test of such a pointer is subsumed by the length test beside it. -/
structure DevModule where
  code : List CuOp
  consts : List Slot
  funcs : List FuncMeta
  table : List Nat
  funcTypeidx : List Nat
  typeFp : List Nat
  deriving DecidableEq, Repr

/-- `STACK_CAP`. -/
def STACK_CAP : Nat := 4096

/-- `FRAME_CAP`. -/
def FRAME_CAP : Nat := 256

/-- `FUEL_BACKEDGE`. -/
def FUEL_BACKEDGE : Int := 1

/-- `WASM_PAGE`. -/
def WASM_PAGE : Nat := 65536

/-- `TABLE_NULL`. -/
def TABLE_NULL : Nat := 0xFFFFFFFF

/-! ## Integer operators -/

/-- `(uint32_t)x`. -/
def u32 (x : Slot) : BitVec 32 := x.setWidth 32

/-- A 32-bit result, zero-extended into its slot. -/
def slot32 (x : BitVec 32) : Slot := x.setWidth 64

/-- The slot of a C++ comparison result. -/
def slotBool (b : Bool) : Slot := if b then 1 else 0

section Alu

variable {w : Nat}

/-- Signed division as both `DIV_S` cases perform it: the two traps, then C++ division. -/
def divS (a b : BitVec w) : Except Status (BitVec w) :=
  if b = 0 then .error .trapDivByZero
  else if a = BitVec.intMin w ∧ b = -1 then .error .trapIntOverflow
  else .ok (a.sdiv b)

/-- Unsigned division with its trap. -/
def divU (a b : BitVec w) : Except Status (BitVec w) :=
  if b = 0 then .error .trapDivByZero else .ok (a.udiv b)

/-- Signed remainder: the minimum modulo `-1` is answered before the C++ operator is used. -/
def remS (a b : BitVec w) : Except Status (BitVec w) :=
  if b = 0 then .error .trapDivByZero
  else if a = BitVec.intMin w ∧ b = -1 then .ok 0
  else .ok (a.srem b)

/-- Unsigned remainder with its trap. -/
def remU (a b : BitVec w) : Except Status (BitVec w) :=
  if b = 0 then .error .trapDivByZero else .ok (a.umod b)

end Alu

/-- The value computed by a two-operand opcode on the slots `a` (below) and `b` (top), or its trap. -/
def BinOp.eval (o : BinOp) (a b : Slot) : Except Status Slot :=
  match o with
  | .i64Add => .ok (a + b)
  | .i64Sub => .ok (a - b)
  | .i64Eq => .ok (slotBool (a == b))
  | .i64Ne => .ok (slotBool (a != b))
  | .i64LtS => .ok (slotBool (a.slt b))
  | .i64LtU => .ok (slotBool (a.ult b))
  | .i64LeS => .ok (slotBool (a.sle b))
  | .i64LeU => .ok (slotBool (a.ule b))
  | .i64GtS => .ok (slotBool (b.slt a))
  | .i64GtU => .ok (slotBool (b.ult a))
  | .i64GeS => .ok (slotBool (b.sle a))
  | .i64GeU => .ok (slotBool (b.ule a))
  | .i64Mul => .ok (a * b)
  | .i64And => .ok (a &&& b)
  | .i64Or => .ok (a ||| b)
  | .i64Xor => .ok (a ^^^ b)
  | .i64DivS => divS a b
  | .i64DivU => divU a b
  | .i64RemS => remS a b
  | .i64RemU => remU a b
  | .i64Shl => .ok (a <<< (b &&& 63).toNat)
  | .i64ShrS => .ok (a.sshiftRight (b &&& 63).toNat)
  | .i64ShrU => .ok (a >>> (b &&& 63).toNat)
  | .i32Eq => .ok (slotBool (u32 a == u32 b))
  | .i32Ne => .ok (slotBool (u32 a != u32 b))
  | .i32LtS => .ok (slotBool ((u32 a).slt (u32 b)))
  | .i32LtU => .ok (slotBool ((u32 a).ult (u32 b)))
  | .i32LeS => .ok (slotBool ((u32 a).sle (u32 b)))
  | .i32LeU => .ok (slotBool ((u32 a).ule (u32 b)))
  | .i32GtS => .ok (slotBool ((u32 b).slt (u32 a)))
  | .i32GtU => .ok (slotBool ((u32 b).ult (u32 a)))
  | .i32GeS => .ok (slotBool ((u32 b).sle (u32 a)))
  | .i32GeU => .ok (slotBool ((u32 b).ule (u32 a)))
  | .i32Add => .ok (slot32 (u32 a + u32 b))
  | .i32Sub => .ok (slot32 (u32 a - u32 b))
  | .i32Mul => .ok (slot32 (u32 a * u32 b))
  | .i32And => .ok (slot32 (u32 a &&& u32 b))
  | .i32Or => .ok (slot32 (u32 a ||| u32 b))
  | .i32Xor => .ok (slot32 (u32 a ^^^ u32 b))
  | .i32DivS => (divS (u32 a) (u32 b)).map slot32
  | .i32DivU => (divU (u32 a) (u32 b)).map slot32
  | .i32RemS => (remS (u32 a) (u32 b)).map slot32
  | .i32RemU => (remU (u32 a) (u32 b)).map slot32
  | .i32Shl => .ok (slot32 (u32 a <<< (u32 b &&& 31).toNat))
  | .i32ShrS => .ok (slot32 ((u32 a).sshiftRight (u32 b &&& 31).toNat))
  | .i32ShrU => .ok (slot32 (u32 a >>> (u32 b &&& 31).toNat))

/-- The value computed by a one-operand opcode. -/
def UnOp.eval (o : UnOp) (a : Slot) : Slot :=
  match o with
  | .i64Eqz => slotBool (a == 0)
  | .i32Eqz => slotBool (u32 a == 0)
  | .i32WrapI64 => slot32 (u32 a)
  | .i64ExtendI32S => (u32 a).signExtend 64
  | .i64ExtendI32U => slot32 (u32 a)

/-- `mul_wide_u`: the low and the high word of the product, from four 32-bit partial products. -/
def mulWideU (a b : Slot) : Slot × Slot :=
  let a0 := slot32 (u32 a)
  let a1 := a >>> 32
  let b0 := slot32 (u32 b)
  let b1 := b >>> 32
  let p0 := a0 * b0
  let p1 := a0 * b1
  let p2 := a1 * b0
  let p3 := a1 * b1
  let c := (p0 >>> 32) + slot32 (u32 p1) + slot32 (u32 p2)
  let lo := (p0 &&& 0xffffffff) ||| (c <<< 32)
  let hi := p3 + (p1 >>> 32) + (p2 >>> 32) + (c >>> 32)
  (lo, hi)

/-- `mul_wide_s`: the unsigned product with the high word corrected for negative factors. -/
def mulWideS (a b : Slot) : Slot × Slot :=
  let (lo, hi) := mulWideU a b
  let hi := if a.msb then hi - b else hi
  let hi := if b.msb then hi - a else hi
  (lo, hi)

/-- `OP_I64_ADD128` on the pairs `(lhsLo, lhsHi)` and `(rhsLo, rhsHi)`. -/
def add128 (lhsLo lhsHi rhsLo rhsHi : Slot) : Slot × Slot :=
  let lo := lhsLo + rhsLo
  let c : Slot := if lo.ult lhsLo then 1 else 0
  (lo, lhsHi + rhsHi + c)

/-- `OP_I64_SUB128` on the pairs `(lhsLo, lhsHi)` and `(rhsLo, rhsHi)`. -/
def sub128 (lhsLo lhsHi rhsLo rhsHi : Slot) : Slot × Slot :=
  let lo := lhsLo - rhsLo
  let brw : Slot := if lhsLo.ult rhsLo then 1 else 0
  (lo, lhsHi - rhsHi - brw)

/-- The `while` loop of `OP_CLZ`: count the zero bits of `v` from the bit of `mask` downwards. The
mask has at most 64 positions, which bounds the loop for the widths 32 and 64 that lowering emits. -/
def clzLoop : Nat → Slot → Slot → Nat → Nat
  | 0, _, _, n => n
  | k + 1, v, mask, n => if v &&& mask = 0 then clzLoop k v (mask >>> 1) (n + 1) else n

/-- `OP_CLZ` with immediate `a`. -/
def clz (a : Nat) (v : Slot) : Slot :=
  let bits := if a = 0 then 64 else a
  let v := if bits = 32 then v &&& 0xffffffff else v
  if v = 0 then BitVec.ofNat 64 bits
  else BitVec.ofNat 64 (clzLoop 64 v ((1 : Slot) <<< (bits - 1)) 0)

/-! ## Stack effects -/

/-- Operands popped and pushed by the opcodes that neither transfer control nor unwind the stack. -/
def effect (i : CuOp) : Option (Nat × Nat) :=
  match i.op with
  | .i64Const | .localGet | .globalGet | .memorySize => some (0, 1)
  | .localSet | .drop | .globalSet => some (1, 0)
  | .bin _ => some (2, 1)
  | .un _ | .load | .memoryGrow | .clz => some (1, 1)
  | .select => some (3, 1)
  | .i64MulWideS | .i64MulWideU => some (2, 2)
  | .i64Add128 | .i64Sub128 => some (4, 2)
  | .store => some (2, 0)
  | .memoryCopy | .memoryFill | .memoryInit => some (3, 0)
  | .dataDrop => some (0, 0)
  | _ => none

/-- The index of the local an instruction accesses. -/
def localOf (i : CuOp) : Option Nat :=
  match i.op with
  | .localGet | .localSet => some i.a
  | _ => none

end CuWasm
