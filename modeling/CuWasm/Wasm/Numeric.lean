import CuWasm.Wasm.Typing
import Mathlib.Data.Nat.Size

/-!
# The integer operators of Wasm

The numerics of the specification: an integer of width `N` is a natural number below `2 ^ N`, and
every operator is a function of such numbers. A signed operator reads its operands through `signed`
and puts its result back through `unsigned`.
-/

namespace CuWasm.Wasm

/-- Why an integer operator traps. -/
inductive Trap where
  | divByZero
  | intOverflow
  deriving DecidableEq, Repr

namespace Numeric

variable (N : Nat)

/-- The signed interpretation of `i`. -/
def signed (i : Nat) : Int := if i < 2 ^ (N - 1) then i else i - 2 ^ N

/-- The number with the signed interpretation `j`, modulo `2 ^ N`. -/
def unsigned (j : Int) : Nat := (j % 2 ^ N).toNat

/-- The truth value of a test. -/
def bool (p : Prop) [Decidable p] : Nat := if p then 1 else 0

def iadd (a b : Nat) : Nat := (a + b) % 2 ^ N

def isub (a b : Nat) : Nat := (a + 2 ^ N - b) % 2 ^ N

def imul (a b : Nat) : Nat := a * b % 2 ^ N

def idivU (a b : Nat) : Except Trap Nat := if b = 0 then .error .divByZero else .ok (a / b)

/-- Signed division truncates; it overflows where the quotient is `2 ^ (N - 1)`. -/
def idivS (a b : Nat) : Except Trap Nat :=
  if b = 0 then .error .divByZero
  else if (signed N a).tdiv (signed N b) = 2 ^ (N - 1) then .error .intOverflow
  else .ok (unsigned N ((signed N a).tdiv (signed N b)))

def iremU (a b : Nat) : Except Trap Nat := if b = 0 then .error .divByZero else .ok (a % b)

/-- The remainder has the sign of the dividend. -/
def iremS (a b : Nat) : Except Trap Nat :=
  if b = 0 then .error .divByZero else .ok (unsigned N ((signed N a).tmod (signed N b)))

def ishl (a b : Nat) : Nat := a * 2 ^ (b % N) % 2 ^ N

def ishrU (a b : Nat) : Nat := a / 2 ^ (b % N)

/-- The arithmetic shift rounds towards minus infinity. -/
def ishrS (a b : Nat) : Nat := unsigned N (signed N a / 2 ^ (b % N))

/-- The number of leading zero bits. -/
def iclz (a : Nat) : Nat := N - a.size

/-- Sign extension from width `M` to width `N`. -/
def extendS (M : Nat) (a : Nat) : Nat := unsigned N (signed M (a % 2 ^ M))

/-- Low and high half of a number of width `2 * N`. -/
def halves (a : Nat) : List Nat := [a % 2 ^ N, a / 2 ^ N % 2 ^ N]

end Numeric

open Numeric

/-- The results of an integer operator on the operands `xs`, the last one on top. -/
def NumOp.apply (o : NumOp) (xs : List Nat) : Except Trap (List Nat) :=
  let a := xs.getD 0 0
  let b := xs.getD 1 0
  let c := xs.getD 2 0
  let d := xs.getD 3 0
  match o with
  | .i32Eqz | .i64Eqz => .ok [bool (a = 0)]
  | .i32Eq | .i64Eq => .ok [bool (a = b)]
  | .i32Ne | .i64Ne => .ok [bool (a ≠ b)]
  | .i32LtU | .i64LtU => .ok [bool (a < b)]
  | .i32LeU | .i64LeU => .ok [bool (a ≤ b)]
  | .i32GtU | .i64GtU => .ok [bool (a > b)]
  | .i32GeU | .i64GeU => .ok [bool (a ≥ b)]
  | .i32LtS => .ok [bool (signed 32 a < signed 32 b)]
  | .i32LeS => .ok [bool (signed 32 a ≤ signed 32 b)]
  | .i32GtS => .ok [bool (signed 32 a > signed 32 b)]
  | .i32GeS => .ok [bool (signed 32 a ≥ signed 32 b)]
  | .i64LtS => .ok [bool (signed 64 a < signed 64 b)]
  | .i64LeS => .ok [bool (signed 64 a ≤ signed 64 b)]
  | .i64GtS => .ok [bool (signed 64 a > signed 64 b)]
  | .i64GeS => .ok [bool (signed 64 a ≥ signed 64 b)]
  | .i32Add => .ok [iadd 32 a b]
  | .i32Sub => .ok [isub 32 a b]
  | .i32Mul => .ok [imul 32 a b]
  | .i32And | .i64And => .ok [a &&& b]
  | .i32Or | .i64Or => .ok [a ||| b]
  | .i32Xor | .i64Xor => .ok [a ^^^ b]
  | .i32DivS => (idivS 32 a b).map ([·])
  | .i32DivU | .i64DivU => (idivU a b).map ([·])
  | .i32RemS => (iremS 32 a b).map ([·])
  | .i32RemU | .i64RemU => (iremU a b).map ([·])
  | .i32Shl => .ok [ishl 32 a b]
  | .i32ShrS => .ok [ishrS 32 a b]
  | .i32ShrU => .ok [ishrU 32 a b]
  | .i32Clz => .ok [iclz 32 a]
  | .i64Add => .ok [iadd 64 a b]
  | .i64Sub => .ok [isub 64 a b]
  | .i64Mul => .ok [imul 64 a b]
  | .i64DivS => (idivS 64 a b).map ([·])
  | .i64RemS => (iremS 64 a b).map ([·])
  | .i64Shl => .ok [ishl 64 a b]
  | .i64ShrS => .ok [ishrS 64 a b]
  | .i64ShrU => .ok [ishrU 64 a b]
  | .i64Clz => .ok [iclz 64 a]
  | .i32WrapI64 => .ok [a % 2 ^ 32]
  | .i64Extend32S | .i64ExtendI32S => .ok [extendS 64 32 a]
  | .i64ExtendI32U => .ok [a]
  | .i64MulWideU => .ok (halves 64 (a * b))
  | .i64MulWideS => .ok (halves 64 (unsigned 128 (signed 64 a * signed 64 b)))
  | .i64Add128 => .ok (halves 64 (iadd 128 (b * 2 ^ 64 + a) (d * 2 ^ 64 + c)))
  | .i64Sub128 => .ok (halves 64 (isub 128 (b * 2 ^ 64 + a) (d * 2 ^ 64 + c)))

/-- The divisions and the remainders. -/
def NumOp.divides : NumOp → Bool
  | .i32DivS | .i32DivU | .i32RemS | .i32RemU | .i64DivS | .i64DivU | .i64RemS | .i64RemU => true
  | _ => false

/-- The width of an integer or float type. -/
def ValType.width : ValType → Nat
  | .i32 | .f32 => 32
  | _ => 64

end CuWasm.Wasm
