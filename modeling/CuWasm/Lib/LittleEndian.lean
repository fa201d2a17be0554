import Mathlib.Tactic.Ring

/-!
# Little-endian numbers in an array of bytes

An array of bytes is a function from addresses to numbers below 256. `value` reads a number from
consecutive bytes, `write` stores one; the two are inverse up to the width.
-/

namespace LittleEndian

/-- The byte `i` of `x`. -/
def digit (x i : Nat) : Nat := x / 256 ^ i % 256

/-- The number in the `n` bytes from `a` on. -/
def value (f : Nat → Nat) (a : Nat) : Nat → Nat
  | 0 => 0
  | n + 1 => value f a n + f (a + n) * 256 ^ n

/-- The array with the `n` low bytes of `x` from `a` on. -/
def write (f : Nat → Nat) (a n x : Nat) : Nat → Nat :=
  fun c => if a ≤ c ∧ c < a + n then digit x (c - a) else f c

theorem value_congr {f g : Nat → Nat} {a n : Nat} (h : ∀ k < n, f (a + k) = g (a + k)) :
    value f a n = value g a n := by
  induction n with
  | zero => rfl
  | succ n ih =>
    unfold value
    rw [ih fun k hk => h k (by omega), h n (by omega)]

theorem value_lt {f : Nat → Nat} {a n : Nat} (h : ∀ c, f c < 256) : value f a n < 256 ^ n := by
  induction n with
  | zero => simp [value]
  | succ n ih =>
    have hd : f (a + n) * 256 ^ n ≤ 255 * 256 ^ n := Nat.mul_le_mul_right _ (by have := h (a + n); omega)
    unfold value
    rw [pow_succ]
    omega

/-- The low bytes of a number make up its residue. -/
theorem value_digits {f : Nat → Nat} {a n x : Nat} (h : ∀ k < n, f (a + k) = digit x k) :
    value f a n = x % 256 ^ n := by
  induction n with
  | zero => simp [value, Nat.mod_one]
  | succ n ih =>
    unfold value
    rw [ih fun k hk => h k (by omega), h n (by omega), digit, pow_succ, Nat.mod_mul,
      Nat.mul_comm (256 ^ n)]

/-- Reading what has been written at the same place. -/
theorem value_write (f : Nat → Nat) (a n x : Nat) : value (write f a n x) a n = x % 256 ^ n := by
  apply value_digits
  intro k hk
  unfold write
  rw [if_pos (by omega), Nat.add_sub_cancel_left]

end LittleEndian
