import Mathlib.Tactic.Ring
import Mathlib.Tactic.Common

/-!
# Stacks of counters

A machine with a bounded call stack counts down at the top of a stack of counters, oldest first. A
call pushes a counter and a return pops one. With the weight `B ^ C` for the oldest of at most `C + 1`
counters below `B`, all three make the whole stack lighter as long as a call also counts down its
caller.
-/

namespace Counters

/-- The weight of a stack of counters when `C` is the exponent of the oldest one. -/
def weight (B : Nat) : Nat → List Nat → Nat
  | _, [] => 0
  | C, x :: xs => x * B ^ C + weight B (C - 1) xs

variable {B C : Nat} {xs : List Nat} {x y z : Nat}

theorem weight_append (ys : List Nat) :
    weight B C (xs ++ ys) = weight B C xs + weight B (C - xs.length) ys := by
  induction xs generalizing C with
  | nil => simp [weight]
  | cons x xs ih =>
    have hsub : C - 1 - xs.length = C - (x :: xs).length := by
      rw [List.length_cons]
      omega
    rw [List.cons_append, weight, weight, ih, hsub, Nat.add_assoc]

/-- Counters below `B` on a stack that is not too high weigh less than one more counter. -/
theorem weight_lt (h : ∀ x ∈ xs, x < B) (hB : 0 < B) (hC : xs.length ≤ C + 1) :
    weight B C xs < B ^ (C + 1) := by
  induction xs generalizing C with
  | nil => exact Nat.pow_pos hB
  | cons x xs ih =>
    rw [List.length_cons] at hC
    have hx : (x + 1) * B ^ C ≤ B * B ^ C := Nat.mul_le_mul_right _ (h x (.head _))
    rw [Nat.add_mul, Nat.one_mul, ← Nat.pow_succ', Nat.succ_eq_add_one] at hx
    have hrest : weight B (C - 1) xs < B ^ C := by
      cases C with
      | zero =>
        rw [List.length_eq_zero_iff.mp (show xs.length = 0 by omega)]
        exact Nat.pow_pos hB
      | succ C => exact ih (fun y hy => h y (.tail _ hy)) (by omega)
    rw [weight]
    omega

/-- Counting down at the top. -/
theorem weight_step (hB : 0 < B) (h : y < x) : weight B C (xs ++ [y]) < weight B C (xs ++ [x]) := by
  rw [weight_append, weight_append]
  have hpos : 0 < B ^ (C - xs.length) := Nat.pow_pos hB
  have := Nat.mul_lt_mul_of_pos_right h hpos
  simp only [weight]
  omega

/-- A stack whose newest counter is not zero weighs something. -/
theorem weight_pos (hB : 0 < B) (h : 0 < x) : 0 < weight B C (xs ++ [x]) := by
  have : weight B C (xs ++ [0]) < weight B C (xs ++ [x]) := weight_step hB h
  omega

/-- A call: the caller is counted down and a new counter is pushed. -/
theorem weight_push (h : y < x) (hz : z < B) (hC : xs.length < C) :
    weight B C (xs ++ [y, z]) < weight B C (xs ++ [x]) := by
  rw [weight_append, weight_append]
  obtain ⟨k, hk⟩ : ∃ k, C - xs.length = k + 1 := ⟨C - xs.length - 1, by omega⟩
  simp only [weight, hk, Nat.add_sub_cancel]
  have hpos : 0 < B ^ k := Nat.pow_pos (by omega)
  have hnew : z * B ^ k < B ^ (k + 1) := by
    rw [Nat.pow_succ, Nat.mul_comm (B ^ k)]
    exact Nat.mul_lt_mul_of_pos_right hz hpos
  have hcaller : (y + 1) * B ^ (k + 1) ≤ x * B ^ (k + 1) := Nat.mul_le_mul_right _ h
  rw [Nat.add_mul, Nat.one_mul] at hcaller
  omega

/-- A return: the counter at the top is dropped before it has reached zero. -/
theorem weight_pop (hB : 0 < B) (hz : 0 < z) :
    weight B C (xs ++ [x]) < weight B C (xs ++ [x, z]) := by
  rw [weight_append, weight_append]
  have hpos : 0 < z * B ^ (C - xs.length - 1) := Nat.mul_pos hz (Nat.pow_pos hB)
  simp only [weight]
  omega

end Counters
