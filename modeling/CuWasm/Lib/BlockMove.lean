import Mathlib.Logic.Function.Basic
import Mathlib.Tactic.Common

/-!
# Copying a block inside an array

An array is a function from indices. `copyAsc` and `copyDesc` are the two element-by-element copy
loops of a `memmove`; each equals the simultaneous `blockMove` when the copy runs in the direction
that does not overwrite what is still to be read.
-/

namespace BlockMove

variable {α : Type*}

/-- `for (i = 0; i < n; ++i) f[dst + i] = f[src + i];` -/
def copyAsc (f : Nat → α) (dst src : Nat) : Nat → Nat → α
  | 0 => f
  | n + 1 => Function.update (copyAsc f dst src n) (dst + n) (copyAsc f dst src n (src + n))

/-- `for (i = n - 1; i >= 0; --i) f[dst + i] = f[src + i];` -/
def copyDesc (f : Nat → α) (dst src : Nat) : Nat → Nat → α
  | 0 => f
  | n + 1 => copyDesc (Function.update f (dst + n) (f (src + n))) dst src n

/-- A `memmove` loop: upwards when the destination is not above the source, downwards otherwise. The
two offsets are relative to `base`. -/
def move (f : Nat → α) (base dst src n : Nat) : Nat → α :=
  if dst ≤ src then copyAsc f (base + dst) (base + src) n
  else copyDesc f (base + dst) (base + src) n

/-- `for (i = 0; i < n; ++i) f[dst + i] = g(i);` -/
def fillAsc (f : Nat → α) (dst : Nat) (g : Nat → α) : Nat → Nat → α
  | 0 => f
  | n + 1 => Function.update (fillAsc f dst g n) (dst + n) (g n)

/-- The array with `n` elements from `src` on placed at `dst`. -/
def blockMove (f : Nat → α) (dst src n : Nat) : Nat → α :=
  fun i => if dst ≤ i ∧ i < dst + n then f (src + (i - dst)) else f i

theorem blockMove_of_mem (f : Nat → α) {dst src n i : Nat} (h : i < n) :
    blockMove f dst src n (dst + i) = f (src + i) := by
  simp [blockMove, h]

theorem blockMove_of_not_mem (f : Nat → α) {dst src n i : Nat} (h : i < dst ∨ dst + n ≤ i) :
    blockMove f dst src n i = f i := by
  unfold blockMove
  rw [if_neg (by omega)]

@[simp] theorem blockMove_zero (f : Nat → α) (dst src : Nat) : blockMove f dst src 0 = f := by
  funext i
  exact blockMove_of_not_mem f (by omega)

@[simp] theorem blockMove_self (f : Nat → α) (dst n : Nat) : blockMove f dst dst n = f := by
  funext i
  unfold blockMove
  split_ifs with h
  · congr 1; omega
  · rfl

/-- Copying upwards in place is a block move when the destination is not above the source. -/
theorem copyAsc_eq_blockMove (f : Nat → α) {dst src : Nat} (h : dst ≤ src) (n : Nat) :
    copyAsc f dst src n = blockMove f dst src n := by
  induction n with
  | zero => simp [copyAsc]
  | succ n ih =>
    funext i
    have hread : blockMove f dst src n (src + n) = f (src + n) :=
      blockMove_of_not_mem f (by omega)
    simp only [copyAsc, ih, hread]
    by_cases hi : i = dst + n
    · subst hi
      rw [Function.update_self, blockMove_of_mem f (by omega)]
    · rw [Function.update_of_ne hi]
      unfold blockMove
      by_cases hd : dst ≤ i ∧ i < dst + n
      · rw [if_pos hd, if_pos (by omega)]
      · rw [if_neg hd, if_neg (by omega)]

/-- Copying downwards in place is a block move when the destination is not below the source. -/
theorem copyDesc_eq_blockMove (f : Nat → α) {dst src : Nat} (h : src ≤ dst) (n : Nat) :
    copyDesc f dst src n = blockMove f dst src n := by
  induction n generalizing f with
  | zero => simp [copyDesc]
  | succ n ih =>
    funext i
    rw [copyDesc, ih]
    unfold blockMove
    by_cases hd : dst ≤ i ∧ i < dst + n
    · rw [if_pos hd, if_pos (by omega), Function.update_of_ne (by omega)]
    · rw [if_neg hd]
      by_cases hi : i = dst + n
      · subst hi
        rw [Function.update_self, if_pos (by omega)]
        congr 1
        omega
      · rw [Function.update_of_ne hi, if_neg (by omega)]

/-- The `memmove` loop is a block move whatever the overlap. -/
theorem move_eq_blockMove (f : Nat → α) (base dst src n : Nat) :
    move f base dst src n = blockMove f (base + dst) (base + src) n := by
  unfold move
  split_ifs with h
  · exact copyAsc_eq_blockMove f (by omega) n
  · exact copyDesc_eq_blockMove f (by omega) n

/-- The filled array: `g` on the block, the old values elsewhere. -/
theorem fillAsc_apply (f : Nat → α) (dst : Nat) (g : Nat → α) (n i : Nat) :
    fillAsc f dst g n i = if dst ≤ i ∧ i < dst + n then g (i - dst) else f i := by
  induction n with
  | zero => simp only [fillAsc]; rw [if_neg (by omega)]
  | succ n ih =>
    rw [fillAsc]
    by_cases hi : i = dst + n
    · subst hi
      rw [Function.update_self, if_pos (by omega)]
      congr 1
      omega
    · rw [Function.update_of_ne hi, ih]
      by_cases hd : dst ≤ i ∧ i < dst + n
      · rw [if_pos hd, if_pos (by omega)]
      · rw [if_neg hd, if_neg (by omega)]

end BlockMove
