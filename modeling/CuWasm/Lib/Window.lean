import CuWasm.Lib.BlockMove

/-!
# Two arrays seen through windows

A window of an array starts at some base and shows the cells with the offsets in `own`. Two arrays are
alike when their windows show the same; the rest of the second one is left as it was.
-/

namespace BlockMove

variable {α : Type*}

/-- The window of `g` at `b'` shows what the window of `f` at `b` shows, and outside of it `g` is as
`g0`. -/
structure Window (own : Nat → Prop) (b b' : Nat) (g0 f g : Nat → α) : Prop where
  agree : ∀ j, own j → g (b' + j) = f (b + j)
  only : ∀ c, (∀ j, own j → c ≠ b' + j) → g c = g0 c

namespace Window

variable {own : Nat → Prop} {b b' : Nat} {g0 f g : Nat → α}

/-- At the start nothing has been written. -/
theorem start (h : ∀ j, own j → g (b' + j) = f (b + j)) : Window own b b' g f g :=
  ⟨h, fun _ _ => rfl⟩

/-- Writing the same into a cell of both windows. -/
theorem update (h : Window own b b' g0 f g) {j : Nat} (hj : own j) (x : α) :
    Window own b b' g0 (Function.update f (b + j) x) (Function.update g (b' + j) x) := by
  refine ⟨fun k hk => ?_, fun c hc => ?_⟩
  · by_cases hkj : k = j
    · rw [hkj, Function.update_self, Function.update_self]
    · rw [Function.update_of_ne (by omega), Function.update_of_ne (by omega)]
      exact h.agree k hk
  · rw [Function.update_of_ne (hc j hj)]
    exact h.only c hc

/-- Moving the same block inside both windows. -/
theorem blockMove (h : Window own b b' g0 f g) {dst src n : Nat} (hd : ∀ k, k < n → own (dst + k))
    (hs : ∀ k, k < n → own (src + k)) :
    Window own b b' g0 (BlockMove.blockMove f (b + dst) (b + src) n)
      (BlockMove.blockMove g (b' + dst) (b' + src) n) := by
  refine ⟨fun j hj => ?_, fun c hc => ?_⟩
  · unfold BlockMove.blockMove
    by_cases hin : dst ≤ j ∧ j < dst + n
    · rw [if_pos (by omega), if_pos (by omega),
        show b' + src + (b' + j - (b' + dst)) = b' + (src + (j - dst)) by omega,
        show b + src + (b + j - (b + dst)) = b + (src + (j - dst)) by omega]
      exact h.agree _ (hs (j - dst) (by omega))
    · rw [if_neg (by omega), if_neg (by omega)]
      exact h.agree j hj
  · have hout : ¬ (b' + dst ≤ c ∧ c < b' + dst + n) := by
      rintro ⟨h1, h2⟩
      exact hc (dst + (c - (b' + dst))) (hd _ (by omega)) (by omega)
    unfold BlockMove.blockMove
    rw [if_neg hout]
    exact h.only c hc

/-- Filling the same block of both windows. -/
theorem fillAsc (h : Window own b b' g0 f g) {dst n : Nat} (hd : ∀ k, k < n → own (dst + k))
    (x : Nat → α) :
    Window own b b' g0 (BlockMove.fillAsc f (b + dst) x n)
      (BlockMove.fillAsc g (b' + dst) x n) := by
  refine ⟨fun j hj => ?_, fun c hc => ?_⟩
  · rw [fillAsc_apply, fillAsc_apply]
    by_cases hin : dst ≤ j ∧ j < dst + n
    · rw [if_pos (by omega), if_pos (by omega), Nat.add_sub_add_left, Nat.add_sub_add_left]
    · rw [if_neg (by omega), if_neg (by omega)]
      exact h.agree j hj
  · have hout : ¬ (b' + dst ≤ c ∧ c < b' + dst + n) := by
      rintro ⟨h1, h2⟩
      exact hc (dst + (c - (b' + dst))) (hd _ (by omega)) (by omega)
    rw [fillAsc_apply, if_neg hout]
    exact h.only c hc

end Window

end BlockMove
