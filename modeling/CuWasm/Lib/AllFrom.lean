import Mathlib.Data.List.Basic

/-!
# Predicates on list elements and their positions

`AllFrom P off l`: the elements of `l`, numbered from `off` on, satisfy `P`. It is what a code
generator proves about the segments of its output.
-/

namespace List

variable {α β : Type} {P Q : Nat → α → Prop}

/-- `P` holds of every element together with its position, the first one standing at `off`. -/
def AllFrom (P : Nat → α → Prop) : Nat → List α → Prop
  | _, [] => True
  | off, a :: l => P off a ∧ AllFrom P (off + 1) l

@[simp] theorem allFrom_nil (off : Nat) : AllFrom P off [] ↔ True := Iff.rfl

@[simp] theorem allFrom_cons {off : Nat} {a : α} {l : List α} :
    AllFrom P off (a :: l) ↔ P off a ∧ AllFrom P (off + 1) l := Iff.rfl

theorem allFrom_append {off : Nat} {l l' : List α} :
    AllFrom P off (l ++ l') ↔ AllFrom P off l ∧ AllFrom P (off + l.length) l' := by
  induction l generalizing off with
  | nil => simp
  | cons a l ih =>
    rw [cons_append, allFrom_cons, allFrom_cons, ih, length_cons, and_assoc, Nat.add_right_comm,
      Nat.add_assoc]

theorem allFrom_map {f : β → α} {off : Nat} {l : List β} :
    AllFrom P off (l.map f) ↔ AllFrom (fun n b => P n (f b)) off l := by
  induction l generalizing off with
  | nil => rfl
  | cons b l ih => rw [map_cons, allFrom_cons, allFrom_cons, ih]

theorem allFrom_iff {off : Nat} {l : List α} :
    AllFrom P off l ↔ ∀ (k : Nat) (a : α), l[k]? = some a → P (off + k) a := by
  induction l generalizing off with
  | nil => simp
  | cons b l ih =>
    rw [allFrom_cons, ih]
    constructor
    · rintro ⟨h1, h2⟩ k a hk
      cases k with
      | zero =>
        cases hk
        exact h1
      | succ k =>
        have := h2 k a hk
        rwa [Nat.add_right_comm, Nat.add_assoc] at this
    · intro h
      refine ⟨h 0 b rfl, fun k a hk => ?_⟩
      have := h (k + 1) a hk
      rwa [Nat.add_right_comm, Nat.add_assoc]

end List
