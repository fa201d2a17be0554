import Mathlib.Logic.Relation
import Mathlib.Tactic.Common

/-!
# Computations with early exits, and machines made of them

`EStateM ε σ` is the monad of a loop body that may leave the loop: an exception carries the reason
and keeps the state. This module has the evaluation rules of the monad, two ways to reason about a
computation piece by piece (`Keeps`, `Spec`), and the runs of a machine whose step is such a
computation (`Steps`, `Eventually`).
-/

namespace Exit

variable {ε σ α β : Type}

/-! ## Evaluation -/

theorem bind_apply (x : EStateM ε σ α) (f : α → EStateM ε σ β) (s : σ) :
    (x >>= f) s = match x s with
      | .ok a s' => f a s'
      | .error e s' => .error e s' := by
  show EStateM.bind x f s = _
  unfold EStateM.bind
  split <;> simp_all

theorem bind_ok {x : EStateM ε σ α} {f : α → EStateM ε σ β} {s s' : σ} {a : α}
    (h : x s = .ok a s') : (x >>= f) s = f a s' := by
  rw [bind_apply, h]

theorem bind_error {x : EStateM ε σ α} {f : α → EStateM ε σ β} {s s' : σ} {e : ε}
    (h : x s = .error e s') : (x >>= f) s = .error e s' := by
  rw [bind_apply, h]

/-- A sequence that succeeds is made of two parts that succeed. -/
theorem bind_eq_ok {x : EStateM ε σ α} {f : α → EStateM ε σ β} {s s' : σ} {b : β}
    (h : (x >>= f) s = .ok b s') : ∃ a t, x s = .ok a t ∧ f a t = .ok b s' := by
  rw [bind_apply] at h
  cases hx : x s with
  | ok a t => rw [hx] at h; exact ⟨a, t, rfl, h⟩
  | error e t => rw [hx] at h; cases h

@[simp] theorem pure_apply (a : α) (s : σ) : (pure a : EStateM ε σ α) s = .ok a s := rfl

@[simp] theorem get_apply (s : σ) : (get : EStateM ε σ σ) s = .ok s s := rfl

@[simp] theorem set_apply (t s : σ) : (set t : EStateM ε σ PUnit) s = .ok () t := rfl

@[simp] theorem modify_apply (f : σ → σ) (s : σ) :
    (modify f : EStateM ε σ PUnit) s = .ok () (f s) := rfl

@[simp] theorem throw_apply (e : ε) (s : σ) : (throw e : EStateM ε σ α) s = .error e s := rfl

@[simp] theorem ite_run (c : Prop) [Decidable c] (x y : EStateM ε σ α) (s : σ) :
    (if c then x else y) s = if c then x s else y s := by
  split <;> rfl

/-- The state a computation ends in, whether it succeeds or exits. -/
def final : EStateM.Result ε σ α → σ
  | .ok _ s => s
  | .error _ s => s

@[simp] theorem final_ok (a : α) (s : σ) : final (.ok a s : EStateM.Result ε σ α) = s := rfl

@[simp] theorem final_error (e : ε) (s : σ) : final (.error e s : EStateM.Result ε σ α) = s := rfl

/-! ## Frame rule -/

/-- `x` does not change what `f` observes of the state. -/
def Keeps {γ : Type} (f : σ → γ) (x : EStateM ε σ α) : Prop := ∀ s, f (final (x s)) = f s

section Keeps

variable {γ : Type} {f : σ → γ}

theorem Keeps.bind {x : EStateM ε σ α} {g : α → EStateM ε σ β} (hx : Keeps f x)
    (hg : ∀ a, Keeps f (g a)) : Keeps f (x >>= g) := by
  intro s
  rw [bind_apply]
  have h := hx s
  cases hxs : x s with
  | ok a t => rw [hxs] at h; exact (hg a t).trans h
  | error e t => rw [hxs] at h; exact h

theorem Keeps.pure (a : α) : Keeps f (pure a : EStateM ε σ α) := fun _ => rfl

theorem Keeps.get : Keeps f (get : EStateM ε σ σ) := fun _ => rfl

theorem Keeps.throw (e : ε) : Keeps f (throw e : EStateM ε σ α) := fun _ => rfl

theorem Keeps.modify {g : σ → σ} (h : ∀ s, f (g s) = f s) :
    Keeps f (modify g : EStateM ε σ PUnit) := h

theorem Keeps.ite {c : Prop} [Decidable c] {x y : EStateM ε σ α} (hx : Keeps f x)
    (hy : Keeps f y) : Keeps f (if c then x else y) := by
  split
  · exact hx
  · exact hy

theorem Keeps.ok {x : EStateM ε σ α} (h : Keeps f x) {s s' : σ} {a : α} (hx : x s = .ok a s') :
    f s' = f s := by
  have := h s
  rwa [hx] at this

end Keeps

/-! ## Exits that do not happen -/

/-- `x` never exits with `e`. -/
def Avoids (e : ε) (x : EStateM ε σ α) : Prop := ∀ s s', x s ≠ .error e s'

section Avoids

variable {e : ε}

theorem Avoids.bind {x : EStateM ε σ α} {g : α → EStateM ε σ β} (hx : Avoids e x)
    (hg : ∀ a, Avoids e (g a)) : Avoids e (x >>= g) := by
  intro s s' h
  rw [bind_apply] at h
  cases hxs : x s with
  | ok a t =>
    rw [hxs] at h
    exact hg a t s' h
  | error e' t =>
    rw [hxs] at h
    cases h
    exact hx s _ hxs

theorem Avoids.pure (a : α) : Avoids e (pure a : EStateM ε σ α) := fun _ _ h => nomatch h

theorem Avoids.get : Avoids e (get : EStateM ε σ σ) := fun _ _ h => nomatch h

theorem Avoids.modify (g : σ → σ) : Avoids e (modify g : EStateM ε σ PUnit) := fun _ _ h => nomatch h

theorem Avoids.throw {e' : ε} (h : e' ≠ e) : Avoids e (throw e' : EStateM ε σ α) := by
  intro s s' heq
  injection heq with he
  exact h he

theorem Avoids.ite {c : Prop} [Decidable c] {x y : EStateM ε σ α} (hx : Avoids e x)
    (hy : Avoids e y) : Avoids e (if c then x else y) := by
  split
  · exact hx
  · exact hy

end Avoids

/-! ## Specifications -/

/-- From a state satisfying `P`, `x` succeeds with a value and state satisfying `Q` or exits with a
reason and state satisfying `E`. -/
def Spec (P : σ → Prop) (x : EStateM ε σ α) (Q : α → σ → Prop) (E : ε → σ → Prop) : Prop :=
  ∀ s, P s → (∀ a s', x s = .ok a s' → Q a s') ∧ ∀ e s', x s = .error e s' → E e s'

section Spec

variable {P : σ → Prop} {E : ε → σ → Prop}

theorem Spec.bind {x : EStateM ε σ α} {g : α → EStateM ε σ β} {Q : α → σ → Prop}
    {R : β → σ → Prop} (hx : Spec P x Q E) (hg : ∀ a, Spec (Q a) (g a) R E) :
    Spec P (x >>= g) R E := by
  intro s hs
  obtain ⟨h1, h2⟩ := hx s hs
  rw [bind_apply]
  cases hxs : x s with
  | ok a t => exact hg a t (h1 a t hxs)
  | error e t =>
    refine ⟨fun b s' h => (by cases h), fun e' s' h => ?_⟩
    cases h
    exact h2 e t hxs

theorem Spec.pure {Q : α → σ → Prop} {a : α} (h : ∀ s, P s → Q a s) :
    Spec P (pure a : EStateM ε σ α) Q E := by
  intro s hs
  refine ⟨fun b s' hb => ?_, fun e s' he => (by cases he)⟩
  cases hb
  exact h s hs

theorem Spec.get : Spec P (get : EStateM ε σ σ) (fun a s => s = a ∧ P s) E := by
  intro s hs
  refine ⟨fun b s' hb => ?_, fun e s' he => (by cases he)⟩
  cases hb
  exact ⟨rfl, hs⟩

theorem Spec.modify {f : σ → σ} {Q : PUnit → σ → Prop} (h : ∀ s, P s → Q ⟨⟩ (f s)) :
    Spec P (modify f : EStateM ε σ PUnit) Q E := by
  intro s hs
  refine ⟨fun b s' hb => ?_, fun e s' he => (by cases he)⟩
  cases hb
  exact h s hs

theorem Spec.throw {Q : α → σ → Prop} {e : ε} (h : ∀ s, P s → E e s) :
    Spec P (throw e : EStateM ε σ α) Q E := by
  intro s hs
  refine ⟨fun b s' hb => (by cases hb), fun e' s' he => ?_⟩
  cases he
  exact h s hs

theorem Spec.ite {c : Prop} [Decidable c] {x y : EStateM ε σ α} {Q : α → σ → Prop}
    (hx : c → Spec P x Q E) (hy : ¬ c → Spec P y Q E) : Spec P (if c then x else y) Q E := by
  split
  · exact hx ‹_›
  · exact hy ‹_›

/-- A test that exits: the shape `if c then throw e` has in a `do` block. -/
theorem Spec.guard {c : Prop} [Decidable c] {e : ε} {k : PUnit → EStateM ε σ α}
    {Q : α → σ → Prop} (he : ∀ s, c → P s → E e s) (hk : ¬ c → Spec P (k ⟨⟩) Q E) :
    Spec P (if c then Bind.bind (MonadExcept.throw e) k else k ⟨⟩) Q E := by
  refine Spec.ite (fun hc => ?_) hk
  exact Spec.bind (Q := fun _ _ => False) (Spec.throw fun s hs => he s hc hs)
    fun _ _ h => h.elim

theorem Spec.mono {P' : σ → Prop} {x : EStateM ε σ α} {Q Q' : α → σ → Prop} {E' : ε → σ → Prop}
    (hx : Spec P x Q E) (hP : ∀ s, P' s → P s) (hQ : ∀ a s, Q a s → Q' a s)
    (hE : ∀ e s, E e s → E' e s) : Spec P' x Q' E' := fun s hs =>
  ⟨fun a s' h => hQ a s' ((hx s (hP s hs)).1 a s' h),
    fun e s' h => hE e s' ((hx s (hP s hs)).2 e s' h)⟩

/-- Use a fact about the state found by `get`. -/
theorem Spec.get_bind {g : σ → EStateM ε σ β} {R : β → σ → Prop}
    (hg : ∀ a, P a → Spec (fun s => s = a) (g a) R E) : Spec P (Bind.bind MonadState.get g) R E := by
  refine Spec.bind Spec.get fun a => ?_
  rintro s ⟨rfl, hs⟩
  exact hg s hs s rfl

end Spec

/-! ## Runs of a machine -/

section Machine

variable (step : EStateM ε σ Unit)

/-- `Steps n s s'`: `n` steps lead from `s` to `s'` without an exit. -/
inductive Steps : Nat → σ → σ → Prop where
  | zero (s : σ) : Steps 0 s s
  | succ {n : Nat} {s t u : σ} (h : step s = .ok () t) (ht : Steps n t u) : Steps (n + 1) s u

variable {step}

/-- A run has beginnings of every length. -/
theorem Steps.take {k n : Nat} {s t : σ} (h : Steps step n s t) (hk : k ≤ n) :
    ∃ u, Steps step k s u := by
  induction h generalizing k with
  | zero s =>
    rw [Nat.le_zero.mp hk]
    exact ⟨s, .zero s⟩
  | succ hs _ ih =>
    cases k with
    | zero => exact ⟨_, .zero _⟩
    | succ k =>
      obtain ⟨u, hu⟩ := ih (Nat.le_of_succ_le_succ hk)
      exact ⟨u, .succ hs hu⟩

/-- The last step of a run. -/
theorem Steps.last {n : Nat} {s u : σ} (h : Steps step (n + 1) s u) :
    ∃ t, Steps step n s t ∧ step t = .ok () u := by
  induction n generalizing s with
  | zero =>
    cases h with
    | succ h1 h2 =>
      cases h2
      exact ⟨s, .zero s, h1⟩
  | succ n ih =>
    cases h with
    | succ h1 h2 =>
      obtain ⟨t, ht, hu⟩ := ih h2
      exact ⟨t, .succ h1 ht, hu⟩

/-- A property that every step preserves holds all along a run. -/
theorem Steps.invariant {P : σ → Prop} (hstep : ∀ s t, P s → step s = .ok () t → P t) {n : Nat}
    {s t : σ} (h : Steps step n s t) (hs : P s) : P t := by
  induction h with
  | zero s => exact hs
  | succ h1 _ ih => exact ih (hstep _ _ hs h1)

/-- Steps are deterministic. -/
theorem Steps.det {n : Nat} {s t t' : σ} (h : Steps step n s t) (h' : Steps step n s t') :
    t = t' := by
  induction h with
  | zero s => cases h'; rfl
  | succ h1 _ ih =>
    cases h' with
    | succ h1' h2' =>
      rw [h1] at h1'
      cases h1'
      exact ih h2'

/-- From `s` the machine gets, in finitely many steps, to a state satisfying `P` or to an exit
satisfying `Q`. -/
inductive Eventually (step : EStateM ε σ Unit) (P : σ → Prop) (Q : ε → σ → Prop) : σ → Prop where
  | now {s : σ} (h : P s) : Eventually step P Q s
  | step {s t : σ} (h : step s = .ok () t) (ht : Eventually step P Q t) : Eventually step P Q s
  | exit {s t : σ} {e : ε} (h : step s = .error e t) (he : Q e t) : Eventually step P Q s

namespace Eventually

variable {P P' : σ → Prop} {Q Q' : ε → σ → Prop} {s : σ}

theorem mono (h : Eventually step P Q s) (hP : ∀ t, P t → P' t) (hQ : ∀ e t, Q e t → Q' e t) :
    Eventually step P' Q' s := by
  induction h with
  | now h => exact .now (hP _ h)
  | step h _ ih => exact .step h ih
  | exit h he => exact .exit h (hQ _ _ he)

/-- Running on from the states reached. -/
theorem bind (h : Eventually step P Q s) (hP : ∀ t, P t → Eventually step P' Q t) :
    Eventually step P' Q s := by
  induction h with
  | now h => exact hP _ h
  | step h _ ih => exact .step h ih
  | exit h he => exact .exit h he

/-- When no state satisfies `P`, the machine exits. -/
theorem exits (h : Eventually step (fun _ => False) Q s) :
    ∃ n t e u, Steps step n s t ∧ step t = .error e u ∧ Q e u := by
  induction h with
  | now h => exact h.elim
  | step h _ ih =>
    obtain ⟨n, t, e, u, hs, ht, hq⟩ := ih
    exact ⟨n + 1, t, e, u, .succ h hs, ht, hq⟩
  | exit h he => exact ⟨0, _, _, _, .zero _, h, he⟩

end Eventually

end Machine

end Exit
