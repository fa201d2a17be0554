import CuWasm.Lib.Exit

/-!
# A computation and its checked version

Two versions of a computation differ in that one of them makes additional checks and leaves through a
bad exit when a check fails. `Guarded` says that this is the only difference, and that the version
without the checks has no bad exit at all; `F` is the condition on the state before the computation
under which every check passes.
-/

namespace Exit

variable {ε σ α β : Type}

/-- From a state satisfying `P`, `y` leaves through no bad exit and succeeds with `Q`, and `x` does the
same where `F` holds and leaves through a bad exit where it does not. -/
structure Guarded (Bad : ε → Prop) (P F : σ → Prop) (x y : EStateM ε σ α) (Q : α → σ → Prop) :
    Prop where
  spec : Spec P y Q fun e _ => ¬ Bad e
  same : ∀ s, P s → F s → x s = y s
  bad : ∀ s, P s → ¬ F s → ∃ e t, x s = .error e t ∧ Bad e

namespace Guarded

variable {Bad : ε → Prop} {P F : σ → Prop}

/-- A computation without checks. -/
theorem refl {x : EStateM ε σ α} {Q : α → σ → Prop} (h : Spec P x Q fun e _ => ¬ Bad e) :
    Guarded Bad P (fun _ => True) x x Q where
  spec := h
  same := fun _ _ _ => rfl
  bad := fun _ _ hf => absurd trivial hf

theorem mono {P' F' : σ → Prop} {x y : EStateM ε σ α} {Q Q' : α → σ → Prop}
    (h : Guarded Bad P F x y Q) (hP : ∀ s, P' s → P s) (hF : ∀ s, P' s → (F s ↔ F' s))
    (hQ : ∀ a s, Q a s → Q' a s) : Guarded Bad P' F' x y Q' where
  spec := h.spec.mono hP hQ fun _ _ he => he
  same := fun s hs hf => h.same s (hP s hs) ((hF s hs).mpr hf)
  bad := fun s hs hf => h.bad s (hP s hs) fun hf' => hf ((hF s hs).mp hf')

/-- Restate the condition of the checks. -/
theorem fits {F' : σ → Prop} {x y : EStateM ε σ α} {Q : α → σ → Prop}
    (h : Guarded Bad P F x y Q) (hF : ∀ s, P s → (F s ↔ F' s)) : Guarded Bad P F' x y Q :=
  h.mono (fun _ hs => hs) hF fun _ _ hq => hq

/-- What is known of the version without the checks holds behind it. -/
theorem ensures {x y : EStateM ε σ α} {Q Q' : α → σ → Prop} {E : ε → σ → Prop}
    (h : Guarded Bad P F x y Q) (h' : Spec P y Q' E) :
    Guarded Bad P F x y fun a s => Q a s ∧ Q' a s where
  spec := fun s hs =>
    ⟨fun a t hy => ⟨(h.spec s hs).1 a t hy, (h' s hs).1 a t hy⟩, (h.spec s hs).2⟩
  same := h.same
  bad := h.bad

theorem bind {x y : EStateM ε σ α} {f g : α → EStateM ε σ β} {Q : α → σ → Prop}
    {R : β → σ → Prop} {G : α → σ → Prop} (hx : Guarded Bad P F x y Q)
    (hf : ∀ a, Guarded Bad (Q a) (G a) (f a) (g a) R) :
    Guarded Bad P (fun s => F s ∧ ∀ a t, y s = .ok a t → G a t) (x >>= f) (y >>= g) R where
  spec := hx.spec.bind fun a => (hf a).spec
  same := by
    intro s hs hF
    rw [bind_apply, bind_apply, hx.same s hs hF.1]
    cases hy : y s with
    | ok a t => exact (hf a).same t ((hx.spec s hs).1 a t hy) (hF.2 a t hy)
    | error e t => rfl
  bad := by
    intro s hs hF
    by_cases hx1 : F s
    · obtain ⟨a, t, hy, hG⟩ : ∃ a t, y s = .ok a t ∧ ¬ G a t := by
        by_contra hno
        apply hF
        refine ⟨hx1, fun a t hy => ?_⟩
        by_contra hG
        exact hno ⟨a, t, hy, hG⟩
      rw [bind_ok ((hx.same s hs hx1).trans hy)]
      exact (hf a).bad t ((hx.spec s hs).1 a t hy) hG
    · obtain ⟨e, t, hxe, he⟩ := hx.bad s hs hx1
      exact ⟨e, t, bind_error hxe, he⟩

/-- When what follows checks nothing. -/
theorem bind_refl {x y : EStateM ε σ α} {f : α → EStateM ε σ β} {Q : α → σ → Prop}
    {R : β → σ → Prop} (hx : Guarded Bad P F x y Q)
    (hf : ∀ a, Spec (Q a) (f a) R fun e _ => ¬ Bad e) :
    Guarded Bad P F (x >>= f) (y >>= f) R :=
  (hx.bind fun a => refl (hf a)).fits fun s _ => by simp

/-- When what comes first checks nothing. -/
theorem refl_bind {x : EStateM ε σ α} {f g : α → EStateM ε σ β} {Q : α → σ → Prop}
    {R : β → σ → Prop} {G : α → σ → Prop} (hx : Spec P x Q fun e _ => ¬ Bad e)
    (hf : ∀ a, Guarded Bad (Q a) (G a) (f a) (g a) R) :
    Guarded Bad P (fun s => ∀ a t, x s = .ok a t → G a t) (x >>= f) (x >>= g) R :=
  ((refl hx).bind hf).fits fun s _ => by simp

/-- When what comes first succeeds, and does not bear on the checks. -/
theorem sure_bind {φ : Prop} {x : EStateM ε σ α} {f g : α → EStateM ε σ β} {Q : α → σ → Prop}
    {R : β → σ → Prop} (hx : Spec P x Q fun _ _ => False)
    (hf : ∀ a, Guarded Bad (Q a) (fun _ => φ) (f a) (g a) R) :
    Guarded Bad P (fun _ => φ) (x >>= f) (x >>= g) R := by
  refine (refl_bind (hx.mono (fun _ hs => hs) (fun _ _ hq => hq) fun _ _ he => he.elim) hf).fits
    fun s hs => ⟨fun h => ?_, fun h _ _ _ => h⟩
  cases hxs : x s with
  | ok a t => exact h a t hxs
  | error e t => exact ((hx s hs).2 e t hxs).elim

/-- Use a fact about the state found by `get`. -/
theorem get_bind {f g : σ → EStateM ε σ β} {R : β → σ → Prop}
    (hf : ∀ a, P a → Guarded Bad (fun s => s = a) F (f a) (g a) R) :
    Guarded Bad P F (get >>= f) (get >>= g) R where
  spec := Spec.get_bind fun a ha => (hf a ha).spec
  same := fun s hs hF => (hf s hs).same s rfl hF
  bad := fun s hs hF => (hf s hs).bad s rfl hF

end Guarded

end Exit
