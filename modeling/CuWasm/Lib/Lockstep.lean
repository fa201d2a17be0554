import CuWasm.Lib.Exit

/-!
# Two computations in lockstep

A relational companion of `Spec`: from related states both computations end in the same way in
related states. Two ways out are left to the first one. It may get into a spoiled state, from which
nothing is promised any more, and it may exit for a reason that is not compared.
-/

namespace Exit

variable {ε σ α β : Type}

/-- The results of two computations fit together. -/
inductive Ends (R : σ → σ → Prop) (B : σ → Prop) (E : ε → Prop) :
    EStateM.Result ε σ α → EStateM.Result ε σ α → Prop where
  | ok (a : α) {s t : σ} (h : R s t) : Ends R B E (.ok a s) (.ok a t)
  | error (e : ε) {s t : σ} (h : R s t) : Ends R B E (.error e s) (.error e t)
  | spoiled {r r' : EStateM.Result ε σ α} (h : B (final r)) : Ends R B E r r'
  | escaped {e : ε} {s : σ} {r' : EStateM.Result ε σ α} (h : E e) : Ends R B E (.error e s) r'

/-- `x` and `y` go in lockstep, and `x` leaves a spoiled state spoiled. -/
structure Lock (R : σ → σ → Prop) (B : σ → Prop) (E : ε → Prop) (x y : EStateM ε σ α) : Prop where
  spoils : ∀ s, B s → B (final (x s))
  ends : ∀ s t, R s t → Ends R B E (x s) (y t)

namespace Lock

variable {R : σ → σ → Prop} {B : σ → Prop} {E : ε → Prop}

theorem bind {x y : EStateM ε σ α} {f g : α → EStateM ε σ β} (hx : Lock R B E x y)
    (hf : ∀ a, Lock R B E (f a) (g a)) : Lock R B E (x >>= f) (y >>= g) := by
  have hpass : ∀ s, B (final (x s)) → B (final ((x >>= f) s)) := by
    intro s hs
    rw [bind_apply]
    cases hxs : x s with
    | ok a s' =>
      rw [hxs] at hs
      exact (hf a).spoils s' hs
    | error e s' =>
      rw [hxs] at hs
      exact hs
  refine ⟨fun s hs => hpass s (hx.spoils s hs), fun s t hst => ?_⟩
  have h := hx.ends s t hst
  generalize hxs : x s = r at h
  generalize hyt : y t = r' at h
  cases h with
  | ok a h =>
    rw [bind_ok hxs, bind_ok hyt]
    exact (hf a).ends _ _ h
  | error e h =>
    rw [bind_error hxs, bind_error hyt]
    exact .error e h
  | spoiled h =>
    rw [← hxs] at h
    exact .spoiled (hpass s h)
  | escaped h =>
    rw [bind_error hxs]
    exact .escaped h

theorem pure (a : α) : Lock R B E (pure a : EStateM ε σ α) (pure a) :=
  ⟨fun _ h => h, fun _ _ h => .ok a h⟩

theorem throw (e : ε) : Lock R B E (throw e : EStateM ε σ α) (throw e) :=
  ⟨fun _ h => h, fun _ _ h => .error e h⟩

theorem ite {c : Prop} [Decidable c] {x y x' y' : EStateM ε σ α} (hx : Lock R B E x x')
    (hy : Lock R B E y y') : Lock R B E (if c then x else y) (if c then x' else y') := by
  split
  · exact hx
  · exact hy

/-- A test that exits: the shape `if c then throw e` has in a `do` block. -/
theorem guard {c : Prop} [Decidable c] {e : ε} {k k' : PUnit → EStateM ε σ α}
    (h : Lock R B E (k ⟨⟩) (k' ⟨⟩)) :
    Lock R B E (if c then MonadExcept.throw e >>= k else k ⟨⟩)
      (if c then MonadExcept.throw e >>= k' else k' ⟨⟩) := by
  refine ite ⟨fun _ hs => hs, fun _ _ hst => ?_⟩ h
  exact .error e hst

/-- What follows a `get` may use a part `Q` of the relation that every state has with itself. -/
theorem get_bind {Q : σ → σ → Prop} {f g : σ → EStateM ε σ α} (hrefl : ∀ a, Q a a)
    (hQ : ∀ a b, R a b → Q a b) (h : ∀ a b, Q a b → Lock R B E (f a) (g b)) :
    Lock R B E (get >>= f) (get >>= g) :=
  ⟨fun s hs => (h s s (hrefl s)).spoils s hs, fun s t hst => (h s t (hQ s t hst)).ends s t hst⟩

theorem modify {f g : σ → σ} (hB : ∀ s, B s → B (f s)) (h : ∀ s t, R s t → R (f s) (g t)) :
    Lock R B E (modify f : EStateM ε σ PUnit) (modify g) :=
  ⟨hB, fun s t hst => .ok _ (h s t hst)⟩

end Lock

end Exit
