import Mathlib.Logic.Function.Iterate
import Mathlib.Data.List.Count
import Mathlib.Data.List.Infix

/-!
# Threads on a shared state

Threads take single steps in the order of a schedule. A step changes the thread and the state that
all threads share. When every thread keeps to the part of the shared state that only it can see, the
schedule does not matter: each thread gets where its own steps would have taken it alone.
-/

namespace Interleave

variable {ι τ σ : Type*}

section Run

variable (step : ι → τ → σ → τ × σ)

/-- A step of the thread `i` with the shared state to itself. -/
def alone (i : ι) (w : τ × σ) : τ × σ := step i w.1 w.2

/-- The thread `i` on the shared state. -/
def world (b : (ι → τ) × σ) (i : ι) : τ × σ := (b.1 i, b.2)

variable [DecidableEq ι]

/-- The threads and the shared state after the threads of the schedule have taken one step each. -/
def run : List ι → (ι → τ) × σ → (ι → τ) × σ
  | [], b => b
  | i :: sched, (ts, x) =>
    let p := step i (ts i) x
    run sched (Function.update ts i p.1, p.2)

theorem world_update_self (ts : ι → τ) (i : ι) (w : τ × σ) :
    world (Function.update ts i w.1, w.2) i = w :=
  Prod.ext (Function.update_self ..) rfl

theorem world_update_of_ne {i j : ι} (hij : i ≠ j) (ts : ι → τ) (w : τ × σ) :
    world (Function.update ts j w.1, w.2) i = (ts i, w.2) :=
  Prod.ext (Function.update_of_ne hij ..) rfl

theorem run_append (sched sched' : List ι) (b : (ι → τ) × σ) :
    run step (sched ++ sched') b = run step sched' (run step sched b) := by
  induction sched generalizing b with
  | nil => rfl
  | cons i sched ih => exact ih _

theorem run_concat (sched : List ι) (i : ι) (b : (ι → τ) × σ) :
    run step (sched ++ [i]) b =
      (Function.update (run step sched b).1 i (alone step i (world (run step sched b) i)).1,
        (alone step i (world (run step sched b) i)).2) := run_append step sched [i] b

end Run

/-- `sees i w w'` says that the thread of `w'`, on the shared state of `w'`, looks like `w` to the
thread `i`. A step from a good state shows the thread that takes it the same in both, and shows
another thread nothing. -/
structure Separated (step : ι → τ → σ → τ × σ) (sees : ι → τ × σ → τ × σ → Prop)
    (good : ι → τ × σ → Prop) : Prop where
  refl : ∀ i w, sees i w w
  symm : ∀ i w w', sees i w w' → sees i w' w
  own : ∀ i w w', good i w → sees i w w' → sees i (alone step i w) (alone step i w')
  frame : ∀ i j w u t t' x, i ≠ j → good j w → sees j w (t', x) → sees i u (t, x) →
    sees i u (t, (step j t' x).2)

namespace Separated

variable [DecidableEq ι] {step : ι → τ → σ → τ × σ} {sees : ι → τ × σ → τ × σ → Prop}
  {good : ι → τ × σ → Prop}

/-- After any schedule, every thread is where it gets alone with as many steps. -/
theorem run (h : Separated step sees good) (sched : List ι) {w : ι → τ × σ} {ts : ι → τ} {x : σ}
    (hsees : ∀ i, sees i (w i) (ts i, x))
    (hgood : ∀ i k, k < sched.count i → good i ((alone step i)^[k] (w i))) (i : ι) :
    sees i ((alone step i)^[sched.count i] (w i))
      ((Interleave.run step sched (ts, x)).1 i, (Interleave.run step sched (ts, x)).2) := by
  induction sched generalizing w ts x with
  | nil => exact hsees i
  | cons j sched ih =>
    have hj : good j (w j) := hgood j 0 (by rw [List.count_cons_self]; exact Nat.succ_pos _)
    -- after the step of `j` its private world is one step further, the others are as before
    have hnext : ∀ i, sees i (Function.update w j (alone step j (w j)) i)
        (Function.update ts j (step j (ts j) x).1 i, (step j (ts j) x).2) := by
      intro i
      by_cases hij : i = j
      · subst hij
        rw [Function.update_self, Function.update_self]
        exact h.own i _ _ hj (hsees i)
      · rw [Function.update_of_ne hij, Function.update_of_ne hij]
        exact h.frame i j _ _ _ _ _ hij hj (hsees j) (hsees i)
    have hiter (i : ι) (k : Nat) :
        (alone step i)^[k] (Function.update w j (alone step j (w j)) i) =
          (alone step i)^[k + if j = i then 1 else 0] (w i) := by
      by_cases hij : j = i
      · subst hij
        rw [Function.update_self, if_pos rfl, Function.iterate_succ_apply]
      · rw [Function.update_of_ne (Ne.symm hij), if_neg hij, Nat.add_zero]
    have hcount (i : ι) : (j :: sched).count i = sched.count i + if j = i then 1 else 0 := by
      rw [List.count_cons]
      simp only [beq_iff_eq]
    have := ih (w := Function.update w j (alone step j (w j))) hnext fun i k hk => by
      rw [hiter]
      exact hgood i _ (by rw [hcount]; exact Nat.add_lt_add_right hk _)
    rw [hiter, ← hcount] at this
    exact this

/-- The steps of the schedule taken together: an invariant of every thread that makes the steps it is
ready for good ones. Then all steps are good, and every thread is where it gets alone. -/
theorem together (h : Separated step sees good) (inv ready : ι → τ × σ → Prop)
    (hcongr : ∀ i w w', sees i w w' → inv i w → inv i w')
    (hstep : ∀ i w, inv i w → ready i w → good i w ∧ inv i (alone step i w))
    {w : ι → τ × σ} {b : (ι → τ) × σ} (hsees : ∀ i, sees i (w i) (world b i))
    (hinv : ∀ i, inv i (world b i)) (sched : List ι)
    (hready : ∀ pre i, pre ++ [i] <+: sched → ready i (world (Interleave.run step pre b) i)) :
    (∀ pre i, pre ++ [i] <+: sched → good i (world (Interleave.run step pre b) i)) ∧
      ∀ i, inv i (world (Interleave.run step sched b) i) ∧
        sees i ((alone step i)^[sched.count i] (w i)) (world (Interleave.run step sched b) i) := by
  induction sched using List.reverseRecOn with
  | nil => exact ⟨fun pre i hp => by simp at hp, fun i => ⟨hinv i, hsees i⟩⟩
  | append_singleton sched j ih =>
    obtain ⟨hgood, hall⟩ := ih fun pre i hp => hready pre i (hp.trans (List.prefix_append _ _))
    obtain ⟨hj, hnext⟩ := hstep j _ (hall j).1 (hready sched j List.prefix_rfl)
    refine ⟨fun pre i hp => ?_, fun i => ?_⟩
    · obtain heq | hp := List.prefix_concat_iff.mp hp
      · obtain ⟨rfl, hij⟩ := List.append_inj' heq rfl
        cases hij
        exact hj
      · exact hgood pre i hp
    · rw [List.count_append, List.count_singleton, run_concat]
      by_cases hij : i = j
      · subst hij
        have hown := h.own i _ _ hj (h.symm i _ _ (hall i).2)
        rw [world_update_self, beq_self_eq_true, if_pos rfl, Function.iterate_succ_apply']
        exact ⟨hnext, h.symm i _ _ hown⟩
      · -- the step of `j` shows the thread `i` nothing
        have hframe (u : τ × σ) (hu : sees i u (world (Interleave.run step sched b) i)) :=
          h.frame i j _ u _ _ _ hij hj (h.refl j _) hu
        rw [world_update_of_ne hij, if_neg (by simpa using Ne.symm hij), Nat.add_zero]
        exact ⟨hcongr i _ _ (hframe _ (h.refl i _)) (hall i).1, hframe _ (hall i).2⟩

end Separated

end Interleave
