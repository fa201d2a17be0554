import CuWasm.Meaning
import CuWasm.Proofs.HeightProofs

/-!
# Where the code of a body stands

The pass counts its position: behind a sequence it stands as many instructions further as it has
emitted. So the code of a body splits at the same places as the body.
-/

namespace CuWasm

open Wasm

namespace Structured

variable {env : LowerEnv} {L : List Label} {ghost : Bool} {st st' : State} {is : Items}

/-- The position moves by the number of items. -/
def Counts (st : State) (y : Option (Items × State)) : Prop :=
  ∀ is st', y = some (is, st') → st'.pc = st.pc + is.length

theorem counts_andThen {y : Option (Items × State)} {y' : State → Option (Items × State)}
    (h : Counts st y) (h' : ∀ st1, Counts st1 (y' st1)) : Counts st (andThen y y') := by
  intro is st' hs
  obtain ⟨is1, st1, is2, h1, h2, rfl⟩ := andThen_eq_some.mp hs
  rw [h' st1 is2 st' h2, h is1 st1 h1, List.length_append, Nat.add_assoc]

theorem counts_kill {y : Option (Items × State)} (h : Counts st y) : Counts st (y.map kill) := by
  intro is st' hs
  obtain ⟨⟨is1, st1⟩, h1, h2⟩ := Option.map_eq_some_iff.mp hs
  cases h2
  exact h is1 st1 h1

theorem counts_plain (op : Opcode) (a b pops pushes : Nat) (consts : List Slot) :
    Counts st (plain ghost op a b pops pushes { st with consts := consts }) := by
  intro is st' hs
  obtain ⟨st1, h1, h2⟩ := Option.map_eq_some_iff.mp hs
  cases h2
  exact (consume_dead h1).2.1

theorem counts_branch (k : Nat) : Counts st (branch env L ghost k st) := by
  intro is st' hs
  cases hk : L[k]? with
  | none =>
    unfold branch at hs
    rw [hk] at hs
    cases hs
  | some l =>
    by_cases hf : l.Fits st
    · rw [branch_some env L ghost st hk hf] at hs
      cases hs
      rfl
    · rw [branch_none env L ghost st hk hf] at hs
      cases hs

theorem counts_branchIf (k : Nat) : Counts st (branchIf env L ghost k st) := by
  intro is st' hs
  unfold branchIf at hs
  obtain ⟨st1, -, h2⟩ := Option.bind_eq_some_iff.mp hs
  obtain ⟨⟨is2, st2⟩, h3, h4⟩ := Option.map_eq_some_iff.mp h2
  cases h4
  have h5 := counts_branch k is2 st2 h3
  simp only at h5
  change st2.pc = st.pc + (is2.length + 1)
  omega

theorem counts_tableArms (scratch : Nat) (ks : List Nat) (i : Nat) :
    Counts st (tableArms env L ghost scratch i ks st) := by
  induction ks generalizing i st with
  | nil =>
    intro is st' hs
    cases hs
    rfl
  | cons k ks ih =>
    refine counts_andThen ?_ fun st1 => ih (i + 1)
    unfold tableArm
    refine counts_andThen (counts_plain _ _ _ _ _ _) fun st1 => ?_
    refine counts_andThen (counts_plain _ _ _ _ _ _) fun st2 => ?_
    exact counts_andThen (counts_plain _ _ _ _ _ _) fun _ => counts_branchIf k

theorem counts_operator (o : Operator) : Counts st (operator env L ghost o st) := by
  have hform := operator_form env L ghost st o
  generalize operator env L ghost o st = y at hform
  cases hform with
  | rejected => exact nofun
  | reinterpret x =>
    intro is st' hs
    obtain ⟨st1, h1, h2⟩ := Option.map_eq_some_iff.mp hs
    cases h2
    exact (consume_dead h1).2.1
  | plain o op a b pops pushes h => exact counts_plain _ _ _ _ _ _
  | nop | tee i | emit o i | kill o i =>
    intro is st' hs
    cases hs
    rfl
  | br k => exact counts_kill (counts_branch k)
  | brIf k => exact counts_branchIf k
  | brTable ks k =>
    unfold table
    cases env.scratch with
    | none => exact nofun
    | some scratch =>
      refine counts_andThen (counts_plain _ _ _ _ _ _) fun st1 => ?_
      exact counts_andThen (counts_tableArms scratch ks 0) fun st2 => counts_kill (counts_branch k)

theorem counts_body (b : Body) : ∀ {L : List Label} {ghost : Bool} {st : State},
    Counts st (body env L ghost st b) := by
  induction b with
  | nil =>
    intro L ghost st is st' hs
    cases hs
    rfl
  | op o rest ih =>
    intro L ghost st
    rw [body]
    exact counts_andThen (counts_operator o) fun _ => ih
  | block bt b rest ihb ihr =>
    intro L ghost st is st' hs
    obtain ⟨a, ha, base, he, isb, stb, isr, h1, h2, rfl⟩ := body_block_some.mp hs
    have hb := ihb isb stb h1
    have hr := ihr isr st' h2
    rw [hr, List.length_append, close_length, State.leave, hb, Nat.add_assoc]
  | loop bt b rest ihb ihr =>
    intro L ghost st is st' hs
    obtain ⟨a, ha, base, he, isb, stb, isr, h1, h2, rfl⟩ := body_loop_some.mp hs
    have hb := ihb isb stb h1
    have hr := ihr isr st' h2
    rw [hr, List.length_append, close_length, State.leave, hb, Nat.add_assoc]
  | ifThen bt b rest ihb ihr =>
    intro L ghost st is st' hs
    obtain ⟨a, ha, st0, hc, base, he, isb, stb, isr, h1, h2, rfl⟩ := body_ifThen_some.mp hs
    have hb := ihb isb stb h1
    have hr := ihr isr st' h2
    simp only at hb
    rw [hr, State.leave, hb, List.length_append, List.length_cons, close_length]
    omega
  | ifElse bt b els rest ihb ihe ihr =>
    intro L ghost st is st' hs
    obtain ⟨a, ha, st0, hc, base, he, isb, stb, ise, ste, isr, h1, h2, h3, rfl⟩ :=
      body_ifElse_some.mp hs
    have hb := ihb isb stb h1
    have he' := ihe ise ste h2
    have hr := ihr isr st' h3
    simp only at hb he'
    rw [hr, State.leave, he', hb, List.length_append, List.length_cons, List.length_append,
      List.length_cons, close_length, close_length]
    omega

end Structured

open Structured

section Code

variable {m : HostModule} {T : Nat → Nat} {pc t : Nat} {is js : Items}

theorem codeAt_append :
    CodeAt m T pc (is ++ js) ↔ CodeAt m T pc is ∧ CodeAt m T (pc + is.length) js :=
  List.allFrom_append

/-- The code of a block, seen from inside. -/
theorem codeAt_close : CodeAt m T pc (close t is) ↔ CodeAt m (ends t T) pc is := by
  unfold CodeAt close
  rw [List.allFrom_map]
  simp only [resolve_render]

end Code

end CuWasm
