import CuWasm.Lib.AllFrom
import CuWasm.Proofs.LowerProofs
import CuWasm.Proofs.VerifyProofs

/-!
# The heights of the lowering solve the verifier's flow equations

The heights next to the items of the structured pass are a solution of the equations that
`verify_cuop` solves with its worklist: they are consistent along every fall-through and every branch
of the emitted code. Positions behind an unconditional branch carry `-1`, and no edge leads there.
-/

namespace CuWasm

open Wasm Structured

namespace Structured

variable {env : LowerEnv} {C : Ctx} {L : List Label} {ghost : Bool} {st st' : State} {is : Items}
  {o : Operator}

/-! ## The shapes of a lowered operator -/

/-- Control does not fall through the item. -/
def Item.stops : Item → Prop
  | .code i => i.op = .br ∨ i.op = .ret ∨ i.op = .returnCall ∨ i.op = .unreachable
  | .jump _ => True

/-- Every arm of the lowering has one of these shapes. -/
inductive OpForm (env : LowerEnv) (L : List Label) (ghost : Bool) (st : State) :
    Operator → Option (Items × State) → Prop where
  | rejected (o : Operator) : OpForm env L ghost st o none
  | nop : OpForm env L ghost st .nop (some ([], st))
  | reinterpret (x : Reinterpret) :
      OpForm env L ghost st (.reinterpret x) ((consume 1 1 st).map fun st => ([], st))
  | plain (o : Operator) (op : Opcode) (a b pops pushes : Nat) {consts : List Slot}
      (h : st.consts <+: consts) :
      OpForm env L ghost st o (plain ghost op a b pops pushes { st with consts := consts })
  | tee (i : Nat) :
      OpForm env L ghost st (.localTee i)
        (some ([(.code ⟨.localSet, i % 2 ^ 16, 0⟩, st.mark ghost st.h),
          (.code ⟨.localGet, i % 2 ^ 16, 0⟩, st.mark ghost (st.h - 1))], { st with pc := st.pc + 2 }))
  | emit (o : Operator) (i : CuOp) : OpForm env L ghost st o (some (emit ghost i st))
  | kill (o : Operator) (i : CuOp) (h : (Item.code i).stops) :
      OpForm env L ghost st o (some (kill (Structured.emit ghost i st)))
  | br (k : Nat) : OpForm env L ghost st (.br k) ((branch env L ghost k st).map Structured.kill)
  | brIf (k : Nat) : OpForm env L ghost st (.brIf k) (branchIf env L ghost k st)
  | brTable (ks : List Nat) (k : Nat) :
      OpForm env L ghost st (.brTable ks k) (table env L ghost ks k st)

theorem intern_grows (x : Slot) (consts : List Slot) : consts <+: (intern x consts).2 := by
  unfold intern
  cases consts.findIdx? (· == x) with
  | none => exact List.prefix_append ..
  | some i => exact List.prefix_rfl

theorem operator_form (env : LowerEnv) (L : List Label) (ghost : Bool) (st : State) (o : Operator) :
    OpForm env L ghost st o (operator env L ghost o st) := by
  have hplain : ∀ op a b pops pushes, OpForm env L ghost st o (plain ghost op a b pops pushes st) :=
    fun op a b pops pushes => .plain o op a b pops pushes List.prefix_rfl
  cases o with
  | nop => exact .nop
  | localTee i => exact .tee i
  | const c => exact .plain _ _ _ _ _ _ (intern_grows _ _)
  | br k => exact .br k
  | brIf k => exact .brIf k
  | brTable ks k => exact .brTable ks k
  | unreachable => exact .kill _ _ (.inr (.inr (.inr rfl)))
  | return_ => exact .kill _ _ (.inr (.inl rfl))
  | dataDrop di => exact .emit _ _
  | reinterpret x => exact .reinterpret x
  | call fi =>
    simp only [operator]
    cases funcArity fi env.funcTypes env.funcTypeidx with
    | error e => exact .rejected _
    | ok a =>
      simp only
      split_ifs
      · cases env.hostFnIds[fi]? with
        | none => exact .rejected _
        | some fnId => exact hplain _ _ _ _ _
      · exact hplain _ _ _ _ _
  | returnCall fi =>
    simp only [operator]
    split_ifs
    · exact .rejected _
    · exact .kill _ _ (.inr (.inr (.inl rfl)))
  | callIndirect ti tab =>
    simp only [operator]
    split_ifs
    · exact .rejected _
    · cases env.funcTypes[ti]? with
      | none => exact .rejected _
      | some ft => exact hplain _ _ _ _ _
  | load x ma | store x ma =>
    simp only [operator]
    cases checkMemarg ma with
    | error e => exact .rejected _
    | ok off => exact hplain _ _ _ _ _
  | memorySize mem | memoryGrow mem | memoryCopy dst src | memoryFill mem | memoryInit di mem =>
    simp only [operator]
    split_ifs
    · exact .rejected _
    · exact hplain _ _ _ _ _
  | drop | select | typedSelect _ | num _ | globalGet _ | globalSet _ | localGet _ | localSet _ =>
    exact hplain _ _ _ _ _
  | _ => exact .rejected _

/-! ## Code that nothing reaches -/

theorem mark_ghost (h : (st.dead || ghost) = true) (n : Nat) : st.mark ghost n = -1 := by
  unfold State.mark
  rw [if_pos h]

theorem mark_live (h : st.dead = false) (hg : ghost = false) (n : Nat) : st.mark ghost n = n := by
  unfold State.mark
  rw [h, hg]
  rfl

/-- The pass from `st` to `st'` stays behind an unconditional branch, and marks its items so. -/
def Unreached (ghost : Bool) (st : State) (y : Option (Items × State)) : Prop :=
  ∀ is st', y = some (is, st') → (st.dead = true → st'.dead = true) ∧
    ((st.dead || ghost) = true → ∀ p ∈ is, p.2 = -1)

theorem unreached_andThen {y : Option (Items × State)} {y' : State → Option (Items × State)}
    (h : Unreached ghost st y) (h' : ∀ is1 st1, y = some (is1, st1) → Unreached ghost st1 (y' st1)) :
    Unreached ghost st (andThen y y') := by
  intro is st' hs
  obtain ⟨is1, st1, is2, h1, h2, rfl⟩ := andThen_eq_some.mp hs
  obtain ⟨h3, h4⟩ := h is1 st1 h1
  obtain ⟨h5, h6⟩ := h' is1 st1 h1 is2 st' h2
  refine ⟨fun hd => h5 (h3 hd), fun hg p hp => ?_⟩
  obtain hp | hp := List.mem_append.mp hp
  · exact h4 hg p hp
  · refine h6 ?_ p hp
    rw [Bool.or_eq_true] at hg ⊢
    exact hg.imp_left h3

theorem unreached_kill {y : Option (Items × State)} (h : Unreached ghost st y) :
    Unreached ghost st (y.map kill) := by
  intro is st' hs
  obtain ⟨⟨is1, st1⟩, h1, h2⟩ := Option.map_eq_some_iff.mp hs
  cases h2
  exact ⟨fun _ => rfl, (h is1 st1 h1).2⟩

theorem unreached_emit (i : CuOp) : Unreached ghost st (some (emit ghost i st)) := by
  intro is st' hs
  cases hs
  refine ⟨id, fun hg p hp => ?_⟩
  rw [List.mem_singleton.mp hp]
  exact mark_ghost hg _

theorem unreached_plain (op : Opcode) (a b pops pushes : Nat) (consts : List Slot) :
    Unreached ghost st (plain ghost op a b pops pushes { st with consts := consts }) := by
  intro is st' hs
  unfold plain emit at hs
  obtain ⟨st1, h1, h2⟩ := Option.map_eq_some_iff.mp hs
  cases h2
  have hdead := (consume_dead h1).1
  refine ⟨fun h => hdead.trans h, fun hg p hp => ?_⟩
  rw [List.mem_singleton.mp hp]
  exact mark_ghost hg _

theorem unreached_consume (pops pushes : Nat) :
    Unreached ghost st ((consume pops pushes st).map fun st => ([], st)) := by
  intro is st' hs
  obtain ⟨st1, h1, h2⟩ := Option.map_eq_some_iff.mp hs
  cases h2
  exact ⟨fun h => (consume_dead h1).1.trans h, fun _ _ hp => by cases hp⟩

theorem unreached_branch (k : Nat) : Unreached ghost st (branch env L ghost k st) := by
  intro is st' hs
  cases hk : L[k]? with
  | none => simp [branch, hk] at hs
  | some l =>
    by_cases hf : l.Fits st
    · rw [branch_some env L ghost st hk hf] at hs
      cases hs
      refine ⟨id, fun hg p hp => ?_⟩
      unfold branchItems at hp
      obtain hp | hp := List.mem_append.mp hp
      · split_ifs at hp
        · rw [List.mem_singleton.mp hp]
          exact mark_ghost hg _
        · cases hp
      · rw [List.mem_singleton.mp hp]
        exact mark_ghost hg _
    · rw [branch_none env L ghost st hk hf] at hs
      cases hs

theorem unreached_branchIf (k : Nat) : Unreached ghost st (branchIf env L ghost k st) := by
  intro is st' hs
  unfold branchIf at hs
  obtain ⟨st1, h1, h2⟩ := Option.bind_eq_some_iff.mp hs
  obtain ⟨⟨is2, st2⟩, h3, h4⟩ := Option.map_eq_some_iff.mp h2
  cases h4
  have hdead := (consume_dead h1).1
  obtain ⟨h5, h6⟩ := unreached_branch k is2 st2 h3
  refine ⟨fun h => h5 (hdead.trans h), fun hg p hp => ?_⟩
  obtain rfl | hp := List.mem_cons.mp hp
  · exact mark_ghost hg _
  · refine h6 ?_ p hp
    rw [← hg]
    exact congrArg (· || ghost) hdead

theorem unreached_tableArms (scratch : Nat) (ks : List Nat) (i : Nat) :
    Unreached ghost st (tableArms env L ghost scratch i ks st) := by
  induction ks generalizing i st with
  | nil =>
    intro is st' hs
    cases hs
    exact ⟨id, fun _ _ hp => by cases hp⟩
  | cons k ks ih =>
    refine unreached_andThen ?_ fun is1 st1 _ => ih (i + 1)
    unfold tableArm
    refine unreached_andThen (unreached_plain _ _ _ _ _ _) fun _ st1 _ => ?_
    refine unreached_andThen (unreached_plain _ _ _ _ _ st1.consts) fun _ st2 _ => ?_
    exact unreached_andThen (unreached_plain _ _ _ _ _ st2.consts) fun _ _ _ => unreached_branchIf k

theorem unreached_table (ks : List Nat) (k : Nat) : Unreached ghost st (table env L ghost ks k st) := by
  unfold table
  cases env.scratch with
  | none => exact nofun
  | some scratch =>
    refine unreached_andThen (unreached_plain _ _ _ _ _ st.consts) fun _ st1 _ => ?_
    exact unreached_andThen (unreached_tableArms scratch ks 0)
      fun _ _ _ => unreached_kill (unreached_branch k)

theorem unreached_operator (o : Operator) : Unreached ghost st (operator env L ghost o st) := by
  have hform := operator_form env L ghost st o
  generalize operator env L ghost o st = y at hform
  cases hform with
  | rejected => exact nofun
  | nop =>
    intro is st' hs
    cases hs
    exact ⟨id, fun _ _ hp => by cases hp⟩
  | reinterpret x => exact unreached_consume 1 1
  | plain o op a b pops pushes h => exact unreached_plain _ _ _ _ _ _
  | tee i =>
    intro is st' hs
    cases hs
    refine ⟨id, fun hg p hp => ?_⟩
    simp only [List.mem_cons, List.not_mem_nil, or_false] at hp
    obtain rfl | rfl := hp <;> exact mark_ghost hg _
  | emit o i => exact unreached_emit i
  | kill o i => exact unreached_kill (unreached_emit i)
  | br k => exact unreached_kill (unreached_branch k)
  | brIf k => exact unreached_branchIf k
  | brTable ks k => exact unreached_table ks k

theorem close_marks {t : Nat} {is : Items} (h : ∀ p ∈ is, p.2 = -1) : ∀ p ∈ close t is, p.2 = -1 := by
  intro p hp
  obtain ⟨q, hq, rfl⟩ := List.mem_map.mp hp
  exact h q hq

/-- Nothing in a body behind an unconditional branch, or in a ghost arm, is marked as reached. -/
theorem unreached_body (b : Body) : ∀ {L : List Label} {ghost : Bool} {st : State},
    Unreached ghost st (body env L ghost st b) := by
  induction b with
  | nil =>
    intro L ghost st is st' hs
    cases hs
    exact ⟨id, fun _ _ hp => by cases hp⟩
  | op o rest ih =>
    intro L ghost st
    rw [body]
    exact unreached_andThen (unreached_operator o) fun _ _ _ => ih
  | block bt b rest ihb ihr | loop bt b rest ihb ihr =>
    intro L ghost st is st' hs
    first
    | obtain ⟨a, ha, base, he, isb, stb, isr, h1, h2, rfl⟩ := body_block_some.mp hs
    | obtain ⟨a, ha, base, he, isb, stb, isr, h1, h2, rfl⟩ := body_loop_some.mp hs
    obtain ⟨h3, h4⟩ := ihr isr st' h2
    refine ⟨h3, fun hg p hp => ?_⟩
    obtain hp | hp := List.mem_append.mp hp
    · exact close_marks ((ihb isb stb h1).2 hg) p hp
    · exact h4 hg p hp
  | ifThen bt b rest ihb ihr =>
    intro L ghost st is st' hs
    obtain ⟨a, ha, st0, hc, base, he, isb, stb, isr, h1, h2, rfl⟩ := body_ifThen_some.mp hs
    obtain ⟨h3, h4⟩ := ihr isr st' h2
    have hdead := (consume_dead hc).1
    refine ⟨h3, fun hg p hp => ?_⟩
    obtain hp | hp := List.mem_append.mp hp
    · obtain rfl | hp := List.mem_cons.mp hp
      · exact mark_ghost hg _
      · exact close_marks ((ihb isb stb h1).2 (by rw [← hg]; exact congrArg (· || ghost) hdead)) p hp
    · exact h4 hg p hp
  | ifElse bt b els rest ihb ihe ihr =>
    intro L ghost st is st' hs
    obtain ⟨a, ha, st0, hc, base, he, isb, stb, ise, ste, isr, h1, h2, h3, rfl⟩ :=
      body_ifElse_some.mp hs
    obtain ⟨h4, h5⟩ := ihr isr st' h3
    have hdead := (consume_dead hc).1
    refine ⟨h4, fun hg p hp => ?_⟩
    have hg0 : (st0.dead || ghost) = true := by rw [← hg, hdead]
    obtain ⟨h6, h7⟩ := ihb isb stb h1
    obtain hp | hp := List.mem_append.mp hp
    · obtain rfl | hp := List.mem_cons.mp hp
      · exact mark_ghost hg _
      · obtain hp | hp := List.mem_append.mp hp
        · exact close_marks (h7 hg0) p hp
        · obtain rfl | hp := List.mem_cons.mp hp
          · refine mark_ghost ?_ _
            rw [Bool.or_eq_true] at hg0 ⊢
            exact hg0.imp_left h6
          · refine close_marks ((ihe ise ste h2).2 ?_) p hp
            simp only [Bool.false_or]
            rw [Bool.or_comm]
            exact hg
    · exact h5 hg p hp

/-! ## The end of the live code -/

/-- Control does not get behind the items: one of them stops it, and nothing behind that one is marked
as reached. -/
def Stopped (is : Items) : Prop :=
  ∃ pre p post, is = pre ++ p :: post ∧ p.1.stops ∧ ∀ q ∈ post, q.2 = -1

/-- The dead-code flag stays as it is. -/
def KeepsFlag (st : State) (y : Option (Items × State)) : Prop :=
  ∀ is st', y = some (is, st') → st'.dead = st.dead

/-- The dead-code flag is set only where control is stopped. -/
def Stops (st : State) (y : Option (Items × State)) : Prop :=
  ∀ is st', y = some (is, st') → st.dead = false → st'.dead = true → Stopped is

theorem KeepsFlag.stops {y : Option (Items × State)} (h : KeepsFlag st y) : Stops st y := by
  intro is st' hs hlive hdead
  rw [h is st' hs, hlive] at hdead
  cases hdead

theorem Stopped.before (js : Items) (h : Stopped is) : Stopped (js ++ is) := by
  obtain ⟨pre, p, post, rfl, hp, hpost⟩ := h
  exact ⟨js ++ pre, p, post, by rw [List.append_assoc], hp, hpost⟩

theorem stops_andThen {y : Option (Items × State)} {y' : State → Option (Items × State)}
    (h : Stops st y) (h' : ∀ is st1, y = some (is, st1) → Stops st1 (y' st1))
    (hun : ∀ st1, Unreached false st1 (y' st1)) : Stops st (andThen y y') := by
  intro is st' hs hlive hdead
  obtain ⟨is1, st1, is2, h1, h2, rfl⟩ := andThen_eq_some.mp hs
  cases hd : st1.dead with
  | false => exact (h' is1 st1 h1 is2 st' h2 hd hdead).before is1
  | true =>
    obtain ⟨pre, p, post, rfl, hp, hpost⟩ := h is1 st1 h1 hlive hd
    refine ⟨pre, p, post ++ is2, by simp, hp, fun q hq => ?_⟩
    rcases List.mem_append.mp hq with hq | hq
    · exact hpost q hq
    · exact (hun st1 is2 st' h2).2 (by rw [hd]; rfl) q hq

theorem keepsFlag_andThen {y : Option (Items × State)} {y' : State → Option (Items × State)}
    (h : KeepsFlag st y) (h' : ∀ st1, KeepsFlag st1 (y' st1)) : KeepsFlag st (andThen y y') := by
  intro is st' hs
  obtain ⟨is1, st1, is2, h1, h2, rfl⟩ := andThen_eq_some.mp hs
  exact (h' st1 is2 st' h2).trans (h is1 st1 h1)

theorem keepsFlag_plain (op : Opcode) (a b pops pushes : Nat) (consts : List Slot) :
    KeepsFlag st (plain ghost op a b pops pushes { st with consts := consts }) := by
  intro is st' hs
  obtain ⟨st1, h1, h2⟩ := Option.map_eq_some_iff.mp hs
  cases h2
  exact (consume_dead h1).1

/-- A branch ends in its jump. -/
theorem branch_stopped {k : Nat} (hs : branch env L ghost k st = some (is, st')) :
    Stopped is ∧ st'.dead = st.dead := by
  cases hk : L[k]? with
  | none => simp [branch, hk] at hs
  | some l =>
    by_cases hf : l.Fits st
    · rw [branch_some env L ghost st hk hf] at hs
      cases hs
      refine ⟨⟨_, _, [], rfl, ?_, List.forall_mem_nil _⟩, rfl⟩
      unfold jumpItem
      cases l.start with
      | none => trivial
      | some pc => exact .inl rfl
    · rw [branch_none env L ghost st hk hf] at hs
      cases hs

theorem stops_kill_branch (k : Nat) : Stops st ((branch env L ghost k st).map Structured.kill) := by
  intro is st' hs _ _
  obtain ⟨⟨is1, st1⟩, h1, h2⟩ := Option.map_eq_some_iff.mp hs
  cases h2
  exact (branch_stopped h1).1

theorem keepsFlag_branchIf (k : Nat) : KeepsFlag st (branchIf env L ghost k st) := by
  intro is st' hs
  unfold branchIf at hs
  obtain ⟨st1, h1, h2⟩ := Option.bind_eq_some_iff.mp hs
  obtain ⟨⟨is2, st2⟩, h3, h4⟩ := Option.map_eq_some_iff.mp h2
  cases h4
  exact (branch_stopped h3).2.trans (consume_dead h1).1

theorem keepsFlag_tableArms (scratch : Nat) (ks : List Nat) (i : Nat) :
    KeepsFlag st (tableArms env L ghost scratch i ks st) := by
  induction ks generalizing i st with
  | nil =>
    intro is st' hs
    cases hs
    rfl
  | cons k ks ih =>
    refine keepsFlag_andThen ?_ fun st1 => ih (i + 1)
    unfold tableArm
    refine keepsFlag_andThen (keepsFlag_plain _ _ _ _ _ _) fun st1 => ?_
    refine keepsFlag_andThen (keepsFlag_plain _ _ _ _ _ st1.consts) fun st2 => ?_
    exact keepsFlag_andThen (keepsFlag_plain _ _ _ _ _ st2.consts) fun _ => keepsFlag_branchIf k

theorem stops_operator (o : Operator) : Stops st (operator env L false o st) := by
  have hform := operator_form env L false st o
  generalize operator env L false o st = y at hform
  cases hform with
  | rejected => exact nofun
  | nop | tee i | emit o i =>
    refine KeepsFlag.stops fun is st' hs => ?_
    cases hs
    rfl
  | reinterpret x =>
    refine KeepsFlag.stops fun is st' hs => ?_
    obtain ⟨st1, h1, h2⟩ := Option.map_eq_some_iff.mp hs
    cases h2
    exact (consume_dead h1).1
  | plain o op a b pops pushes h => exact (keepsFlag_plain _ _ _ _ _ _).stops
  | kill o i h =>
    intro is st' hs _ _
    cases hs
    exact ⟨[], _, [], rfl, h, List.forall_mem_nil _⟩
  | br k => exact stops_kill_branch k
  | brIf k => exact (keepsFlag_branchIf k).stops
  | brTable ks k =>
    unfold table
    cases env.scratch with
    | none => exact nofun
    | some scratch =>
      refine stops_andThen (keepsFlag_plain _ _ _ _ _ st.consts).stops (fun _ st1 _ => ?_) fun st1 =>
        unreached_andThen (unreached_tableArms scratch ks 0) fun _ _ _ =>
          unreached_kill (unreached_branch k)
      exact stops_andThen (keepsFlag_tableArms scratch ks 0).stops
        (fun _ st2 _ => stops_kill_branch k) fun st2 => unreached_kill (unreached_branch k)

/-- A body that is entered live and left dead stops control on its outermost level: the flag is reset
behind every block. -/
theorem stops_body (b : Body) : ∀ {L : List Label} {st : State}, Stops st (body env L false st b) := by
  induction b with
  | nil =>
    intro L st
    refine KeepsFlag.stops fun is st' hs => ?_
    cases hs
    rfl
  | op o rest ih =>
    intro L st
    rw [body]
    exact stops_andThen (stops_operator o) (fun _ _ _ => ih) fun _ => unreached_body rest
  | block bt b rest ihb ihr | loop bt b rest ihb ihr =>
    intro L st is st' hs hlive hdead
    first
    | obtain ⟨a, ha, base, he, isb, stb, isr, h1, h2, rfl⟩ := body_block_some.mp hs
    | obtain ⟨a, ha, base, he, isb, stb, isr, h1, h2, rfl⟩ := body_loop_some.mp hs
    exact (ihr isr st' h2 hlive hdead).before _
  | ifThen bt b rest ihb ihr =>
    intro L st is st' hs hlive hdead
    obtain ⟨a, ha, st0, hc, base, he, isb, stb, isr, h1, h2, rfl⟩ := body_ifThen_some.mp hs
    exact (ihr isr st' h2 hlive hdead).before _
  | ifElse bt b els rest ihb ihe ihr =>
    intro L st is st' hs hlive hdead
    obtain ⟨a, ha, st0, hc, base, he, isb, stb, ise, ste, isr, h1, h2, h3, rfl⟩ :=
      body_ifElse_some.mp hs
    exact (ihr isr st' h3 hlive hdead).before _

/-! ## The constant pool -/

/-- The pass only appends to the constant pool. -/
def Grows (st : State) (y : Option (Items × State)) : Prop :=
  ∀ is st', y = some (is, st') → st.consts <+: st'.consts

theorem grows_andThen {y : Option (Items × State)} {y' : State → Option (Items × State)}
    (h : Grows st y) (h' : ∀ st1, Grows st1 (y' st1)) : Grows st (andThen y y') := by
  intro is st' hs
  obtain ⟨is1, st1, is2, h1, h2, rfl⟩ := andThen_eq_some.mp hs
  exact (h is1 st1 h1).trans (h' st1 is2 st' h2)

theorem grows_kill {y : Option (Items × State)} (h : Grows st y) : Grows st (y.map kill) := by
  intro is st' hs
  obtain ⟨⟨is1, st1⟩, h1, h2⟩ := Option.map_eq_some_iff.mp hs
  cases h2
  exact h is1 st1 h1

theorem grows_plain (op : Opcode) (a b pops pushes : Nat) {consts : List Slot}
    (h : st.consts <+: consts) :
    Grows st (plain ghost op a b pops pushes { st with consts := consts }) := by
  intro is st' hs
  unfold plain emit at hs
  obtain ⟨st1, h1, h2⟩ := Option.map_eq_some_iff.mp hs
  cases h2
  exact (consume_dead h1).2.2 ▸ h

theorem branch_consts {k : Nat} (hs : branch env L ghost k st = some (is, st')) :
    st'.consts = st.consts := by
  cases hk : L[k]? with
  | none => simp [branch, hk] at hs
  | some l =>
    by_cases hf : l.Fits st
    · rw [branch_some env L ghost st hk hf] at hs
      cases hs
      rfl
    · rw [branch_none env L ghost st hk hf] at hs
      cases hs

theorem grows_branchIf (k : Nat) : Grows st (branchIf env L ghost k st) := by
  intro is st' hs
  unfold branchIf at hs
  obtain ⟨st1, h1, h2⟩ := Option.bind_eq_some_iff.mp hs
  obtain ⟨⟨is2, st2⟩, h3, h4⟩ := Option.map_eq_some_iff.mp h2
  cases h4
  rw [branch_consts h3, (consume_dead h1).2.2]

theorem grows_tableArms (scratch : Nat) (ks : List Nat) (i : Nat) :
    Grows st (tableArms env L ghost scratch i ks st) := by
  induction ks generalizing i st with
  | nil =>
    intro is st' hs
    cases hs
    exact List.prefix_rfl
  | cons k ks ih =>
    refine grows_andThen ?_ fun st1 => ih (i + 1)
    unfold tableArm
    refine grows_andThen (grows_plain _ _ _ _ _ (intern_grows _ _)) fun st1 => ?_
    refine grows_andThen (grows_plain _ _ _ _ _ List.prefix_rfl) fun st2 => ?_
    exact grows_andThen (grows_plain _ _ _ _ _ List.prefix_rfl) fun _ => grows_branchIf k

theorem grows_operator (o : Operator) : Grows st (operator env L ghost o st) := by
  have hform := operator_form env L ghost st o
  generalize operator env L ghost o st = y at hform
  cases hform with
  | rejected => exact nofun
  | reinterpret x =>
    intro is st' hs
    obtain ⟨st1, h1, h2⟩ := Option.map_eq_some_iff.mp hs
    cases h2
    rw [(consume_dead h1).2.2]
  | plain o op a b pops pushes h => exact grows_plain _ _ _ _ _ h
  | nop | tee i | emit o i | kill o i =>
    intro is st' hs
    cases hs
    exact List.prefix_rfl
  | br k =>
    refine grows_kill fun is st' hs => ?_
    rw [branch_consts hs]
  | brIf k => exact grows_branchIf k
  | brTable ks k =>
    unfold table
    cases env.scratch with
    | none => exact nofun
    | some scratch =>
      refine grows_andThen (grows_plain _ _ _ _ _ List.prefix_rfl) fun st1 => ?_
      refine grows_andThen (grows_tableArms scratch ks 0) fun st2 => grows_kill fun is st' hs => ?_
      rw [branch_consts hs]

theorem grows_body (b : Body) : ∀ {L : List Label} {ghost : Bool} {st : State},
    Grows st (body env L ghost st b) := by
  induction b with
  | nil =>
    intro L ghost st is st' hs
    cases hs
    exact List.prefix_rfl
  | op o rest ih =>
    intro L ghost st
    rw [body]
    exact grows_andThen (grows_operator o) fun _ => ih
  | block bt b rest ihb ihr =>
    intro L ghost st is st' hs
    obtain ⟨a, ha, base, he, isb, stb, isr, h1, h2, rfl⟩ := body_block_some.mp hs
    have hr := ihr isr st' h2
    exact (ihb isb stb h1).trans hr
  | loop bt b rest ihb ihr =>
    intro L ghost st is st' hs
    obtain ⟨a, ha, base, he, isb, stb, isr, h1, h2, rfl⟩ := body_loop_some.mp hs
    have hr := ihr isr st' h2
    exact (ihb isb stb h1).trans hr
  | ifThen bt b rest ihb ihr =>
    intro L ghost st is st' hs
    obtain ⟨a, ha, st0, hc, base, he, isb, stb, isr, h1, h2, rfl⟩ := body_ifThen_some.mp hs
    rw [← (consume_dead hc).2.2]
    have hr := ihr isr st' h2
    exact (ihb isb stb h1).trans hr
  | ifElse bt b els rest ihb ihe ihr =>
    intro L ghost st is st' hs
    obtain ⟨a, ha, st0, hc, base, he, isb, stb, ise, ste, isr, h1, h2, h3, rfl⟩ :=
      body_ifElse_some.mp hs
    rw [← (consume_dead hc).2.2]
    have hr := ihr isr st' h3
    have hels := ihe ise ste h2
    exact ((ihb isb stb h1).trans hels).trans hr

/-! ## The height at the start of a sequence -/

/-- The first item of a pass from `st` carries the height of `st`; a pass without items leaves the
height alone. -/
def First (ghost : Bool) (st : State) (y : Option (Items × State)) : Prop :=
  ∀ is st', y = some (is, st') →
    (is = [] ∧ st'.pc = st.pc ∧ st'.h = st.h ∧ st'.dead = st.dead) ∨
      ∃ i rest, is = (i, st.mark ghost st.h) :: rest

theorem first_kill {y : Option (Items × State)} (h : First ghost st y)
    (hne : ∀ is st', y = some (is, st') → is ≠ []) : First ghost st (y.map kill) := by
  intro is st' hs
  obtain ⟨⟨is1, st1⟩, h1, h2⟩ := Option.map_eq_some_iff.mp hs
  cases h2
  obtain ⟨h3, -⟩ | h3 := h is1 st1 h1
  · exact absurd h3 (hne is1 st1 h1)
  · exact .inr h3

theorem first_plain (op : Opcode) (a b pops pushes : Nat) (consts : List Slot) :
    First ghost st (plain ghost op a b pops pushes { st with consts := consts }) := by
  intro is st' hs
  unfold plain emit at hs
  obtain ⟨st1, h1, h2⟩ := Option.map_eq_some_iff.mp hs
  cases h2
  exact .inr ⟨_, _, rfl⟩

theorem branchItems_first (env : LowerEnv) (ghost : Bool) {st : State} (hdead : st.dead = false)
    {l : Label} (hf : l.Fits st) (k : Nat) :
    ∃ i rest, branchItems env ghost l k st = (i, st.mark ghost st.h) :: rest := by
  unfold branchItems
  by_cases hgt : ¬ st.dead = true ∧ st.h > l.base + l.arity
  · rw [if_pos hgt]
    exact ⟨_, _, rfl⟩
  · rw [if_neg hgt]
    have hle := hf hdead
    have heq : st.h = l.base + l.arity := by
      simp only [hdead, Bool.false_eq_true, not_false_eq_true, true_and, not_lt] at hgt
      omega
    rw [← heq]
    exact ⟨_, _, rfl⟩

theorem branch_first (hdead : st.dead = false) {k : Nat} (hs : branch env L ghost k st = some (is, st')) :
    ∃ i rest, is = (i, st.mark ghost st.h) :: rest := by
  cases hk : L[k]? with
  | none => simp [branch, hk] at hs
  | some l =>
    by_cases hf : l.Fits st
    · rw [branch_some env L ghost st hk hf] at hs
      cases hs
      exact branchItems_first env ghost hdead hf k
    · rw [branch_none env L ghost st hk hf] at hs
      cases hs

theorem first_operator (hdead : st.dead = false) (o : Operator) :
    First ghost st (operator env L ghost o st) := by
  have hform := operator_form env L ghost st o
  generalize operator env L ghost o st = y at hform
  cases hform with
  | rejected => exact nofun
  | nop =>
    intro is st' hs
    cases hs
    exact .inl ⟨rfl, rfl, rfl, rfl⟩
  | reinterpret x =>
    intro is st' hs
    obtain ⟨st1, h1, h2⟩ := Option.map_eq_some_iff.mp hs
    cases h2
    obtain ⟨h3, h4, -⟩ := consume_dead h1
    refine .inl ⟨rfl, h4, ?_, h3⟩
    unfold consume at h1
    rw [hdead] at h1
    simp only [Bool.false_eq_true, if_false] at h1
    split_ifs at h1
    cases h1
    simp only
    omega
  | plain o op a b pops pushes h => exact first_plain _ _ _ _ _ _
  | tee i | emit o i | kill o i =>
    intro is st' hs
    cases hs
    exact .inr ⟨_, _, rfl⟩
  | br k =>
    refine first_kill (fun is st' hs => .inr (branch_first hdead hs)) fun is st' hs he => ?_
    obtain ⟨i, rest, hi⟩ := branch_first hdead hs
    rw [hi] at he
    cases he
  | brIf k =>
    intro is st' hs
    unfold branchIf at hs
    obtain ⟨st1, h1, h2⟩ := Option.bind_eq_some_iff.mp hs
    obtain ⟨⟨is2, st2⟩, h3, h4⟩ := Option.map_eq_some_iff.mp h2
    cases h4
    exact .inr ⟨_, _, rfl⟩
  | brTable ks k =>
    intro is st' hs
    unfold table at hs
    cases hscr : env.scratch with
    | none => simp [hscr] at hs
    | some scratch =>
      simp only [hscr] at hs
      obtain ⟨is1, st1, is2, h1, -, rfl⟩ := andThen_eq_some.mp hs
      unfold plain emit at h1
      obtain ⟨st2, -, h2⟩ := Option.map_eq_some_iff.mp h1
      cases h2
      exact .inr ⟨_, is2, rfl⟩

/-- The heights `H` of the code are those next to the items from `pc` on. -/
def Annotated (H : Nat → Int) (pc : Nat) (is : Items) : Prop := is.AllFrom (fun n p => H n = p.2) pc

theorem annotated_close {H : Nat → Int} {pc t : Nat} {is : Items} :
    Annotated H pc (close t is) ↔ Annotated H pc is := List.allFrom_map

variable {H : Nat → Int} {Lt : List (List ValType)} {r : Bool} {ts us : List ValType} {B : Nat}

/-- If the height behind a reached sequence is the tracked one, so is the height in front of it. -/
theorem body_entry (hd : Describes env C) (b : Body) :
    ∀ {Lt r ts us}, Typed C Lt r ts b us → ∀ {L st B is st'}, Tracks L Lt B ts st →
      body env L false st b = some (is, st') → Annotated H st.pc is → st.dead = false →
      (st'.dead = false → H st'.pc = st'.h) → H st.pc = st.h := by
  induction b with
  | nil =>
    intro Lt r ts us _ L st B is st' _ hb _ hdead hexit
    cases hb
    exact hexit hdead
  | op o rest ih =>
    intro Lt r ts us ht L st B is st' htr hb hH hdead hexit
    obtain ⟨r', ts', hstep, hrest⟩ := typed_op ht
    obtain ⟨is1, st1, is2, h1, h2, rfl⟩ := body_op_some.mp hb
    obtain ⟨-, -, hout⟩ := operator_outcome hd hstep htr h1
    obtain ⟨rfl, hpc, hh, hdead'⟩ | ⟨i, rest', rfl⟩ := first_operator hdead o is1 st1 h1
    · have := ih hrest hout.tracks h2 (hpc ▸ hH) (hdead'.trans hdead) hexit
      rwa [hpc, hh] at this
    · rw [hH.1]
      exact mark_live hdead rfl _
  | block bt b rest ihb ihr =>
    intro Lt r ts us ht L st B is st' htr hb hH hdead hexit
    cases ht with
    | block hbt hbody hrest =>
      obtain ⟨a, ha, base, he, isb, stb, isr, h1, h2, rfl⟩ := body_block_some.mp hb
      obtain rfl := hd.blockArity hbt ha
      obtain ⟨hbase, hin⟩ := enter_tracks htr he ⟨none, base, _⟩ _ rfl (List.length_reverse ..).symm
      obtain ⟨h3, h4⟩ := body_tracks hd b hbody hin h1
      obtain ⟨hH1, hH2⟩ := List.allFrom_append.mp hH
      rw [close_length, ← h4] at hH2
      have hend := ihr hrest (leave_tracks _ stb htr hbase) h2 hH2 hdead hexit
      refine ihb hbody hin h1 (annotated_close.mp hH1) hdead fun h => ?_
      rw [(h3 h).2, List.length_reverse]
      exact hend
  | loop bt b rest ihb ihr =>
    intro Lt r ts us ht L st B is st' htr hb hH hdead hexit
    cases ht with
    | loop hbt hbody hrest =>
      obtain ⟨a, ha, base, he, isb, stb, isr, h1, h2, rfl⟩ := body_loop_some.mp hb
      obtain rfl := hd.blockArity hbt ha
      obtain ⟨hbase, hin⟩ := enter_tracks htr he ⟨some st.pc, base, _⟩ _ rfl
        (List.length_reverse ..).symm
      obtain ⟨h3, h4⟩ := body_tracks hd b hbody hin h1
      obtain ⟨hH1, hH2⟩ := List.allFrom_append.mp hH
      rw [close_length, ← h4] at hH2
      have hend := ihr hrest (leave_tracks _ stb htr hbase) h2 hH2 hdead hexit
      refine ihb hbody hin h1 (annotated_close.mp hH1) hdead fun h => ?_
      rw [(h3 h).2, List.length_reverse]
      exact hend
  | ifThen bt b rest ihb ihr =>
    intro Lt r ts us ht L st B is st' htr hb hH hdead hexit
    obtain ⟨a, ha, st0, hc, base, he, isb, stb, isr, h1, h2, rfl⟩ := body_ifThen_some.mp hb
    rw [hH.1]
    exact mark_live hdead rfl _
  | ifElse bt b els rest ihb ihe ihr =>
    intro Lt r ts us ht L st B is st' htr hb hH hdead hexit
    obtain ⟨a, ha, st0, hc, base, he, isb, stb, ise, ste, isr, h1, h2, h3, rfl⟩ :=
      body_ifElse_some.mp hb
    rw [hH.1]
    exact mark_live hdead rfl _

end Structured

end CuWasm
