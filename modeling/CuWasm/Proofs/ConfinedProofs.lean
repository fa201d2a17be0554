import CuWasm.Computation
import CuWasm.Jumps
import CuWasm.Proofs.LayoutProofs
import CuWasm.Proofs.StepProofs

/-!
# Code without calls

The code of a body that only computes stands in one stretch, in which every jump stays, and the machine
stays in it until it exits.
-/

namespace CuWasm

open Exit Run Wasm Structured

namespace Structured

variable {env : LowerEnv} {L : List Label} {ghost : Bool} {st st' : State} {is : Items} {lo hi n : Nat}

/-! ## The environment of the pass -/

/-- The environment of a pass that meets no call. -/
def bare (env : LowerEnv) (ti : Nat) : LowerEnv :=
  { env with funcTypeidx := [ti], nImports := 0, hostFnIds := [] }

theorem tableArms_bare (ti scratch : Nat) (ks : List Nat) (i : Nat) (st : State) :
    tableArms (bare env ti) L ghost scratch i ks st = tableArms env L ghost scratch i ks st := by
  induction ks generalizing i st with
  | nil => rfl
  | cons k ks ih =>
    rw [tableArms, tableArms, ← funext (ih (i + 1))]
    rfl

theorem operator_bare (ti : Nat) {o : Operator} (ho : o.computes = true) :
    operator (bare env ti) L ghost o st = operator env L ghost o st := by
  cases o with
  | brTable ks k =>
    simp only [operator, table, tableArms_bare]
    rfl
  | call | returnCall | callIndirect => cases ho
  | _ => rfl

/-- Where nothing is called, the pass does not read what the environment says of functions. -/
theorem body_bare (ti : Nat) (b : Body) (hb : b.computes = true) :
    ∀ {L ghost st}, body (bare env ti) L ghost st b = body env L ghost st b := by
  induction b with
  | nil =>
    intro L ghost st
    rfl
  | op o rest ih =>
    intro L ghost st
    simp only [Body.computes, Bool.and_eq_true] at hb
    simp only [body, operator_bare ti hb.1, ih hb.2]
  | block bt b rest ihb ih | loop bt b rest ihb ih | ifThen bt b rest ihb ih =>
    intro L ghost st
    simp only [Body.computes, Bool.and_eq_true] at hb
    simp only [body, ihb hb.1, ih hb.2]
    rfl
  | ifElse bt b els rest ihb ihe ih =>
    intro L ghost st
    simp only [Body.computes, Bool.and_eq_true] at hb
    simp only [body, ihb hb.1.1, ihe hb.1.2, ih hb.2]
    rfl

/-! ## Jumps stay in the function -/

/-- The instruction of an item inside `n` blocks calls nothing, and it jumps to a place between `lo` and
`hi` or to the end of one of these blocks. -/
def Item.Confined (lo hi n : Nat) : Item → Prop
  | .code i => Run.calls i.op = false ∧ (i.IsJump → lo ≤ i.b ∧ i.b ≤ hi)
  | .jump k => k < n

theorem Item.confined_plain {op : Opcode} {a b : Nat}
    (hop : Run.calls op = false ∧ op ≠ .br ∧ op ≠ .brIfNot) : (Item.code ⟨op, a, b⟩).Confined lo hi n :=
  ⟨hop.1, fun hj => (hj.elim hop.2.1 hop.2.2).elim⟩

theorem Item.Confined.resolve {i : Item} {t : Nat} (h : i.Confined lo hi (n + 1)) (h1 : lo ≤ t)
    (h2 : t ≤ hi) : (i.resolve t).Confined lo hi n := by
  cases i with
  | code i => exact h
  | jump k =>
    cases k with
    | zero => exact ⟨rfl, fun _ => ⟨h1, h2⟩⟩
    | succ k => exact Nat.lt_of_succ_lt_succ h

theorem close_confined {t : Nat} (h : ∀ p ∈ is, p.1.Confined lo hi (n + 1)) (h1 : lo ≤ t) (h2 : t ≤ hi) :
    ∀ p ∈ close t is, p.1.Confined lo hi n := by
  intro p hp
  obtain ⟨q, hq, rfl⟩ := List.mem_map.mp hp
  exact (h q hq).resolve h1 h2

/-- A pass inside `n` blocks that starts behind `lo` and ends before `hi` emits confined items. -/
def Confines (lo hi n : Nat) (st : State) (y : Option (Items × State)) : Prop :=
  lo ≤ st.pc → ∀ is st', y = some (is, st') → st'.pc ≤ hi → ∀ p ∈ is, p.1.Confined lo hi n

theorem confines_andThen {y : Option (Items × State)} {y' : State → Option (Items × State)}
    (hc : Counts st y) (h : Confines lo hi n st y) (hc' : ∀ st1, Counts st1 (y' st1))
    (h' : ∀ st1, Confines lo hi n st1 (y' st1)) : Confines lo hi n st (andThen y y') := by
  intro hlo is st' hs hhi p hp
  obtain ⟨is1, st1, is2, h1, h2, rfl⟩ := andThen_eq_some.mp hs
  have hpc1 := hc is1 st1 h1
  have hpc2 := hc' st1 is2 st' h2
  obtain hp | hp := List.mem_append.mp hp
  · exact h hlo is1 st1 h1 (by omega) p hp
  · exact h' st1 (by omega) is2 st' h2 hhi p hp

theorem confines_kill {y : Option (Items × State)} (h : Confines lo hi n st y) :
    Confines lo hi n st (y.map kill) := by
  intro hlo is st' hs hhi
  obtain ⟨⟨is1, st1⟩, h1, h2⟩ := Option.map_eq_some_iff.mp hs
  cases h2
  exact h hlo is1 st1 h1 hhi

theorem confines_plain {op : Opcode} (a b pops pushes : Nat) (consts : List Slot)
    (hop : Run.calls op = false ∧ op ≠ .br ∧ op ≠ .brIfNot) :
    Confines lo hi n st (plain ghost op a b pops pushes { st with consts := consts }) := by
  intro _ is st' hs _ p hp
  obtain ⟨st1, -, h2⟩ := Option.map_eq_some_iff.mp hs
  cases h2
  rw [List.mem_singleton.mp hp]
  exact Item.confined_plain hop

/-- The loops around a sequence start between `lo` and `hi`. -/
def StartsIn (lo hi : Nat) (L : List Label) : Prop := ∀ l ∈ L, ∀ t, l.start = some t → lo ≤ t ∧ t ≤ hi

theorem confines_branch (hL : StartsIn lo hi L) (k : Nat) : Confines lo hi L.length st (branch env L ghost k st) := by
  intro _ is st' hs _ p hp
  cases hk : L[k]? with
  | none => simp [branch, hk] at hs
  | some l =>
    by_cases hf : l.Fits st
    · rw [branch_some env L ghost st hk hf] at hs
      cases hs
      obtain hp | hp := List.mem_append.mp hp
      · split_ifs at hp
        · rw [List.mem_singleton.mp hp]
          exact Item.confined_plain (by decide)
        · cases hp
      · rw [List.mem_singleton.mp hp]
        unfold jumpItem
        cases hstart : l.start with
        | none => exact (List.getElem?_eq_some_iff.mp hk).1
        | some t => exact ⟨rfl, fun _ => hL l (List.mem_of_getElem? hk) t hstart⟩
    · rw [branch_none env L ghost st hk hf] at hs
      cases hs

theorem confines_branchIf (hL : StartsIn lo hi L) (k : Nat) :
    Confines lo hi L.length st (branchIf env L ghost k st) := by
  intro hlo is st' hs hhi p hp
  have hpc := counts_branchIf k is st' hs
  unfold branchIf at hs
  obtain ⟨st1, -, h2⟩ := Option.bind_eq_some_iff.mp hs
  obtain ⟨⟨is2, st2⟩, h3, h4⟩ := Option.map_eq_some_iff.mp h2
  cases h4
  change st2.pc = st.pc + (is2.length + 1) at hpc
  obtain rfl | hp := List.mem_cons.mp hp
  · exact ⟨rfl, fun _ => ⟨by simp only; omega, hhi⟩⟩
  · exact confines_branch hL k (by simp only; omega) _ _ h3 hhi p hp

theorem confines_tableArms (hL : StartsIn lo hi L) (scratch : Nat) (ks : List Nat) (i : Nat) :
    Confines lo hi L.length st (tableArms env L ghost scratch i ks st) := by
  induction ks generalizing i st with
  | nil =>
    intro _ is st' hs _ p hp
    cases hs
    cases hp
  | cons k ks ih =>
    have hcmp : ∀ st1, Counts st1 (andThen (plain ghost (.bin .i32Eq) 0 0 2 1 st1)
        (branchIf env L ghost k)) := fun st1 => counts_andThen (counts_plain _ _ _ _ _ _) fun _ =>
      counts_branchIf k
    refine confines_andThen ?_ ?_ (fun st1 => counts_tableArms scratch ks (i + 1)) fun st1 => ih (i + 1)
    · exact counts_andThen (counts_plain _ _ _ _ _ _) fun st1 =>
        counts_andThen (counts_plain _ _ _ _ _ _) fun st2 => hcmp st2
    · refine confines_andThen (counts_plain _ _ _ _ _ _) (confines_plain _ _ _ _ _ (by decide))
        (fun st1 => counts_andThen (counts_plain _ _ _ _ _ _) fun st2 => hcmp st2) fun st1 => ?_
      refine confines_andThen (counts_plain _ _ _ _ _ _) (confines_plain _ _ _ _ _ (by decide))
        hcmp fun st2 => ?_
      exact confines_andThen (counts_plain _ _ _ _ _ _) (confines_plain _ _ _ _ _ (by decide))
        (fun _ => counts_branchIf k) fun _ => confines_branchIf hL k

theorem confines_operator (hL : StartsIn lo hi L) {o : Operator} (ho : o.computes = true) :
    Confines lo hi L.length st (operator env L ghost o st) := by
  cases o with
  | nop =>
    intro _ is st' hs _ p hp
    cases hs
    cases hp
  | unreachable | return_ =>
    intro _ is st' hs _ p hp
    cases hs
    rw [List.mem_singleton.mp hp]
    exact Item.confined_plain (by decide)
  | localTee i =>
    intro _ is st' hs _ p hp
    cases hs
    simp only [List.mem_cons, List.not_mem_nil, or_false] at hp
    obtain rfl | rfl := hp <;> exact Item.confined_plain (by decide)
  | br k => exact confines_kill (confines_branch hL k)
  | brIf k => exact confines_branchIf hL k
  | brTable ks k =>
    simp only [operator, table]
    cases env.scratch with
    | none =>
      intro _ is st' hs
      cases hs
    | some scratch =>
      refine confines_andThen (counts_plain _ _ _ _ _ _) (confines_plain _ _ _ _ _ (by decide))
        (fun st1 => counts_andThen (counts_tableArms scratch ks 0) fun st2 => counts_kill (counts_branch k))
        fun st1 => ?_
      exact confines_andThen (counts_tableArms scratch ks 0) (confines_tableArms hL scratch ks 0)
        (fun st2 => counts_kill (counts_branch k)) fun st2 => confines_kill (confines_branch hL k)
  | num o => exact confines_plain _ _ _ _ _ (by cases o <;> decide)
  | const | drop | select | typedSelect | globalGet | globalSet | localGet | localSet =>
    exact confines_plain _ _ _ _ _ (by decide)
  | _ => cases ho

theorem StartsIn.cons {l : Label} (hL : StartsIn lo hi L)
    (hl : ∀ t, l.start = some t → lo ≤ t ∧ t ≤ hi) : StartsIn lo hi (l :: L) := by
  intro l' hl'
  obtain rfl | hl' := List.mem_cons.mp hl'
  · exact hl
  · exact hL l' hl'

theorem StartsIn.block {base n : Nat} (hL : StartsIn lo hi L) : StartsIn lo hi (⟨none, base, n⟩ :: L) :=
  hL.cons fun _ ht => nomatch ht

theorem confines_body (b : Body) (hb : b.computes = true) :
    ∀ {L ghost st}, StartsIn lo hi L → Confines lo hi L.length st (body env L ghost st b) := by
  induction b with
  | nil =>
    intro L ghost st _ _ is st' hs _ p hp
    cases hs
    cases hp
  | op o rest ih =>
    intro L ghost st hL
    simp only [Body.computes, Bool.and_eq_true] at hb
    rw [body]
    exact confines_andThen (counts_operator o) (confines_operator hL hb.1) (fun _ => counts_body rest)
      fun _ => ih hb.2 hL
  | block bt b rest ihb ih =>
    intro L ghost st hL hlo is st' hs hhi p hp
    simp only [Body.computes, Bool.and_eq_true] at hb
    obtain ⟨a, ha, base, he, isb, stb, isr, h1, h2, rfl⟩ := body_block_some.mp hs
    have hpc := counts_body b isb stb h1
    have hpcr := counts_body rest isr st' h2
    change st'.pc = stb.pc + isr.length at hpcr
    obtain hp | hp := List.mem_append.mp hp
    · refine close_confined (fun q hq => ?_) (by omega) (by omega) p hp
      exact ihb hb.1 hL.block hlo isb stb h1 (by omega) q hq
    · exact ih hb.2 hL (show lo ≤ (st.leave base a.2 stb).pc by change lo ≤ stb.pc; omega) isr st' h2 hhi p hp
  | loop bt b rest ihb ih =>
    intro L ghost st hL hlo is st' hs hhi p hp
    simp only [Body.computes, Bool.and_eq_true] at hb
    obtain ⟨a, ha, base, he, isb, stb, isr, h1, h2, rfl⟩ := body_loop_some.mp hs
    have hpc := counts_body b isb stb h1
    have hpcr := counts_body rest isr st' h2
    change st'.pc = stb.pc + isr.length at hpcr
    obtain hp | hp := List.mem_append.mp hp
    · refine close_confined (fun q hq => ?_) (by omega) (by omega) p hp
      refine ihb hb.1 (hL.cons fun t ht => ?_) hlo isb stb h1 (by omega) q hq
      cases ht
      exact ⟨hlo, by omega⟩
    · exact ih hb.2 hL (show lo ≤ (st.leave base a.2 stb).pc by change lo ≤ stb.pc; omega) isr st' h2 hhi p hp
  | ifThen bt b rest ihb ih =>
    intro L ghost st hL hlo is st' hs hhi p hp
    simp only [Body.computes, Bool.and_eq_true] at hb
    obtain ⟨a, ha, st0, hc, base, he, isb, stb, isr, h1, h2, rfl⟩ := body_ifThen_some.mp hs
    have hpc : stb.pc = st.pc + 1 + isb.length := counts_body b isb stb h1
    have hpcr := counts_body rest isr st' h2
    change st'.pc = stb.pc + isr.length at hpcr
    obtain hp | hp := List.mem_append.mp hp
    · obtain rfl | hp := List.mem_cons.mp hp
      · exact ⟨rfl, fun _ => ⟨by simp only; omega, by simp only; omega⟩⟩
      · refine close_confined (fun q hq => ?_) (by omega) (by omega) p hp
        exact ihb hb.1 hL.block (by simp only; omega) isb stb h1 (by omega) q hq
    · exact ih hb.2 hL (show lo ≤ (st.leave base a.2 stb).pc by change lo ≤ stb.pc; omega) isr st' h2 hhi p hp
  | ifElse bt b els rest ihb ihe ih =>
    intro L ghost st hL hlo is st' hs hhi p hp
    simp only [Body.computes, Bool.and_eq_true] at hb
    obtain ⟨a, ha, st0, hc, base, he, isb, stb, ise, ste, isr, h1, h2, h3, rfl⟩ :=
      body_ifElse_some.mp hs
    have hpc : stb.pc = st.pc + 1 + isb.length := counts_body b isb stb h1
    have hpce : ste.pc = stb.pc + 1 + ise.length := counts_body els ise ste h2
    have hpcr := counts_body rest isr st' h3
    change st'.pc = ste.pc + isr.length at hpcr
    obtain hp | hp := List.mem_append.mp hp
    · obtain rfl | hp := List.mem_cons.mp hp
      · exact ⟨rfl, fun _ => ⟨by simp only; omega, by simp only; omega⟩⟩
      obtain hp | hp := List.mem_append.mp hp
      · refine close_confined (fun q hq => ?_) (by omega) (by omega) p hp
        exact ihb hb.1.1 hL.block (by simp only; omega) isb stb h1 (by omega) q hq
      obtain rfl | hp := List.mem_cons.mp hp
      · exact ⟨rfl, fun _ => ⟨by simp only; omega, by simp only; omega⟩⟩
      · refine close_confined (fun q hq => ?_) (by omega) (by omega) p hp
        exact ihe hb.1.2 hL.block (by simp only; omega) ise ste h2 (by omega) q hq
    · exact ih hb.2 hL (show lo ≤ (st.leave base a.2 ste).pc by change lo ≤ ste.pc; omega) isr st' h3 hhi p hp

end Structured

/-! ## The machine stays in the function -/

section Machine

variable {v : Views} {m : DevModule} {p q : Nat} {s t : Mach} {e : Status} {n : Nat}

/-- The code between `p` and `q` calls nothing and does not jump out, and it ends with the end of the
function. -/
structure Enclosed (m : DevModule) (p q : Nat) : Prop where
  le : p ≤ q
  instr : ∀ r i, p ≤ r → r < q → m.code[r]? = some i → (Item.code i).Confined p q 0
  last : ∃ i, m.code[q]? = some i ∧ i.op = .endFunc

/-- The machine is in the code between `p` and `q`, in the first activation. -/
structure At (p q : Nat) (s : Mach) : Prop where
  lower : p ≤ s.pc
  upper : s.pc ≤ q
  csp : s.csp = 1

/-- The instruction calls nothing, and from the first activation nothing is returned to. -/
theorem Enclosed.exec_at (h : Enclosed m p q) (hs : At p q s) {i : CuOp} (hi : m.code[s.pc]? = some i)
    (hx : Run.exec v m i (fetched s) = .ok () t) : At p q t := by
  have hleave : Run.leave v (fetched s) ≠ .ok () t := by
    intro hl
    have hcsp : (fetched s).csp = 1 := hs.csp
    rw [leave_apply] at hl
    simp only [hcsp] at hl
    split_ifs at hl
  have hret : i.op ≠ .ret ∧ i.op ≠ .endFunc := by
    constructor
    all_goals
      intro hop
      simp only [Run.exec, hop] at hx
      exact hleave hx
  have hlt : s.pc < q := by
    refine lt_of_le_of_ne hs.upper fun heq => ?_
    obtain ⟨j, hj, hop⟩ := h.last
    rw [← heq, hi] at hj
    cases hj
    exact hret.2 hop
  obtain ⟨hcalls, hjump⟩ := h.instr s.pc i hs.lower hlt hi
  have hpc : (fetched s).pc = s.pc + 1 := rfl
  have hnext : p ≤ s.pc + 1 ∧ s.pc + 1 ≤ q := ⟨Nat.le_succ_of_le hs.lower, hlt⟩
  by_cases htr : Run.transfers i.op = true
  · have hcases : i.op = .br ∨ i.op = .brIfNot := by
      cases hop : i.op <;> rw [hop] at htr hcalls hret <;> simp_all [Run.transfers, Run.calls]
    obtain ⟨h1, h2⟩ := hjump hcases
    rcases hcases with hop | hop
    · simp only [Run.exec, hop, Run.br_apply] at hx
      split_ifs at hx
      · cases hx
        exact ⟨h1, h2, hs.csp⟩
      · cases hx
        exact ⟨h1, h2, hs.csp⟩
    · simp only [Run.exec, hop, bind_apply, Run.pop_apply, ite_run, modify_apply, pure_apply] at hx
      split_ifs at hx
      · cases hx
        exact ⟨h1, h2, hs.csp⟩
      · cases hx
        exact ⟨hnext.1, hnext.2, hs.csp⟩
  · have hkeep := (Run.exec_keeps_control v m (Bool.eq_false_iff.mpr htr)).ok hx
    unfold Run.control at hkeep
    simp only [Prod.mk.injEq] at hkeep
    rw [hpc] at hkeep
    exact ⟨hkeep.1 ▸ hnext.1, hkeep.1 ▸ hnext.2, hkeep.2.2.1.trans hs.csp⟩

theorem Enclosed.steps_at (h : Enclosed m p q) (hs : At p q s) (hst : Steps (Run.step v m) n s t) :
    At p q t := by
  induction hst with
  | zero => exact hs
  | succ h1 _ ih =>
    obtain ⟨i, hi, hx⟩ := Run.step_ok v m h1
    exact ih (h.exec_at hs hi hx)

/-- The machine neither asks the host nor runs out of frames. -/
theorem Enclosed.not_pending (h : Enclosed m p q) (hs : At p q s) (hst : Run.step v m s = .error e t) :
    e ≠ .hostcallPending ∧ e ≠ .trapCallDepth := by
  have hcalls : ∀ i, m.code[s.pc]? = some i → Run.calls i.op = false := by
    intro i hi
    rcases Nat.lt_or_ge s.pc q with hlt | hge
    · exact (h.instr s.pc i hs.lower hlt hi).1
    · obtain ⟨j, hj, hop⟩ := h.last
      rw [← Nat.le_antisymm hs.upper hge, hi] at hj
      cases hj
      rw [hop]
      rfl
  constructor
  · rintro rfl
    obtain ⟨i, hi, hop, -⟩ := Run.step_pending v m hst
    have := hcalls i hi
    rw [hop] at this
    cases this
  · rintro rfl
    rcases Run.step_error v m hst with ⟨-, h⟩ | h | ⟨i, hi, hx⟩
    · cases h
    · cases h
    · have := hcalls i hi
      rw [Run.exec_depth v m hx] at this
      cases this

end Machine

end CuWasm
