import CuWasm.Discipline
import CuWasm.Proofs.VerifyProofs
import Mathlib.Data.Finset.Max
import Mathlib.Order.Bounds.Basic

/-!
# The worklist decides the height discipline

The flow equations that `Closed` states for the verifier's own `switch` are the discipline of
`HeightsObey`, position by position. Whatever order the worklist takes its positions in, it visits
each at most once and ends with the heights of the solution, or fails when there is none.
-/

namespace CuWasm

namespace Verify

variable {m : HostModule} {f : FuncMeta}

/-! ## The `switch` and the discipline -/

/-- The `switch` accepts what the discipline permits. -/
theorem flow_of_permits {i : CuOp} {h h' : Nat} (hp : Permits m f i h h')
    (hfit : f.nParams + f.nLocals + h ≤ 65535)
    (hin : ∀ t, i.op = .br ∨ i.op = .brIfNot → t = i.b → f.codeOff ≤ t ∧ t < f.codeOff + f.codeLen) :
    ∃ fl, flow id m f i h = .ok fl ∧ fl.nextH = h' := by
  have heffect {p q : Nat} {msg : String} (hle : p ≤ h) :
      ∃ fl, effect id (h : Int) p q msg = .ok fl ∧ fl.nextH = ((h - p + q : Nat) : Int) := by
    unfold effect
    rw [if_neg (by omega)]
    exact ⟨_, rfl, by simp only [id_eq]; omega⟩
  cases hp with
  | @plain p q he hle =>
    unfold CuWasm.effect at he
    unfold flow
    cases hop : i.op <;> simp only [hop, Option.some.injEq, Prod.mk.injEq, reduceCtorEq] at he ⊢
    all_goals
      obtain ⟨rfl, rfl⟩ := he
      first
        | exact heffect hle
        | exact ⟨_, rfl, by simp⟩
  | unwind hop hb hd =>
    have h32 : toI32 i.b = ((i.b % 2 ^ 32 : Nat) : Int) := by
      unfold toI32
      rw [BitVec.toInt_eq_toNat_cond, BitVec.toNat_ofNat, if_pos (by omega)]
    unfold flow
    simp only [hop, h32, hb, id_eq]
    rw [if_neg (by omega), if_neg (by omega)]
    exact ⟨_, rfl, by simp only; omega⟩
  | br hop =>
    have := hin i.b (.inl hop) rfl
    unfold flow
    simp only [hop]
    rw [if_neg (by omega)]
    exact ⟨_, rfl, rfl⟩
  | brIfNot hop hle =>
    have := hin i.b (.inr hop) rfl
    unfold flow
    simp only [hop]
    rw [if_neg (by omega), if_neg (by omega)]
    exact ⟨_, rfl, by simp only; omega⟩
  | call hop hg hle =>
    unfold flow
    simp only [hop, hg]
    exact heffect hle
  | returnCall hop hg hle =>
    unfold flow
    simp only [hop, hg]
    rw [if_neg (by omega)]
    exact ⟨_, rfl, rfl⟩
  | leave hop hle =>
    unfold flow
    rcases hop with hop | hop <;> simp only [hop]
    all_goals
      rw [if_neg (by omega)]
      exact ⟨_, rfl, rfl⟩
  | unreachable hop =>
    unfold flow
    simp only [hop]
    exact ⟨_, rfl, rfl⟩
  | callHost hop hle =>
    unfold flow
    simp only [hop]
    exact heffect hle
  | @callIndirect fpv hop hfp hle =>
    unfold flow
    simp only [hop, hfp]
    rw [if_neg (by omega)]
    have heff := @heffect _ ((fpv >>> 8) &&& 0xff) "call_indirect underflow" hle
    push_cast at heff
    exact heff

/-- The discipline permits what the `switch` accepts. -/
theorem FlowCase.permits {i : CuOp} {h : Nat} {fl : Flow} (hc : FlowCase m f i h fl) :
    ∃ h' : Nat, Permits m f i h h' ∧ fl.nextH = h' := by
  cases hc with
  | @plain p q he hp => exact ⟨h - p + q, .plain he (by omega), by simp only; omega⟩
  | unwind hop h0 h1 =>
    have hb := toI32_of_nonneg (show 0 ≤ toI32 i.b by omega)
    exact ⟨i.b % 2 ^ 32 - f.nParams - f.nLocals, .unwind hop (by omega) (by omega),
      by simp only; omega⟩
  | br hop h1 h2 => exact ⟨h, .br hop, rfl⟩
  | brIfNot hop h0 h1 h2 => exact ⟨h - 1, .brIfNot hop (by omega), by simp only; omega⟩
  | @call g hop hg hp =>
    exact ⟨h - g.nParams + g.nResults, .call hop hg (by omega), by simp only; omega⟩
  | returnCall hop hg hp => exact ⟨h, .returnCall hop hg (by omega), rfl⟩
  | leave hop hp => exact ⟨h, .leave hop (by omega), rfl⟩
  | unreachable hop => exact ⟨h, .unreachable hop, rfl⟩
  | callHost hop hp =>
    exact ⟨h - (i.a &&& 0xff) + ((i.a >>> 8) &&& 0xff), .callHost hop (by omega),
      by simp only; omega⟩
  | @callIndirect fpv hop hfp hp =>
    exact ⟨h - (1 + (fpv &&& 0xff)) + ((fpv >>> 8) &&& 0xff), .callIndirect hop hfp (by omega),
      by simp only; omega⟩

/-- An instruction determines the height behind it. -/
theorem permits_unique {i : CuOp} {h h1 h2 : Nat} (hp : Permits m f i h h1)
    (hp' : Permits m f i h h2) : h1 = h2 := by
  cases hp with
  | plain he hle =>
    cases hp' with
    | plain he' hle' =>
      rw [he] at he'
      cases he'
      rfl
    | leave hop => rcases hop with hop | hop <;> simp [CuWasm.effect, hop] at he
    | _ => simp_all [CuWasm.effect]
  | unwind hop hb hd =>
    cases hp' with
    | unwind hop' hb' hd' => omega
    | leave hop' => rcases hop' with hop' | hop' <;> rw [hop] at hop' <;> cases hop'
    | _ => simp_all [CuWasm.effect]
  | call hop hg hle =>
    cases hp' with
    | call hop' hg' hle' =>
      rw [hg] at hg'
      cases hg'
      rfl
    | leave hop' => rcases hop' with hop' | hop' <;> rw [hop] at hop' <;> cases hop'
    | _ => simp_all [CuWasm.effect]
  | callIndirect hop hfp hle =>
    cases hp' with
    | callIndirect hop' hfp' hle' =>
      rw [hfp] at hfp'
      cases hfp'
      rfl
    | leave hop' => rcases hop' with hop' | hop' <;> rw [hop] at hop' <;> cases hop'
    | _ => simp_all [CuWasm.effect]
  | leave hop hle => rcases hop with hop | hop <;> cases hp' <;> simp_all [CuWasm.effect]
  | _ => cases hp' <;> simp_all [CuWasm.effect]

/-- The program counters that can follow are the successors the `switch` decides on. -/
theorem FlowCase.nextPcs {i : CuOp} {h : Int} {fl : Flow} {pc pc' : Nat} (hc : FlowCase m f i h fl) :
    pc' ∈ nextPcs i pc ↔ (fl.fall = true ∧ pc' = pc + 1) ∨ fl.target = some pc' := by
  unfold CuWasm.nextPcs
  cases hc with
  | plain he hp =>
    revert he
    unfold CuWasm.effect
    cases i.op <;> simp
  | leave hop hp => rcases hop with hop | hop <;> simp [hop]
  | brIfNot hop h0 h1 h2 => simp [hop, or_comm, eq_comm]
  | br hop h1 h2 => simp [hop, eq_comm]
  | unwind hop h0 h1 => simp [hop]
  | call hop hg hp => simp [hop]
  | returnCall hop hg hp => simp [hop]
  | unreachable hop => simp [hop]
  | callHost hop hp => simp [hop]
  | callIndirect hop hfp hp => simp [hop]

theorem indexCheck_iff {i : CuOp} (hfit : f.nParams + f.nLocals ≤ 65535) :
    indexCheck m f i = .ok () ↔ IndexBound m f i := by
  have hmod : (f.nParams + f.nLocals) % 2 ^ 16 = f.nParams + f.nLocals := Nat.mod_eq_of_lt (by omega)
  unfold indexCheck IndexBound
  rw [hmod]
  cases i.op <;> simp only [] <;> split_ifs <;> simp <;> omega

/-! ## Solutions of the flow equations -/

/-- The heights of the reachable program counters, by function-relative position, and `-1` for the
others. -/
noncomputable def relHeights (m : HostModule) (f : FuncMeta) (G : Nat → Nat) : Nat → Int :=
  open Classical in fun rel => if PcReach m f (f.codeOff + rel) then (G (f.codeOff + rel) : Int) else -1

theorem relHeights_nonneg {G : Nat → Nat} {rel : Nat} : 0 ≤ relHeights m f G rel ↔
    PcReach m f (f.codeOff + rel) := by
  unfold relHeights
  split_ifs with h
  · exact ⟨fun _ => h, fun _ => Int.natCast_nonneg _⟩
  · exact ⟨fun h0 => absurd h0 (by decide), fun h1 => absurd h1 h⟩

theorem relHeights_reach {G : Nat → Nat} {rel : Nat} (h : PcReach m f (f.codeOff + rel)) :
    relHeights m f G rel = G (f.codeOff + rel) := if_pos h

section Solutions

variable (hin : f.codeOff + f.codeLen ≤ m.code.length)

include hin

/-- The instruction at a position inside the function. -/
theorem code_instrAt {rel : Nat} (h : rel < f.codeLen) :
    m.code[f.codeOff + rel]? = some (instrAt m f rel) := by
  unfold instrAt
  rw [List.getD_eq_getElem?_getD, List.getElem?_eq_getElem (by omega)]
  rfl

/-- Heights that obey the discipline solve the flow equations, with any bound on them. -/
theorem closed_of_obeys {G : Nat → Nat} (hG : HeightsObey m f G) {B : Int}
    (hB : ∀ pc, PcReach m f pc → (G pc : Int) ≤ B) : Closed m f (relHeights m f G) B := by
  refine ⟨?_, fun rel hrel => ?_⟩
  · rw [relHeights_reach .entry]
    exact congrArg Nat.cast hG.entry
  · have hreach := relHeights_nonneg.mp hrel
    obtain ⟨-, hlt⟩ := hG.inside _ hreach
    have hcode := code_instrAt hin (show rel < f.codeLen by omega)
    obtain ⟨h', hperm, hnext⟩ := hG.permits _ _ hreach hcode
    have hfit := hG.fits _ hreach
    have hgo (pc' : Nat) (hn : pc' ∈ nextPcs (instrAt m f rel) (f.codeOff + rel)) :
        PcReach m f pc' := hreach.step hcode hn
    have htarget (t : Nat) (hop : (instrAt m f rel).op = .br ∨ (instrAt m f rel).op = .brIfNot)
        (ht : t = (instrAt m f rel).b) : f.codeOff ≤ t ∧ t < f.codeOff + f.codeLen := by
      refine hG.inside t (hgo t ?_)
      unfold nextPcs
      rw [ht]
      rcases hop with hop | hop <;> simp [hop]
    obtain ⟨fl, hflow, hnextH⟩ := flow_of_permits hperm hfit htarget
    have hcase := flow_cases (Int.natCast_nonneg _) hflow
    have hedge (rel' : Nat) (hn : f.codeOff + rel' ∈ nextPcs (instrAt m f rel) (f.codeOff + rel)) :
        rel' < f.codeLen ∧ relHeights m f G rel' = fl.nextH := by
      have h1 := hG.inside _ (hgo _ hn)
      rw [relHeights_reach (hgo _ hn), hnext _ hn, hnextH]
      exact ⟨by omega, rfl⟩
    have hheight := relHeights_reach (G := G) hreach
    refine ⟨fl, by omega, by rw [hheight]; exact hflow,
      (indexCheck_iff (by omega)).mpr (hG.index _ _ hreach hcode), fun t ht => ?_, fun hf => ?_,
      by rw [hheight]; exact hB _ hreach, ?_⟩
    · have hmem : t ∈ nextPcs (instrAt m f rel) (f.codeOff + rel) := hcase.nextPcs.mpr (.inr ht)
      obtain ⟨h1, h2⟩ := hG.inside t (hgo t hmem)
      refine hedge (t - f.codeOff) ?_
      rw [Nat.add_sub_cancel' h1]
      exact hmem
    · exact hedge (rel + 1) (hcase.nextPcs.mpr (.inl ⟨hf, rfl⟩))
    · -- the height behind an instruction is that of a successor, or no greater than the one before it
      by_cases hf : fl.fall = true
      · have hmem : f.codeOff + rel + 1 ∈ nextPcs (instrAt m f rel) (f.codeOff + rel) :=
          hcase.nextPcs.mpr (.inl ⟨hf, rfl⟩)
        have h1 := hB _ (hgo _ hmem)
        rw [hnext _ hmem] at h1
        rw [hnextH]
        exact h1
      · have h1 := hB _ hreach
        have hle : fl.nextH ≤ G (f.codeOff + rel) := by
          cases hcase <;> first | exact absurd rfl hf | exact le_rfl
        omega

/-- A solution of the flow equations knows a height for every reachable program counter. -/
theorem Closed.known {G : Nat → Int} {B : Int} (hG : Closed m f G B) {pc : Nat}
    (h : PcReach m f pc) : f.codeOff ≤ pc ∧ 0 ≤ G (pc - f.codeOff) := by
  induction h with
  | entry =>
    rw [Nat.sub_self, hG.start]
    exact ⟨le_rfl, le_rfl⟩
  | @step pc pc' i _ hi hn ih =>
    obtain ⟨hle, hk⟩ := ih
    obtain ⟨fl, hfl⟩ := hG.flowAt _ hk
    have hcode := code_instrAt hin hfl.lt
    rw [Nat.add_sub_cancel' hle, hi] at hcode
    cases hcode
    have hcase := flow_cases hk hfl.flow
    have hnn := hcase.nonneg hk
    rcases hcase.nextPcs.mp hn with ⟨hf, rfl⟩ | ht
    · have h1 := (hfl.fall hf).2
      rw [show pc + 1 - f.codeOff = pc - f.codeOff + 1 by omega, h1]
      exact ⟨by omega, hnn⟩
    · rw [(hfl.target _ ht).2]
      exact ⟨(hcase.target_mem ht).1, hnn⟩

/-- A solution whose bound fits obeys the discipline. -/
theorem Closed.obeys {G : Nat → Int} {B : Int} (hG : Closed m f G B)
    (hB : (f.nParams : Int) + f.nLocals + B ≤ 65535) :
    HeightsObey m f fun pc => (G (pc - f.codeOff)).toNat := by
  have hat (pc : Nat) (i : CuOp) (h : PcReach m f pc) (hi : m.code[pc]? = some i) :
      f.codeOff ≤ pc ∧ 0 ≤ G (pc - f.codeOff) ∧ i = instrAt m f (pc - f.codeOff) ∧
        ∃ fl, FlowAt m f G B (pc - f.codeOff) fl := by
    obtain ⟨hle, hk⟩ := hG.known hin h
    obtain ⟨fl, hfl⟩ := hG.flowAt _ hk
    have hcode := code_instrAt hin hfl.lt
    rw [Nat.add_sub_cancel' hle, hi] at hcode
    exact ⟨hle, hk, Option.some.inj hcode, fl, hfl⟩
  refine ⟨?_, fun pc h => ?_, fun pc i h hi => ?_, fun pc i h hi => ?_, fun pc h => ?_⟩
  · simp only [Nat.sub_self, hG.start, Int.toNat_zero]
  · obtain ⟨hle, hk⟩ := hG.known hin h
    obtain ⟨fl, hfl⟩ := hG.flowAt _ hk
    have := hfl.lt
    exact ⟨hle, by omega⟩
  · obtain ⟨hle, hk, rfl, fl, hfl⟩ := hat pc i h hi
    have hflow := hfl.flow
    rw [← Int.toNat_of_nonneg hk] at hflow
    have hcase := flow_cases (Int.natCast_nonneg _) hflow
    obtain ⟨h', hperm, hnextH⟩ := hcase.permits
    refine ⟨h', hperm, fun pc' hn => ?_⟩
    rcases hcase.nextPcs.mp hn with ⟨hf, rfl⟩ | ht
    · have h1 := (hfl.fall hf).2
      rw [show pc + 1 - f.codeOff = pc - f.codeOff + 1 by omega, h1, hnextH, Int.toNat_natCast]
    · rw [(hfl.target _ ht).2, hnextH, Int.toNat_natCast]
  · obtain ⟨hle, hk, rfl, fl, hfl⟩ := hat pc i h hi
    have := hfl.le
    exact (indexCheck_iff (by omega)).mp hfl.index
  · obtain ⟨hle, hk⟩ := hG.known hin h
    obtain ⟨fl, hfl⟩ := hG.flowAt _ hk
    have := hfl.le
    omega

omit hin in
/-- Heights that obey the discipline are unique. -/
theorem obeys_unique {G G' : Nat → Nat} (hG : HeightsObey m f G) (hG' : HeightsObey m f G')
    {pc : Nat} (h : PcReach m f pc) : G pc = G' pc := by
  induction h with
  | entry => rw [hG.entry, hG'.entry]
  | @step pc pc' i h hi hn ih =>
    obtain ⟨h1, hp1, hn1⟩ := hG.permits pc i h hi
    obtain ⟨h2, hp2, hn2⟩ := hG'.permits pc i h hi
    rw [← ih] at hp2
    rw [hn1 pc' hn, hn2 pc' hn, permits_unique hp1 hp2]

end Solutions

/-! ## The order of the worklist -/

section Order

variable {st t : VState} {n : Nat}

/-- Any queued position may as well stand first. -/
theorem queue_perm {rel : Nat} (h : rel ∈ st.work) (done : List Nat) :
    (rel :: st.work.erase rel ++ done).Perm (st.work ++ done) :=
  (List.perm_cons_erase h).symm.append_right done

theorem Once.front {done : List Nat} {rel : Nat} (h : Once f done st) (hrel : rel ∈ st.work) :
    Once f done { st with work := rel :: st.work.erase rel } := by
  have hperm := queue_perm hrel done
  exact ⟨fun r hr => h.known r (hperm.mem_iff.mp hr), hperm.nodup_iff.mpr h.nodup,
    fun r hr => h.lt r (hperm.mem_iff.mp hr)⟩

theorem WorkInv.front {rel : Nat} (h : WorkInv m f st) (hrel : rel ∈ st.work) :
    WorkInv m f { st with work := rel :: st.work.erase rel } := by
  have hmem (r : Nat) : r ∈ rel :: st.work.erase rel ↔ r ∈ st.work :=
    (List.perm_cons_erase hrel).symm.mem_iff
  refine ⟨h.start, fun r hr => h.work r ((hmem r).mp hr), fun r hr => ?_⟩
  exact (h.done r hr).imp_left (hmem r).mpr

theorem Towards.front {G : Nat → Int} {B : Int} {done : List Nat} {rel : Nat}
    (h : Towards f G B done st) (hrel : rel ∈ st.work) :
    Towards f G B done { st with work := rel :: st.work.erase rel } := by
  have hperm := queue_perm hrel done
  have hmem (r : Nat) : r ∈ rel :: st.work.erase rel ↔ r ∈ st.work :=
    (List.perm_cons_erase hrel).symm.mem_iff
  exact ⟨h.agree, fun r hr => h.work r ((hmem r).mp hr), hperm.nodup_iff.mpr h.nodup,
    fun r hr => h.lt r (hperm.mem_iff.mp hr), h.known, h.maxH⟩

/-- After `n` rounds `n` positions are done. -/
theorem Rounds.once (hlen : 0 < f.codeLen) (h : Rounds id m f initial n t) :
    ∃ done, Once f done t ∧ done.length = n := by
  induction h with
  | zero => exact ⟨[], once_initial hlen, rfl⟩
  | succ _ hround ih =>
    obtain ⟨done, honce, hlen⟩ := ih
    obtain ⟨rel, hrel, hv⟩ := hround
    exact ⟨rel :: done, once_visit (honce.front hrel) rfl hv, congrArg (· + 1) hlen⟩

/-- The worklist terminates, in whatever order. -/
theorem Rounds.le (hlen : 0 < f.codeLen) (h : Rounds id m f initial n t) :
    t.work.length + n ≤ f.codeLen := by
  obtain ⟨done, honce, rfl⟩ := h.once hlen
  rw [← List.length_append]
  exact length_le_of_nodup honce.nodup honce.lt

theorem Rounds.workInv (hlen : 0 < f.codeLen) (h : Rounds id m f initial n t) : WorkInv m f t := by
  induction h with
  | zero => exact workInv_initial hlen
  | succ _ hround ih =>
    obtain ⟨rel, hrel, hv⟩ := hround
    exact workInv_visit (ih.front hrel) rfl hv

/-- The rounds are on their way to every solution. -/
theorem Rounds.towards {G : Nat → Int} {B : Int} (hG : Closed m f G B)
    (h : Rounds id m f initial n t) : ∃ done, Towards f G B done t := by
  induction h with
  | zero => exact ⟨[], towards_initial hG⟩
  | @succ n t u _ hround ih =>
    obtain ⟨done, htow⟩ := ih
    obtain ⟨rel, hrel, hv⟩ := hround
    obtain ⟨t', hv', htow'⟩ := towards_visit hG (htow.front hrel) rfl
    have heq : Except.ok (ε := String) t' = Except.ok u := hv'.symm.trans hv
    cases heq
    exact ⟨rel :: done, htow'⟩

/-- When there is a solution, no order fails. -/
theorem Outcome.ok_of_closed {G : Nat → Int} {B : Int} (hG : Closed m f G B)
    {r : Except String VState} (h : Outcome id m f initial r) :
    ∃ st, r = .ok st ∧ (∀ rel, 0 ≤ st.height rel → st.height rel = G rel) ∧ st.maxH ≤ B := by
  cases h with
  | done hr hw =>
    obtain ⟨done, htow⟩ := hr.towards hG
    exact ⟨_, rfl, htow.agree, htow.maxH⟩
  | @fail n t e hr hround =>
    obtain ⟨done, htow⟩ := hr.towards hG
    obtain ⟨rel, hrel, hv⟩ := hround
    obtain ⟨t', hv', -⟩ := towards_visit hG (htow.front hrel) rfl
    have heq : Except.ok (ε := String) t' = Except.error e := hv'.symm.trans hv
    cases heq

/-- An order that succeeds has found a solution. -/
theorem Outcome.closed (hlen : 0 < f.codeLen) (h : Outcome id m f initial (.ok t)) :
    Closed m f t.height t.maxH := by
  cases h with
  | done hr hw =>
    have hinv := hr.workInv hlen
    refine ⟨hinv.start, fun r hk => ?_⟩
    rcases hinv.done r hk with hmem | hdone
    · rw [hw] at hmem
      cases hmem
    · exact hdone

/-- The loop of the source, which takes the position queued last, is one of the orders. -/
theorem loop_outcome {int : Int → Int} {k : Nat} (h : Rounds int m f initial k st)
    (hle : ∀ j t, Rounds int m f initial j t → t.work.length + j ≤ f.codeLen)
    (hn : f.codeLen ≤ n + k) : Outcome int m f initial (loop int m f n st) := by
  induction n generalizing k st with
  | zero =>
    have := hle k st h
    have hw : st.work = [] := List.eq_nil_of_length_eq_zero (by omega)
    unfold loop
    rw [if_pos hw]
    exact .done h hw
  | succ n ih =>
    unfold loop
    cases hw : st.work with
    | nil => exact .done h hw
    | cons rel work =>
      have hrel : rel ∈ st.work := by rw [hw]; exact List.mem_cons_self
      have herase : st.work.erase rel = work := by rw [hw, List.erase_cons_head]
      simp only
      cases hv : visit int m f rel { st with work := work } with
      | error e => exact .fail h ⟨rel, hrel, by rw [herase]; exact hv⟩
      | ok t => exact ih (.succ h ⟨rel, hrel, by rw [herase]; exact hv⟩) (by omega)

theorem analyse_outcome (hlen : 0 < f.codeLen) : Outcome id m f initial (analyse id m f) :=
  loop_outcome .zero (fun _ _ h => h.le hlen) (by omega)

/-- The verdict does not depend on the order. -/
theorem Outcome.sameVerdict (hlen : 0 < f.codeLen) {r r' : Except String VState}
    (h : Outcome id m f initial r) (h' : Outcome id m f initial r') : SameVerdict r r' := by
  cases r with
  | error e =>
    cases r' with
    | error e' => trivial
    | ok st' =>
      obtain ⟨st, heq, -⟩ := h.ok_of_closed (h'.closed hlen)
      cases heq
  | ok st =>
    obtain ⟨st', rfl, hag', hmax'⟩ := h'.ok_of_closed (h.closed hlen)
    obtain ⟨st1, heq, hag, hmax⟩ := h.ok_of_closed (h'.closed hlen)
    cases heq
    refine ⟨le_antisymm hmax' hmax, fun rel hk => ?_⟩
    rcases hk with hk | hk
    · exact (hag rel hk).symm
    · exact hag' rel hk

end Order

/-! ## The verdict -/

/-- The pass over a function with code succeeds when the analysis does and the frame fits. -/
theorem func_eq {int : Int → Int} {fi : Nat} (hpos : 0 < f.codeLen)
    (hin : f.codeOff + f.codeLen ≤ m.code.length)
    (hlast : (instrAt m f (f.codeLen - 1)).op = .ret ∨ (instrAt m f (f.codeLen - 1)).op = .endFunc)
    {st : VState} (hst : analyse int m f = .ok st)
    (hfit : int (f.nParams + f.nLocals + st.maxH) ≤ 65535) :
    func int m fi f =
      .ok { f with maxStack := (int (f.nParams + f.nLocals + st.maxH)).toNat } := by
  unfold func
  have h1 : ¬ f.codeOff + f.codeLen > m.code.length := by omega
  have h2 : ¬ f.codeLen = 0 := by omega
  have h3 : ¬ ((instrAt m f (f.codeLen - 1)).op ≠ .ret ∧
      (instrAt m f (f.codeLen - 1)).op ≠ .endFunc) := by tauto
  simp only [if_neg h1, if_neg h2, if_neg h3, hst, bind, Except.bind]
  by_cases h0 : int (f.nParams + f.nLocals + st.maxH) < 0
  · simp only [if_pos h0, Int.toNat_of_nonpos h0.le]
    rfl
  · simp only [if_neg h0]
    rw [if_neg (by omega)]
    rfl

/-- The greatest height of the analysis belongs to a reachable program counter. -/
theorem maxH_greatest {G : Nat → Nat} (hG : HeightsObey m f G)
    (hin : f.codeOff + f.codeLen ≤ m.code.length) {st : VState} (hst : analyse id m f = .ok st)
    (hpos : 0 < f.codeLen) : IsGreatest {h : Int | ∃ pc, PcReach m f pc ∧ h = G pc} st.maxH := by
  classical
  have hcl := analyse_closed hpos hst
  -- the heights of the analysis are `G`, so its bound is one for `G`
  have hle (pc : Nat) (h : PcReach m f pc) : (G pc : Int) ≤ st.maxH := by
    obtain ⟨hoff, hk⟩ := hcl.known hin h
    obtain ⟨fl, hfl⟩ := hcl.flowAt _ hk
    obtain ⟨st', hst', hag, -⟩ :=
      (closed_of_obeys hin hG (B := 65535) fun pc h => by have := hG.fits pc h; omega).analyse
    rw [hst] at hst'
    cases hst'
    have heq := hag _ hk
    rw [relHeights_reach (by rw [Nat.add_sub_cancel' hoff]; exact h), Nat.add_sub_cancel' hoff] at heq
    rw [← heq]
    exact hfl.le
  -- and the greatest height of `G` is a bound that the analysis keeps to
  obtain ⟨pc0, hpc0, hmax⟩ := Finset.exists_max_image
    ((Finset.range m.code.length).filter fun pc => PcReach m f pc) G
    ⟨f.codeOff, Finset.mem_filter.mpr ⟨Finset.mem_range.mpr (by omega), .entry⟩⟩
  have hreach0 := (Finset.mem_filter.mp hpc0).2
  have hbound (pc : Nat) (h : PcReach m f pc) : (G pc : Int) ≤ G pc0 := by
    have hlt := (hG.inside pc h).2
    exact Int.ofNat_le.mpr (hmax pc (Finset.mem_filter.mpr ⟨Finset.mem_range.mpr (by omega), h⟩))
  obtain ⟨st', hst', -, hmaxH⟩ := (closed_of_obeys hin hG hbound).analyse
  rw [hst] at hst'
  cases hst'
  refine ⟨⟨pc0, hreach0, le_antisymm hmaxH (hle pc0 hreach0)⟩, ?_⟩
  rintro h ⟨pc, hpc, rfl⟩
  exact hle pc hpc

/-- In exact integers the pass over a function decides the height discipline. -/
theorem decides_exact (m : HostModule) (f : FuncMeta) (fi : Nat) (hpos : 0 < f.codeLen)
    (hin : f.codeOff + f.codeLen ≤ m.code.length)
    (hlast : (instrAt m f (f.codeLen - 1)).op = .ret ∨
      (instrAt m f (f.codeLen - 1)).op = .endFunc) : Decides id m f fi := by
  have hfound (G : Nat → Nat) (hG : HeightsObey m f G) : ∃ st, analyse id m f = .ok st ∧
      IsGreatest {h : Int | ∃ pc, PcReach m f pc ∧ h = G pc} st.maxH ∧
      ∀ rel, 0 ≤ st.height rel → st.height rel = relHeights m f G rel := by
    obtain ⟨st, hst, hag, -⟩ :=
      (closed_of_obeys hin hG (B := 65535) fun pc h => by have := hG.fits pc h; omega).analyse
    exact ⟨st, hst, maxH_greatest hG hin hst hpos, hag⟩
  refine ⟨⟨?_, ?_⟩, analyse_outcome hpos, fun n st h => by have := h.le hpos; omega,
    fun r h => (analyse_outcome hpos).sameVerdict hpos h,
    fun G G' hG hG' pc h => obeys_unique hG hG' h, fun G f' hG hf' => ?_⟩
  · rintro ⟨f', hf'⟩
    obtain ⟨-, -, ⟨h0, -⟩ | ⟨-, st, hst, hmax, hle⟩⟩ := func_ok hf'
    · omega
    · exact ⟨_, (analyse_closed hpos hst).obeys hin (by omega)⟩
  · rintro ⟨G, hG⟩
    obtain ⟨st, hst, ⟨⟨pc, hpc, hmax⟩, -⟩, -⟩ := hfound G hG
    have hfit := hG.fits pc hpc
    exact ⟨_, func_eq hpos hin hlast hst (by simp only [id_eq]; omega)⟩
  · obtain ⟨hsig, -, ⟨h0, -⟩ | ⟨-, st, hst, hmax, hle⟩⟩ := func_ok hf'
    · omega
    obtain ⟨st', hst', hgreat, hag⟩ := hfound G hG
    rw [hst] at hst'
    cases hst'
    have hcl := analyse_closed hpos hst
    have hknown (rel : Nat) : 0 ≤ st.height rel ↔ PcReach m f (f.codeOff + rel) := by
      constructor
      · intro hk
        exact relHeights_nonneg.mp (hag rel hk ▸ hk)
      · intro h
        have hk := (hcl.known hin h).2
        rwa [Nat.add_sub_cancel_left] at hk
    refine ⟨st, hst, hknown, fun rel h => ?_, hsig, ?_, ?_⟩
    · rw [hag rel ((hknown rel).mpr h), relHeights_reach h]
    · obtain ⟨pc, hpc, heq⟩ := hgreat.1
      exact ⟨pc, hpc, by omega⟩
    · rintro n ⟨pc, hpc, rfl⟩
      have h1 : (G pc : Int) ≤ st.maxH := hgreat.2 ⟨pc, hpc, rfl⟩
      omega

end Verify

end CuWasm
