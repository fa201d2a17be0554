import CuWasm.Duration
import CuWasm.Proofs.ControlProofs
import CuWasm.Proofs.FuelProofs

/-!
# Runs without tail calls are bounded by fuel

Every instruction that does not renew the count makes the machine's rank smaller, so that a run has at
most `span` instructions for each charge of fuel and each tail call.
-/

namespace CuWasm

open Exit

/-! ## Where an instruction takes the control -/

/-- Where the instruction `i` takes the machine, as far as the positions of the activations go. -/
inductive Shift (v : Views) (m : DevModule) (i : CuOp) (s t : Mach) : Prop where
  | forward (hpc : s.pc < t.pc) (hnext : t.pc ∈ nextPcs i s.pc) (hcsp : t.csp = s.csp)
      (hfr : t.frames = s.frames)
  | back (hop : i.op = .br) (hb : i.b ≤ s.pc + 1) (hpc : t.pc = i.b) (hcsp : t.csp = s.csp)
      (hfr : t.frames = s.frames)
  | tail (g : FuncMeta) (hop : i.op = .returnCall) (hg : m.funcs[i.b]? = some g)
      (hpc : t.pc = g.codeOff) (hcsp : t.csp = s.csp)
      (hret : ∀ j, (t.frames j).retPc = (s.frames j).retPc)
  | call (g : FuncMeta) (fr : Frame)
      (hg : i.op = .call ∧ m.funcs[i.b]? = some g ∨
        i.op = .callIndirect ∧ ∃ idx, Run.indirectTarget m i.b idx = some g)
      (hpc : t.pc = g.codeOff) (hcap : s.csp < FRAME_CAP) (hcsp : t.csp = s.csp + 1)
      (hfr : t.frames = Function.update s.frames (v.frames.idx s.csp) fr)
      (hret : fr.retPc = s.pc + 1)
  | ret (hcsp : s.csp = t.csp + 1) (hpos : 0 < t.csp)
      (hpc : t.pc = (s.frames (v.frames.idx t.csp)).retPc) (hfr : t.frames = s.frames)

namespace Run

variable {v : Views} {m : DevModule} {s t : Mach} {i : CuOp}

/-- What lies behind an instruction that does not transfer control. -/
theorem nextPcs_straight (hop : transfers i.op = false) (hun : i.op ≠ .unreachable) (pc : Nat) :
    nextPcs i pc = [pc + 1] := by
  unfold nextPcs
  split <;> first | rfl | exact absurd ‹i.op = _› hun | (rw [‹i.op = _›] at hop; cases hop)

theorem straight_shift (hop : transfers i.op = false) (h : exec v m i (fetched s) = .ok () t) :
    Shift v m i s t := by
  have hkeep : control t = control (fetched s) := (exec_keeps_control v m hop).ok h
  simp only [control, fetched, Prod.mk.injEq] at hkeep
  obtain ⟨hpc, -, hcsp, hfr⟩ := hkeep
  have hun : i.op ≠ .unreachable := by
    intro hun
    simp only [exec, hun, throw_apply] at h
    cases h
  refine .forward (by omega) ?_ hcsp hfr
  rw [nextPcs_straight hop hun, hpc]
  exact .head _

theorem br_shift (hop : i.op = .br) (h : br i.b (fetched s) = .ok () t) : Shift v m i s t := by
  have hpc : (fetched s).pc = s.pc + 1 := rfl
  rw [br_apply] at h
  split_ifs at h with hle _
  · cases h
    exact .back hop hle rfl rfl rfl
  · cases h
    refine .forward ?_ ?_ rfl rfl
    · show s.pc < i.b
      omega
    · simp only [nextPcs, hop]
      exact .head _

theorem brIfNot_shift (hop : i.op = .brIfNot)
    (hfwd : u32 (s.stack (v.stack.idx (dec32 s.sp))) = 0 → s.pc < i.b)
    (h : exec v m i (fetched s) = .ok () t) : Shift v m i s t := by
  simp only [exec, hop, bind_apply, pop_apply, fetched, ite_run, modify_apply, pure_apply] at h
  split_ifs at h with hc
  · cases h
    exact .forward (hfwd hc) (by simp [nextPcs, hop]) rfl rfl
  · cases h
    exact .forward (Nat.lt_succ_self _) (by simp [nextPcs, hop]) rfl rfl

/-- A call from the machine `u` that has fetched it and taken the table index. -/
theorem enter_shift {g : FuncMeta} {u : Mach} (hg : i.op = .call ∧ m.funcs[i.b]? = some g ∨
      i.op = .callIndirect ∧ ∃ idx, indirectTarget m i.b idx = some g)
    (hpc : u.pc = s.pc + 1) (hcsp : u.csp = s.csp) (hfr : u.frames = s.frames)
    (h : enter v g u = .ok () t) : Shift v m i s t := by
  rw [enter_apply] at h
  split_ifs at h with hcap hfew
  rw [pushZeros_apply] at h
  split_ifs at h
  cases h
  refine .call g (callFrame g u) hg rfl (by omega) ?_ ?_ hpc
  · show u.csp + 1 = s.csp + 1
    rw [hcsp]
  · show Function.update u.frames (v.frames.idx u.csp) (callFrame g u) = _
    rw [hcsp, hfr]

theorem leave_shift (h : leave v (fetched s) = .ok () t) : Shift v m i s t := by
  have hcsp : (fetched s).csp = s.csp := rfl
  rw [leave_apply] at h
  dsimp only at h
  split_ifs at h with h0 _ h1
  cases h
  refine .ret ?_ ?_ rfl rfl
  · show s.csp = s.csp - 1 + 1
    omega
  · show 0 < s.csp - 1
    omega

theorem retargeted_csp (g : FuncMeta) (csp : Nat) (u : Mach) :
    (retargeted v g csp u).csp = u.csp := by
  unfold retargeted
  split <;> rfl

theorem retargeted_retPc (g : FuncMeta) (csp j : Nat) (u : Mach) :
    ((retargeted v g csp u).frames j).retPc = (u.frames j).retPc := by
  unfold retargeted
  split
  · by_cases hj : j = v.frames.idx (csp - 1)
    · rw [hj]
      simp only [Function.update_self]
    · simp only [Function.update_of_ne hj]
  · rfl

theorem returnCall_shift {g : FuncMeta} (hop : i.op = .returnCall) (hg : m.funcs[i.b]? = some g)
    (h : returnCall v g (fetched s) = .ok () t) : Shift v m i s t := by
  rw [returnCall_apply] at h
  split_ifs at h with hfew
  rw [pushZeros_apply] at h
  split_ifs at h
  cases h
  exact .tail g hop hg rfl (retargeted_csp g _ _) fun j => retargeted_retPc g _ j _

theorem step_shift (hfree : ¬ FreeJump v m s) (hi : m.code[s.pc]? = some i)
    (h : step v m s = .ok () t) : Shift v m i s t := by
  obtain ⟨i', hi', hx⟩ := step_ok v m h
  rw [hi] at hi'
  cases hi'
  by_cases hop : transfers i.op = false
  · exact straight_shift hop hx
  cases hop' : i.op with
  | br =>
    simp only [exec, hop'] at hx
    exact br_shift hop' hx
  | brIfNot =>
    exact brIfNot_shift hop' (fun hc => Nat.lt_of_not_le fun hb => hfree ⟨i, hi, hop', hc, hb⟩) hx
  | call =>
    simp only [exec, hop'] at hx
    cases hg : m.funcs[i.b]? with
    | none =>
      rw [hg] at hx
      cases hx
    | some g =>
      rw [hg] at hx
      exact enter_shift (u := fetched s) (.inl ⟨hop', hg⟩) rfl rfl rfl hx
  | callIndirect =>
    simp only [exec, hop', bind_apply, pop_apply, indirectCallee_apply] at hx
    split at hx
    · rename_i g u heq
      split at heq
      · cases heq
      · rename_i hg
        cases heq
        refine enter_shift (.inr ⟨hop', _, hg⟩) ?_ ?_ ?_ hx <;> rfl
    · cases hx
  | returnCall =>
    simp only [exec, hop'] at hx
    cases hg : m.funcs[i.b]? with
    | none =>
      rw [hg] at hx
      cases hx
    | some g =>
      rw [hg] at hx
      exact returnCall_shift hop' hg hx
  | ret =>
    simp only [exec, hop'] at hx
    exact leave_shift hx
  | endFunc =>
    simp only [exec, hop'] at hx
    exact leave_shift hx
  | _ =>
    rw [hop'] at hop
    exact absurd rfl hop

/-- A machine suspended at a host call stands behind it. -/
theorem pending_shift (h : step v m s = .error .hostcallPending t) :
    ∃ i, m.code[s.pc]? = some i ∧ i.op = .callHost ∧ Shift v m i s t := by
  obtain ⟨i, hi, hop, rfl⟩ := step_pending v m h
  refine ⟨i, hi, hop, .forward (Nat.lt_succ_self _) ?_ rfl rfl⟩
  rw [nextPcs_straight (by rw [hop]; rfl) (by rw [hop]; nofun)]
  exact .head _

end Run

/-! ## The rank -/

section Rank

variable {v : Views} {m : DevModule} {S : Nat → Prop} {s t : Mach} {i : CuOp}

/-- The machine stays in a part of the code that confines it. -/
theorem Shift.inside (h : Shift v m i s t) (hm : Confines m S) (hi : m.code[s.pc]? = some i)
    (hs : s.Inside v S) : t.Inside v S := by
  have hsame (hcsp : t.csp = s.csp)
      (hret : ∀ j, (t.frames j).retPc = (s.frames j).retPc) (hpc : S t.pc) : t.Inside v S :=
    ⟨hpc, fun k h0 hk => hret _ ▸ hs.callers k h0 (hcsp ▸ hk), hcsp ▸ hs.depth⟩
  cases h with
  | forward hpc hnext hcsp hfr =>
    exact hsame hcsp (fun j => by rw [hfr]) (hm.next _ _ _ hs.pc hi hnext)
  | back hop hb hpc hcsp hfr =>
    refine hsame hcsp (fun j => by rw [hfr]) (hpc ▸ hm.next _ _ _ hs.pc hi ?_)
    simp [nextPcs, hop]
  | tail g hop hg hpc hcsp hret =>
    exact hsame hcsp hret (hpc ▸ hm.call _ _ _ hs.pc hi (.inr hop) hg)
  | call g fr hg hpc hcap hcsp hfr hret =>
    have hnext : s.pc + 1 ∈ nextPcs i s.pc := by
      rcases hg with ⟨hop, -⟩ | ⟨hop, -⟩ <;> simp [nextPcs, hop]
    refine ⟨?_, fun k h0 hk => ?_, by omega⟩
    · rw [hpc]
      rcases hg with ⟨hop, hg⟩ | ⟨hop, idx, hg⟩
      · exact hm.call _ _ _ hs.pc hi (.inl hop) hg
      · exact hm.callIndirect _ _ _ _ hs.pc hi hop hg
    · rw [hfr]
      by_cases hk' : k = s.csp
      · rw [hk', Function.update_self, hret]
        exact hm.next _ _ _ hs.pc hi hnext
      · rw [Function.update_of_ne (by rw [ne_eq, AoSView.idx_inj]; exact hk')]
        exact hs.callers k h0 (by omega)
  | ret hcsp hpos hpc hfr =>
    refine ⟨hpc ▸ hs.callers _ hpos (by omega), fun k h0 hk => ?_, ?_⟩
    · rw [hfr]
      exact hs.callers k h0 (by omega)
    · have := hs.depth
      omega

/-- In a part of the code that confines the machine, no `OP_BR_IF_NOT` leads back. -/
theorem Mach.Inside.no_freeJump (hs : s.Inside v S) (hm : Confines m S) : ¬ FreeJump v m s := by
  rintro ⟨i, hi, hop, -, hb⟩
  exact Nat.not_lt_of_le hb (hm.forward _ _ hs.pc hi hop)

/-- An instruction keeps the number of frames within bounds. -/
theorem Shift.depth (h : Shift v m i s t) (hs : s.csp ≤ FRAME_CAP) : t.csp ≤ FRAME_CAP := by
  cases h <;> omega

theorem counters_lt (s : Mach) : ∀ x ∈ s.counters v m, x < m.code.length + 1 := by
  intro x hx
  simp only [Mach.counters, List.mem_append, List.mem_map, List.mem_singleton] at hx
  rcases hx with ⟨k, -, rfl⟩ | rfl <;> omega

theorem rank_lt (hs : s.csp ≤ FRAME_CAP) : s.rank v m < m.span := by
  refine Counters.weight_lt (counters_lt s) (Nat.succ_pos _) ?_
  simp only [Mach.counters, List.length_append, List.length_map, List.length_range,
    List.length_singleton]
  omega

/-- A machine in the code can get somewhere. -/
theorem rank_pos (hi : m.code[s.pc]? = some i) : 0 < s.rank v m := by
  have hlt := (List.getElem?_eq_some_iff.mp hi).1
  exact Counters.weight_pos (Nat.succ_pos _) (by omega)

/-- The counters of the callers while the frames stay. -/
theorem callers_congr {fr fr' : Nat → Frame} {n : Nat}
    (h : ∀ k < n, (fr' (v.frames.idx k)).retPc = (fr (v.frames.idx k)).retPc) :
    ((List.range n).map fun k => m.code.length - (fr' (v.frames.idx k)).retPc) =
      (List.range n).map fun k => m.code.length - (fr (v.frames.idx k)).retPc := by
  refine List.map_congr_left fun k hk => ?_
  rw [h k (List.mem_range.mp hk)]

/-- Every instruction lowers the rank, except that a charge or a tail call lifts it anywhere. -/
theorem Shift.rank (h : Shift v m i s t) (hi : m.code[s.pc]? = some i) (hs : s.csp ≤ FRAME_CAP) :
    t.rank v m < s.rank v m + if Renews (s.pc, i) then m.span else 0 := by
  have hlt := (List.getElem?_eq_some_iff.mp hi).1
  have hrenew (hr : Renews (s.pc, i)) (ht : t.csp = s.csp) :
      t.rank v m < s.rank v m + if Renews (s.pc, i) then m.span else 0 := by
    rw [if_pos hr]
    exact Nat.lt_of_lt_of_le (rank_lt (ht ▸ hs)) (Nat.le_add_left _ _)
  have hlower (hr : t.rank v m < s.rank v m) :
      t.rank v m < s.rank v m + if Renews (s.pc, i) then m.span else 0 :=
    Nat.lt_of_lt_of_le hr (Nat.le_add_right _ _)
  cases h with
  | forward hpc hnext hcsp hfr =>
    refine hlower ?_
    unfold Mach.rank Mach.counters
    rw [hcsp, hfr]
    exact Counters.weight_step (Nat.succ_pos _) (by omega)
  | back hop hb hpc hcsp hfr =>
    refine hrenew ?_ hcsp
    rcases Nat.lt_or_eq_of_le hb with hb | hb
    · exact .inl ⟨hop, Nat.le_of_lt_succ hb⟩
    · exact .inr (.inl ⟨hop, hb⟩)
  | tail g hop hg hpc hcsp hret => exact hrenew (.inr (.inr hop)) hcsp
  | call g fr hg hpc hcap hcsp hfr hret =>
    refine hlower ?_
    unfold Mach.rank Mach.counters
    have hbelow : ∀ k < s.csp,
        (Function.update s.frames (v.frames.idx s.csp) fr (v.frames.idx k)).retPc =
          (s.frames (v.frames.idx k)).retPc := by
      intro k hk
      rw [Function.update_of_ne (by rw [ne_eq, AoSView.idx_inj]; omega)]
    have hcallers := callers_congr (m := m) hbelow
    rw [hcsp, hfr, List.range_succ, List.map_append, hcallers, List.append_assoc, List.map_singleton,
      Function.update_self, List.singleton_append]
    refine Counters.weight_push ?_ (by omega) (by simpa using hcap)
    omega
  | ret hcsp hpos hpc hfr =>
    refine hlower ?_
    unfold Mach.rank Mach.counters
    rw [hcsp, hfr, List.range_succ, List.map_append, List.append_assoc, List.map_singleton,
      List.singleton_append, hpc]
    exact Counters.weight_pop (Nat.succ_pos _) (by omega)

/-- A run of the loop executes as many instructions as the rank allows, and `span` more for each that
renews the count. -/
theorem executed_length (hm : Confines m S) (n : Nat) : ∀ {s : Mach}, s.Inside v S →
    (Run.executed v m n s).length ≤
      s.rank v m + (Run.executed v m n s).countP (fun e => decide (Renews e)) * m.span := by
  induction n with
  | zero => exact fun _ => Nat.zero_le _
  | succ n ih =>
    intro s hs
    unfold Run.executed
    cases hi : m.code[s.pc]? with
    | none => exact Nat.zero_le _
    | some i =>
      have hpos := rank_pos (v := v) hi
      cases hx : Run.step v m s with
      | error e t =>
        simp only [List.length_singleton]
        omega
      | ok a t =>
        have hshift := Run.step_shift (hs.no_freeJump hm) hi hx
        have hrank := hshift.rank hi hs.depth
        have hrest := ih (hshift.inside hm hi hs)
        simp only [List.length_cons, List.countP_cons, decide_eq_true_eq]
        rw [Nat.add_mul, ite_mul, Nat.one_mul, Nat.zero_mul]
        omega

theorem countP_renews (es : List (Nat × CuOp)) : es.countP (fun e => decide (Renews e)) ≤
    es.countP (fun e => decide (BackEdge e)) + es.countP (fun e => decide (Hop e)) +
      es.countP fun e => decide (e.2.op = .returnCall) := by
  induction es with
  | nil => exact Nat.zero_le _
  | cons e es ih =>
    simp only [List.countP_cons, decide_eq_true_eq]
    by_cases hr : Renews e
    · have hone : 1 ≤ (if BackEdge e then 1 else 0) + (if Hop e then 1 else 0) +
          if e.2.op = .returnCall then 1 else 0 := by
        rcases hr with hr | hr | hr <;> rw [if_pos hr] <;> omega
      rw [if_pos hr]
      omega
    · rw [if_neg hr]
      omega

/-- A call executes at most `span` instructions for each unit of fuel and each tail call, and `span`
more. -/
theorem Invocation.executed_bound (hm : Confines m S) (x : Invocation)
    (hin : (Mach.load x.st x.memSize x.mb x.ar).Inside x.views S) :
    ((x.executed m).length : Int) ≤ (x.consumed m + x.tailCalls m + 1) * m.span := by
  have hlen : (x.executed m).length ≤ Mach.rank x.views m _ +
      (x.executed m).countP (fun e => decide (Renews e)) * m.span :=
    executed_length hm x.maxSteps hin
  have hrank := rank_lt (v := x.views) (m := m) hin.depth
  have hcount : (x.executed m).countP (fun e => decide (Renews e)) ≤
      x.backEdges m + x.hops m + x.tailCalls m := countP_renews _
  have hmul := Nat.mul_le_mul_right m.span hcount
  rw [consumed_eq]
  have hbound : (x.executed m).length ≤ (x.backEdges m + x.hops m + x.tailCalls m + 1) * m.span := by
    rw [Nat.add_mul _ 1, Nat.one_mul]
    omega
  exact_mod_cast hbound

end Rank

end CuWasm
