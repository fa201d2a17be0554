import CuWasm.EntryStack
import CuWasm.Proofs.FrameProofs
import CuWasm.Proofs.PayloadProofs
import CuWasm.Proofs.RunProofs
import CuWasm.Proofs.TrapProofs

/-!
# No stack access beyond the capacity

One instruction of an activation that obeys the frame discipline pops below the stack pointer, pushes
below the capacity and reaches its locals below the stack pointer (`step_below`). A driver that starts
inside the capacity therefore stays there; the entry loops are the only place where it may not.
-/

namespace CuWasm

open Exit BlockMove Verify

/-! ## One instruction -/

/-- The access stays below the capacity of the stack behind the views. -/
def Access.Below (v : Views) (a : Access) : Prop :=
  a.region = .stack → a.start + a.count ≤ v.stack.idx STACK_CAP

/-- All accesses of the current instruction do. -/
def Mach.Below (v : Views) (s : Mach) : Prop := ∀ a ∈ s.log, a.Below v

section Step

variable {v : Views} {m : HostModule} {f : FuncMeta} {gs : List FuncMeta} {s s' : Mach}

theorem below_cells {r : Region} {j n : Nat} (h : j + n ≤ STACK_CAP) :
    (⟨r, v.stack.idx j, n⟩ : Access).Below v := by
  intro _
  simp only [AoSView.idx]
  omega

theorem below_other {r : Region} (hr : r ≠ .stack) (i n : Nat) : (⟨r, i, n⟩ : Access).Below v :=
  fun h => absurd h hr

theorem Mach.Below.of_log {t : Mach} (hlog : t.log = []) : t.Below v := by
  intro a ha
  rw [hlog] at ha
  cases ha

theorem Mach.Below.cons {t : Mach} {a : Access} {l : List Access} (hlog : t.log = a :: l)
    (ha : a.Below v) (hl : ∀ b ∈ l, b.Below v) : t.Below v := by
  intro b hb
  rw [hlog] at hb
  rcases List.mem_cons.mp hb with rfl | hb
  · exact ha
  · exact hl b hb

/-- Pushing zeros, whether they fit or not. -/
theorem below_pushZeros (hcap : v.stack.cap ≤ STACK_CAP) (n : Nat) {t : Mach} (ht : t.Below v) :
    (final (Run.pushZeros v n t)).Below v := by
  have hzero (k : Nat) (hk : k = 0 ∨ t.sp + k ≤ STACK_CAP) : (Run.zeroed v k t).Below v := by
    intro a ha
    simp only [Run.zeroed, List.mem_append, List.mem_map, List.mem_reverse, List.mem_range] at ha
    rcases ha with ⟨j, hj, rfl⟩ | ha
    · exact below_cells (by omega)
    · exact ht a ha
  rw [Run.pushZeros_apply]
  split_ifs with h
  · exact hzero n (by omega)
  · exact hzero _ (by omega)

/-- Entering a callee. -/
theorem below_enter (hcap : v.stack.cap ≤ STACK_CAP) (g : FuncMeta) {t : Mach} (ht : t.Below v) :
    (final (Run.enter v g t)).Below v := by
  rw [Run.enter_apply]
  split_ifs
  · exact ht
  · exact ht
  · have hframed : (Run.framed v g t).Below v :=
      Mach.Below.cons rfl (below_other (by decide) _ _) ht
    have hz := below_pushZeros hcap g.nLocals hframed
    cases hx : Run.pushZeros v g.nLocals (Run.framed v g t) with
    | ok a w =>
      rw [hx] at hz
      exact hz
    | error e w =>
      rw [hx] at hz
      exact hz

/-- `OP_RETURN_CALL`. -/
theorem below_returnCall (hcap : v.stack.cap ≤ STACK_CAP) {g : FuncMeta} {t : Mach} (ht : t.Below v)
    (hsp : t.sp ≤ STACK_CAP) (hfp : t.fp + g.nParams ≤ t.sp) :
    (final (Run.returnCall v g t)).Below v := by
  rw [Run.returnCall_apply]
  split_ifs with h
  · exact ht
  · have hrebased : (Run.rebased v g t).Below v := by
      refine Mach.Below.cons rfl (below_cells (by omega)) fun b hb => ?_
      rcases List.mem_cons.mp hb with rfl | hb
      · exact below_cells (by omega)
      · exact ht b hb
    have hz := below_pushZeros hcap g.nLocals hrebased
    cases hx : Run.pushZeros v g.nLocals (Run.rebased v g t) with
    | ok a w =>
      rw [hx] at hz
      simp only [final_ok] at hz ⊢
      unfold Run.retargeted
      split_ifs
      · refine Mach.Below.cons rfl (below_other (by decide) _ _) fun b hb => ?_
        rcases List.mem_cons.mp hb with rfl | hb
        · exact below_other (by decide) _ _
        · exact hz b hb
      · exact hz
    | error e w =>
      rw [hx] at hz
      exact hz

/-- A plain instruction whose local lies below the stack pointer. -/
theorem below_plain (hcap : v.stack.cap ≤ STACK_CAP) {i : CuOp} {p : Nat} {t : Mach}
    (hlog : s.log = []) (hsp : s.sp ≤ STACK_CAP) (hlocal : ∀ k, localOf i = some k → s.fp + k < s.sp)
    (ht : PlainFrame v i p s t) : t.Below v := by
  intro a ha
  rcases ht.log a ha with h | h
  · rw [hlog] at h
    cases h
  · intro hr
    unfold PlainAccess at h
    simp only [hr] at h
    obtain ⟨j, hj, hc, h⟩ := h
    rw [hj, hc]
    have hlt : j < STACK_CAP := by
      rcases h with ⟨-, h | ⟨h, -⟩⟩ | ⟨k, hk, rfl⟩
      · omega
      · omega
      · have := hlocal k hk
        omega
    simp only [AoSView.idx]
    omega

variable (hm : Accepted m) (hinv : FrameInv v m f gs s) (hcap : v.stack.cap ≤ STACK_CAP)
  (hsp : s.sp ≤ STACK_CAP)

include hm hinv hcap hsp

/-- The instruction about to be fetched stays below the capacity. -/
theorem exec_below (hok : StepOk v m s) :
    (final (Run.exec v m.dev (instrAt m f (s.pc - f.codeOff)) (Run.fetched s))).Below v := by
  obtain ⟨hcode, fl, hfl, hcase⟩ := hinv.instr hm
  have hok := hok _ hcode
  have hk := hinv.located.known
  have hheight := hinv.sp
  have hidx := hfl.index
  have hlocals : f.locals = f.nParams + f.nLocals := rfl
  have hfetched : (Run.fetched s).Below v := Mach.Below.of_log rfl
  generalize instrAt m f (s.pc - f.codeOff) = i at *
  cases hcase with
  | @plain p q he hp =>
    have hspec := spec_exec (v := v) (s := Run.fetched s) m.dev he
      (by simp only [Run.fetched]; omega) (Run.fetched s) ⟨PlainFrame.refl v i p _, rfl, rfl⟩
    have hlocal (k : Nat) (hloc : localOf i = some k) : (Run.fetched s).fp + k < (Run.fetched s).sp := by
      have := local_lt hidx hloc
      simp only [Run.fetched]
      omega
    cases hx : Run.exec v m.dev i (Run.fetched s) with
    | ok a t => exact below_plain (s := Run.fetched s) hcap rfl hsp hlocal (hspec.1 a t hx).1
    | error e t => exact below_plain (s := Run.fetched s) hcap rfl hsp hlocal (hspec.2 e t hx).1
  | unwind hop h0 h1 =>
    simp only [Run.exec, hop, Run.unwind_apply]
    split_ifs with h2 h3
    · exact hfetched
    · refine Mach.Below.cons (l := [_]) rfl (below_cells ?_) fun b hb => ?_
      · simp only [Run.fetched] at h2 ⊢
        omega
      · rw [List.mem_singleton.mp hb]
        refine below_cells ?_
        simp only [Run.fetched] at h2 ⊢
        omega
    · exact Mach.Below.of_log rfl
  | br hop h1 h2 =>
    simp only [Run.exec, hop, Run.br_apply]
    split_ifs <;> exact Mach.Below.of_log rfl
  | brIfNot hop h0 h1 h2 =>
    have hdec : dec32 s.sp = s.sp - 1 := dec32_of_pos (by omega)
    simp only [Run.exec, hop, bind_apply, Run.pop_apply, Run.fetched, ite_run, modify_apply,
      pure_apply, hdec]
    split_ifs <;>
    · refine Mach.Below.cons (l := []) rfl (below_cells (by omega)) fun b hb => ?_
      cases hb
  | @call g hop hg hp =>
    have hfun : m.dev.funcs[i.b]? = some g := hg
    simp only [Run.exec, hop, hfun]
    exact below_enter hcap g hfetched
  | @returnCall g hop hg hp =>
    have hfun : m.dev.funcs[i.b]? = some g := hg
    simp only [Run.exec, hop, hfun]
    exact below_returnCall hcap hfetched hsp (by simp only [Run.fetched]; omega)
  | leave hop hp =>
    have hexec : Run.exec v m.dev i (Run.fetched s) = Run.leave v (Run.fetched s) := by
      rcases hop with hop | hop <;> simp only [Run.exec, hop]
    have hcsp := hinv.csp
    have hcall := hinv.callers
    have hfr : (s.frames (v.frames.idx (s.csp - 1))).spBase = s.fp ∧
        (s.frames (v.frames.idx (s.csp - 1))).nResults = f.nResults := by
      rw [hcsp]
      cases gs with
      | nil => exact hcall
      | cons g gs => exact ⟨hcall.1, hcall.2.1⟩
    have hlog (t : Mach) (ht : t.log =
        [⟨.stack, v.stack.idx (s.frames (v.frames.idx (s.csp - 1))).spBase,
            (s.frames (v.frames.idx (s.csp - 1))).nResults⟩,
          ⟨.stack, v.stack.idx (s.sp - (s.frames (v.frames.idx (s.csp - 1))).nResults),
            (s.frames (v.frames.idx (s.csp - 1))).nResults⟩,
          ⟨.frames, v.frames.idx (s.csp - 1), 1⟩]) : t.Below v := by
      refine Mach.Below.cons ht (below_cells (by omega)) fun b hb => ?_
      rcases List.mem_cons.mp hb with rfl | hb
      · exact below_cells (by omega)
      · rw [List.mem_singleton.mp hb]
        exact below_other (by decide) _ _
    rw [hexec, Run.leave_apply]
    simp only
    split_ifs
    · exact hfetched
    · refine Mach.Below.cons (l := []) rfl (below_other (by decide) _ _) fun b hb => ?_
      cases hb
    · exact hlog _ rfl
    · exact hlog _ rfl
  | unreachable hop =>
    simp only [Run.exec, hop, throw_apply]
    exact hfetched
  | callHost hop hp =>
    simp only [Run.exec, hop, Run.callHost_apply]
    split_ifs with h1 h2
    · exact hfetched
    · exact hfetched
    · refine Mach.Below.cons (l := []) rfl (below_cells ?_) fun b hb => by cases hb
      simp only [Run.fetched] at h2 ⊢
      omega
  | @callIndirect fpv hop hfp hp =>
    have hdec : dec32 (Run.fetched s).sp = s.sp - 1 :=
      dec32_of_pos (show 0 < (Run.fetched s).sp by simp only [Run.fetched]; omega)
    have hpop : ({ Run.fetched s with
        sp := s.sp - 1, log := ⟨.stack, v.stack.idx (s.sp - 1), 1⟩ :: (Run.fetched s).log } :
        Mach).Below v := by
      refine Mach.Below.cons rfl (below_cells (by omega)) fun b hb => ?_
      cases hb
    simp only [Run.exec, hop, bind_apply, Run.pop_apply, hdec, Run.indirectCallee_apply]
    cases Run.indirectTarget m.dev i.b
        (u32 ((Run.fetched s).stack (v.stack.idx (s.sp - 1)))).toNat with
    | none => exact hpop
    | some g => exact below_enter hcap g hpop

/-- Fetching and executing an instruction stays below the capacity. -/
theorem step_below (hok : StepOk v m s) : (final (Run.step v m.dev s)).Below v := by
  have hcode : m.dev.code[s.pc]? = some (instrAt m f (s.pc - f.codeOff)) := (hinv.instr hm).1
  rw [Run.final_step v m.dev hcode]
  exact exec_below hm hinv hcap hsp hok

omit hcap in
/-- A step of a run keeps the stack pointer inside the capacity. -/
theorem go_sp (hok : StepOk v m s) (hg : Go v m Declared s s') : s'.sp ≤ STACK_CAP := by
  have hstep := step_frame hm hinv hok
  cases hg with
  | step h =>
    rw [h] at hstep
    exact hstep.2.1
  | reenter h =>
    have := h.sp
    omega
  | @host t _ _ h hn h' =>
    subst hn
    obtain ⟨i, -, -, rfl⟩ := Run.step_pending v m.dev h
    have hle : (Run.suspended v i.a i.b (Run.fetched s)).sp ≤ s.sp := Nat.sub_le _ _
    have hres := h'.sp
    rcases h'.fits with h0 | hfit
    · omega
    · exact hfit

omit hinv hcap hsp in
/-- Along a run the frame discipline holds and the stack pointer stays inside the capacity. -/
theorem Runs.capped {s0 : Mach} (hr : Runs v m (StepOk v m) s0 s)
    (h0 : ∃ f gs, FrameInv v m f gs s0) (hsp0 : s0.sp ≤ STACK_CAP) :
    (∃ f gs, FrameInv v m f gs s) ∧ s.sp ≤ STACK_CAP := by
  induction hr with
  | refl => exact ⟨h0, hsp0⟩
  | tail _ hstep ih =>
    obtain ⟨⟨f, gs, hinv⟩, hsp⟩ := ih
    exact ⟨(go_frame hm hinv hstep.1 hstep.2).1, go_sp hm hinv hsp hstep.1 hstep.2⟩

end Step

/-! ## The entry loops -/

section Entry

variable (xs : List Slot) (e : EntryStack)

theorem puts_sp : (xs.foldl .put e).sp = e.sp + xs.length := by
  induction xs generalizing e with
  | nil => rfl
  | cons x xs ih =>
    rw [List.foldl_cons, ih, List.length_cons]
    show e.sp + 1 + xs.length = _
    omega

theorem puts_log (a : Access) : a ∈ (xs.foldl .put e).log ↔
    a ∈ e.log ∨ ∃ k, k < xs.length ∧ a = ⟨.stack, e.sp + k, 1⟩ := by
  induction xs generalizing e with
  | nil =>
    rw [List.foldl_nil]
    simp
  | cons x xs ih =>
    have hlog : (e.put x).log = ⟨.stack, e.sp, 1⟩ :: e.log := rfl
    have hsp : (e.put x).sp = e.sp + 1 := rfl
    rw [List.foldl_cons, ih, hlog, hsp, List.mem_cons, List.length_cons]
    constructor
    · rintro ((rfl | h) | ⟨k, hk, rfl⟩)
      · exact .inr ⟨0, Nat.succ_pos _, rfl⟩
      · exact .inl h
      · exact .inr ⟨k + 1, Nat.succ_lt_succ hk, by rw [Nat.add_assoc, Nat.add_comm 1]⟩
    · rintro (h | ⟨k, hk, rfl⟩)
      · exact .inl (.inr h)
      · cases k with
        | zero => exact .inl (.inl rfl)
        | succ k => exact .inr ⟨k, Nat.lt_of_succ_lt_succ hk, by rw [Nat.add_assoc, Nat.add_comm 1]⟩

variable {f : FuncMeta} {args : List Slot}

theorem entryLoops_log (a : Access) : a ∈ (entryLoops f args).log ↔
    ∃ k, k < args.length + f.nLocals ∧ a = ⟨.stack, k, 1⟩ := by
  have hsp : (args.foldl .put ({} : EntryStack)).sp = args.length :=
    (puts_sp args {}).trans (Nat.zero_add _)
  unfold entryLoops
  rw [puts_log, puts_log, hsp, List.length_replicate]
  constructor
  · rintro ((h | ⟨k, hk, rfl⟩) | ⟨k, hk, rfl⟩)
    · cases h
    · exact ⟨k, by omega, by rw [Nat.zero_add]⟩
    · exact ⟨args.length + k, by omega, rfl⟩
  · rintro ⟨k, hk, rfl⟩
    by_cases h : k < args.length
    · exact .inl (.inr ⟨k, h, by rw [Nat.zero_add]⟩)
    · exact .inr ⟨k - args.length, by omega, by rw [Nat.add_sub_cancel' (Nat.le_of_not_lt h)]⟩

/-- The loops stay inside the stack just when parameters and locals fit. -/
theorem entryLoops_capped (hargs : args.length = f.nParams) :
    (∀ a ∈ (entryLoops f args).log, a.Capped) ↔ f.nParams + f.nLocals ≤ STACK_CAP := by
  rw [← hargs]
  constructor
  · intro h
    by_contra hbig
    have hlast := h ⟨.stack, STACK_CAP, 1⟩ ((entryLoops_log _).mpr ⟨STACK_CAP, by omega, rfl⟩) rfl
    exact absurd hlast (Nat.not_succ_le_self _)
  · intro h a ha
    obtain ⟨k, hk, rfl⟩ := (entryLoops_log a).mp ha
    intro _
    simp only
    omega

end Entry

end CuWasm
