import CuWasm.Proofs.BatchProofs
import CuWasm.Proofs.RunnerProofs

/-!
# A batch thread and the reference runner

`run_gpu_host` executes the same instructions on a larger stack, and asks the same host. A thread that
meets none of its own limits ends as `run_gpu_host` does. One `run_instance` call of both is compared by
`loop_alike`; the induction is on the instructions that are left to the thread.
-/

namespace CuWasm

open Exit BlockMove Wasm Structured Translate

section Mailbox

variable {own : Region → Nat → Prop} {v v' : Views} {ar : Arrays} {m : DevModule} {s t : Mach}

/-- The mailboxes after a `run_instance` call of two machines that look alike. -/
theorem loop_mb (hfit : v.Fits v') (n : Nat) (h : Alike own v v' ar s t) (hmb : t.mb = s.mb)
    (hin : StaysIn own v m n s) (hg : GrowsAlikeFor v v' m n s)
    (hesc : ¬ Escape v v' (Run.loop v m n s).1) :
    (Run.loop v' m n t).2.mb = (Run.loop v m n s).2.mb := by
  induction n generalizing s t with
  | zero => exact hmb
  | succ n ih =>
    have hend := step_ends hfit m h fun i hi hop => hg 0 s i (Nat.succ_pos n) (.zero s) hi hop
    have hclean := hin 0 s (Nat.succ_pos n) (.zero s)
    have hkeep := step_keeps_request (v := v) (m := m) (s := s)
    have hkeep' := step_keeps_request (v := v') (m := m) (s := t)
    unfold Run.loop at hesc ⊢
    generalize hs : Run.step v m s = r at hend hclean hesc hkeep ⊢
    generalize ht : Run.step v' m t = r' at hend hkeep' ⊢
    cases hend with
    | @ok a u u' h' =>
      have hu : u.mb = s.mb := congrArg Prod.fst (hkeep fun x => by rintro ⟨⟩)
      have hu' : u'.mb = t.mb := congrArg Prod.fst (hkeep' fun x => by rintro ⟨⟩)
      exact ih h' (hu'.trans (hmb.trans hu.symm)) (hin.tail hs) (hg.tail hs) hesc
    | @error e u u' h' =>
      by_cases he : e = .hostcallPending
      · subst he
        exact pending_mb h hmb hs ht hclean
      · have hne (y x : Mach) : (.error e y : EStateM.Result Status Mach Unit) ≠
            .error .hostcallPending x := by
          rintro ⟨⟩
          exact he rfl
        have hu : u.mb = s.mb := congrArg Prod.fst (hkeep (hne u))
        have hu' : u'.mb = t.mb := congrArg Prod.fst (hkeep' (hne u'))
        exact hu'.trans (hmb.trans hu.symm)
    | spoiled hb => exact absurd hb hclean
    | escaped he => exact absurd he hesc

end Mailbox

section Live

variable {v : Views} {m : DevModule} {i : CuOp} {s : Mach} {a : Access}

/-- An access to a live flag other than that of the segment of a `memory.init` or a `data.drop`. -/
def Access.stray (v : Views) (i : CuOp) (a : Access) : Bool :=
  a.region == .live &&
    !((i.op == .memoryInit || i.op == .dataDrop) && a == ⟨.live, v.live + i.a, 1⟩)

theorem exec_keeps_stray : Keeps (fun s => s.log.filter (Access.stray v i)) (Run.exec v m i) := by
  refine Run.exec_keeps v m { log := fun s a ha => ?_, flag := fun hop s => ?_ }
  · exact List.filter_cons_of_neg (by simp [Access.stray, ha])
  · refine List.filter_cons_of_neg ?_
    rcases hop with hop | hop <;> simp [Access.stray, hop]

/-- Only a `memory.init` and a `data.drop` look at a live flag, at that of their segment. -/
theorem step_flag (ha : a ∈ (final (Run.step v m s)).log) (hr : a.region = .live) :
    ∃ i, m.code[s.pc]? = some i ∧ (i.op = .memoryInit ∨ i.op = .dataDrop) ∧
      a = ⟨.live, v.live + i.a, 1⟩ := by
  cases hi : m.code[s.pc]? with
  | none =>
    rw [Run.step_apply, hi] at ha
    cases ha
  | some i =>
    rw [Run.final_step v m hi] at ha
    have hkeep : (final (Run.exec v m i (Run.fetched s))).log.filter (Access.stray v i) = [] :=
      exec_keeps_stray _
    have hno := List.filter_eq_nil_iff.mp hkeep a ha
    refine ⟨i, rfl, ?_⟩
    simpa [Access.stray, hr, or_iff_not_imp_left] using hno

end Live

section Thread

variable {m : HostModule} {maxSteps tid : Nat} {w : World}

/-! ## One `run_instance` call of a thread -/

/-- A thread inside `run_instance` takes the steps of the machine. -/
theorem steps_alone (maxSteps : Nat) {k : Nat} {s u : Mach} (hs : GpuHostState)
    (h : Steps (Run.step (m.batchViews tid) m.dev) k s u) (q : Nat) :
    (Interleave.alone (threadStep m maxSteps) tid)^[k] (⟨s, .inl (q + k), hs⟩, s.arrays) =
      (⟨u, .inl q, hs⟩, u.arrays) := by
  induction h with
  | zero s => rfl
  | @succ n s t u hstep hrest ih =>
    have hon : Run.step (m.batchViews tid) m.dev (s.on s.arrays) = .ok () t := hstep
    have hone : Interleave.alone (threadStep m maxSteps) tid
        ((⟨s, .inl (q + (n + 1)), hs⟩, s.arrays) : World) = (⟨t, .inl (q + n), hs⟩, t.arrays) := by
      show threadStep m maxSteps tid ⟨s, .inl (q + n + 1), hs⟩ s.arrays = _
      unfold threadStep
      simp only [hon]
    rw [Function.iterate_succ_apply, hone]
    exact ih

/-- A thread that runs `run_instance` to its end. -/
theorem loop_alone (m : HostModule) (maxSteps tid q : Nat) (s : Mach) (hs : GpuHostState) :
    ∃ k, (Interleave.alone (threadStep m maxSteps) tid)^[k] (⟨s, .inl q, hs⟩, s.arrays) =
        (let x := batchExit m maxSteps tid hs (Run.loop (m.batchViews tid) m.dev q s).1
          (Run.loop (m.batchViews tid) m.dev q s).2
        (x, x.mach.arrays)) ∧ 0 < k ∧ k ≤ q + 1 ∧
      (∀ j, j < k → ∃ n, ((Interleave.alone (threadStep m maxSteps) tid)^[j]
        ((⟨s, .inl q, hs⟩, s.arrays) : World)).1.phase = .inl n) ∧
      ∀ j u, j < q → Steps (Run.step (m.batchViews tid) m.dev) j s u → j < k := by
  induction q generalizing s with
  | zero =>
    refine ⟨1, rfl, Nat.one_pos, le_rfl, fun j hj => ⟨0, ?_⟩, fun j u hj => absurd hj (Nat.not_lt_zero j)⟩
    obtain rfl : j = 0 := by omega
    rfl
  | succ q ih =>
    have hon : Run.step (m.batchViews tid) m.dev (s.on s.arrays) =
      Run.step (m.batchViews tid) m.dev s := rfl
    unfold Run.loop
    cases hr : Run.step (m.batchViews tid) m.dev s with
    | ok a t =>
      have hone : Interleave.alone (threadStep m maxSteps) tid
          ((⟨s, .inl (q + 1), hs⟩, s.arrays) : World) = (⟨t, .inl q, hs⟩, t.arrays) := by
        show threadStep m maxSteps tid ⟨s, .inl (q + 1), hs⟩ s.arrays = _
        unfold threadStep
        simp only [hon, hr]
      obtain ⟨k, hk, -, hle, hrun, hlater⟩ := ih t
      refine ⟨k + 1, ?_, Nat.succ_pos k, by omega, fun j hj => ?_, fun j u hj hu => ?_⟩
      · rw [Function.iterate_succ_apply, hone]
        exact hk
      · cases j with
        | zero => exact ⟨q + 1, rfl⟩
        | succ j =>
          rw [Function.iterate_succ_apply, hone]
          exact hrun j (by omega)
      · cases hu with
        | zero => exact Nat.succ_pos k
        | succ hstep hrest =>
          rw [hr] at hstep
          cases hstep
          exact Nat.succ_lt_succ (hlater _ u (by omega) hrest)
    | error e t =>
      refine ⟨1, ?_, Nat.one_pos, by omega, fun j hj => ⟨q + 1, ?_⟩, fun j u hj hu => ?_⟩
      · show threadStep m maxSteps tid ⟨s, .inl (q + 1), hs⟩ s.arrays = _
        unfold threadStep
        simp only [hon, hr]
      · obtain rfl : j = 0 := by omega
        rfl
      · cases hu with
        | zero => exact Nat.one_pos
        | succ hstep hrest =>
          rw [hr] at hstep
          cases hstep

/-- A thread that has ended stays as it is. -/
theorem ended_alone {e : Status} (k : Nat) (h : w.1.phase = .inr e) :
    (Interleave.alone (threadStep m maxSteps) tid)^[k] w = w := by
  have hone : Interleave.alone (threadStep m maxSteps) tid w = w := by
    unfold Interleave.alone threadStep
    rw [h]
  exact Function.iterate_fixed hone k

/-- A thread that has ended after `k` instructions is the same after more. -/
theorem ended_later {e : Status} {k n : Nat}
    (h : ((Interleave.alone (threadStep m maxSteps) tid)^[k] w).1.phase = .inr e) (hkn : k ≤ n) :
    (Interleave.alone (threadStep m maxSteps) tid)^[n] w =
      (Interleave.alone (threadStep m maxSteps) tid)^[k] w := by
  have hstay : (Interleave.alone (threadStep m maxSteps) tid)^[n - k]
      ((Interleave.alone (threadStep m maxSteps) tid)^[k] w) =
        (Interleave.alone (threadStep m maxSteps) tid)^[k] w := ended_alone (n - k) h
  rwa [← Function.iterate_add_apply, Nat.sub_add_cancel hkn] at hstay

end Thread

section Follow

variable {m : HostModule} {f : FuncMeta} {maxSteps tid : Nat} {ar0 : Arrays} {u u' : Mach} {w : World}
  {loop : Nat → Option GpuHostEnd}

theorem batch_fits (m : HostModule) (tid : Nat) : (m.batchViews tid).Fits m.cpuViews :=
  ⟨show 512 ≤ 4096 by decide, rfl, rfl, rfl, rfl, rfl⟩

theorem tracked_own {r : Region} {j : Nat} (hr : r ≠ .live) (h : (m.batchViews tid).own r j) :
    m.tracked tid r j :=
  ⟨h, fun hl => absurd hl hr⟩

/-- Machines that look alike, as the ends of a thread and of `run_gpu_host`. -/
theorem Alike.sameEnd (h : Alike (m.tracked tid) (m.batchViews tid) m.cpuViews ar0 u u')
    (r : GpuHostRun) (st : VmState) (hs : GpuHostState) :
    SameEnd m tid (⟨u, .inr r.status, hs⟩, u.arrays) ⟨r, st, u'.arrays, hs⟩ := by
  refine ⟨rfl, rfl, fun j hj => ?_, fun j hj => ?_, fun j hj => ?_⟩
  · have hj' := h.stack.agree j (tracked_own (by decide) hj)
    rw [cpuViews_base, Nat.zero_add] at hj'
    exact hj'
  · have hj' := h.globals.agree j (tracked_own (by decide) hj)
    rw [cpuViews_base, Nat.zero_add] at hj'
    exact hj'
  · have hj' := h.mem.agree j (tracked_own (by decide) hj)
    rw [cpuViews_base, Nat.zero_add] at hj'
    exact hj'

/-- `gpu_host_dispatch` answers both alike. -/
theorem dispatch_alike (h : Alike (m.tracked tid) (m.batchViews tid) m.cpuViews ar0 u u')
    (hmb : u'.mb = u.mb) (hsize : u.memSize ≤ m.memSize) (hs : GpuHostState) :
    gpuHostDispatch hs u'.mb u'.arrays.mem (u'.save .hostcallPending).memSize =
      gpuHostDispatch hs u.mb (fun i => u.mem ((m.batchViews tid).memory + i)) u.memSize := by
  show gpuHostDispatch hs u'.mb u'.mem u'.memSize = _
  rw [hmb, h.regs.memSize]
  refine gpuHostDispatch_congr fun i hi => ?_
  have hi' := h.mem.agree i (tracked_own (by decide) (Nat.lt_of_lt_of_le hi hsize))
  rw [cpuViews_base, Nat.zero_add] at hi'
  exact hi'

/-- The answer to a host call: both go on with the result on the stack. -/
theorem answer_alike (maxSteps : Nat)
    (h : Alike (m.tracked tid) (m.batchViews tid) m.cpuViews ar0 u u') (hmb : u'.mb = u.mb)
    (hsize : u.memSize ≤ m.memSize) (hslot : u.sp < BENCH_STACK_CAP) {hs hs1 : GpuHostState}
    {mb1 : HostMailbox}
    (hd : gpuHostDispatch hs u.mb (fun i => u.mem ((m.batchViews tid).memory + i)) u.memSize =
      some (hs1, mb1)) :
    ∃ s1 st1 ar1, batchExit m maxSteps tid hs .hostcallPending u = ⟨s1, .inl maxSteps, hs1⟩ ∧
      gpuHostCall (u'.save .hostcallPending) u'.mb u'.arrays hs = .inr (st1, mb1, ar1, hs1) ∧
      Alike (m.tracked tid) (m.batchViews tid) m.cpuViews ar0 s1
        (Mach.load st1 m.memSize mb1 ar1) ∧ mb1 = s1.mb := by
  have hres := gpuHostDispatch_results hd
  have hpush : pushWhile (m.batchViews tid) mb1.results 0 mb1.nResults u.stack u.sp =
      (u.sp + 1, Function.update u.stack ((m.batchViews tid).stack.idx u.sp) (mb1.results 0)) := by
    rw [hres, pushWhile_one, if_pos hslot]
  have hroom : ¬ u.sp ≥ STACK_CAP :=
    Nat.not_le.mpr (Nat.lt_of_lt_of_le hslot (show 512 ≤ 4096 by decide))
  have hpush' : pushResults mb1 0 mb1.nResults u'.arrays.stack (u'.save .hostcallPending).sp =
      some (u'.sp + 1, Function.update u'.stack u'.sp (mb1.results 0)) := by
    show pushResults mb1 0 mb1.nResults u'.stack u'.sp = _
    rw [hres]
    unfold pushResults
    rw [h.regs.sp, if_neg hroom]
    rfl
  have hupd := h.stack.update (j := u.sp) (tracked_own (by decide) hslot) (mb1.results 0)
  have hat : m.cpuViews.base .stack + u.sp = u'.sp := by
    rw [cpuViews_base, Nat.zero_add, h.regs.sp]
  have hidx : (m.batchViews tid).base .stack + u.sp = (m.batchViews tid).stack.idx u.sp := by
    simp [Views.base, AoSView.idx]
  rw [hat, hidx] at hupd
  refine ⟨Mach.load { u.save .running with sp := u.sp + 1 } m.memSize mb1 { u.arrays with
      stack := Function.update u.stack ((m.batchViews tid).stack.idx u.sp) (mb1.results 0) },
    { u'.save .hostcallPending with sp := u'.sp + 1, status := .running },
    { u'.arrays with stack := Function.update u'.stack u'.sp (mb1.results 0) }, ?_, ?_, ?_, rfl⟩
  · unfold batchExit
    rw [if_pos rfl, hd]
    simp only [hpush]
  · unfold gpuHostCall
    rw [dispatch_alike h hmb hsize hs, hd]
    simp only [hpush']
  · exact ⟨⟨h.regs.pc, congrArg (· + 1) h.regs.sp, h.regs.fp, h.regs.csp, h.regs.fuel, rfl⟩, hupd,
      h.frames, h.globals, h.mem, h.live⟩

/-- A host call that `gpu_host_dispatch` does not know ends both. -/
theorem refusal_alike (maxSteps : Nat)
    (h : Alike (m.tracked tid) (m.batchViews tid) m.cpuViews ar0 u u') (hmb : u'.mb = u.mb)
    (hsize : u.memSize ≤ m.memSize) {hs : GpuHostState}
    (hd : gpuHostDispatch hs u.mb (fun i => u.mem ((m.batchViews tid).memory + i)) u.memSize = none) :
    batchExit m maxSteps tid hs .hostcallPending u = ⟨u, .inr .unsupportedOp, hs⟩ ∧
      gpuHostCall (u'.save .hostcallPending) u'.mb u'.arrays hs =
        .inl ⟨{ status := .unsupportedOp, error := "unsupported host fn" },
          u'.save .hostcallPending, u'.arrays, hs⟩ := by
  constructor
  · unfold batchExit
    rw [if_pos rfl, hd]
  · unfold gpuHostCall
    rw [dispatch_alike h hmb hsize hs, hd]

section Rounds

variable {st : VmState} {mb : HostMailbox} {ar : Arrays} {hs : GpuHostState} {rounds : Nat}

/-! ## One round of `run_gpu_host` -/

theorem gpuHostLoop_last {e : Status}
    (h : Run.loop m.cpuViews m.dev maxSteps (Mach.load st m.memSize mb ar) = (e, u'))
    (he : e ≠ .hostcallPending) :
    gpuHostLoop m f maxSteps (rounds + 1) st mb ar hs = some
      ⟨{ status := e, result := if f.nResults > 0 ∧ u'.sp > 0 then u'.stack 0 else 0 },
        u'.save e, u'.arrays, hs⟩ := by
  unfold gpuHostLoop runInstance
  rw [h]
  exact if_pos he

theorem gpuHostLoop_refused {r : GpuHostEnd}
    (h : Run.loop m.cpuViews m.dev maxSteps (Mach.load st m.memSize mb ar) = (.hostcallPending, u'))
    (hcall : gpuHostCall (u'.save .hostcallPending) u'.mb u'.arrays hs = .inl r) :
    gpuHostLoop m f maxSteps (rounds + 1) st mb ar hs = some r := by
  unfold gpuHostLoop runInstance
  rw [h]
  simp only [hcall]
  exact if_neg fun hne => hne rfl

theorem gpuHostLoop_next {st1 : VmState} {mb1 : HostMailbox} {ar1 : Arrays} {hs1 : GpuHostState}
    (h : Run.loop m.cpuViews m.dev maxSteps (Mach.load st m.memSize mb ar) = (.hostcallPending, u'))
    (hcall : gpuHostCall (u'.save .hostcallPending) u'.mb u'.arrays hs = .inr (st1, mb1, ar1, hs1)) :
    gpuHostLoop m f maxSteps (rounds + 1) st mb ar hs =
      gpuHostLoop m f maxSteps rounds st1 mb1 ar1 hs1 := by
  conv_lhs => unfold gpuHostLoop runInstance
  rw [h]
  simp only [hcall]
  exact if_neg fun hne => hne rfl

end Rounds

/-- The next instruction of a thread stays with the cells in which both agree. -/
theorem HostModule.Private.tracked (hp : m.Private tid w) (hmatch : m.Matches tid w) {n : Nat}
    (hph : w.1.phase = .inl (n + 1)) : ¬ Spoiled (m.tracked tid) (m.batchViews tid)
      (final (Run.step (m.batchViews tid) m.dev w.mach)) := by
  rintro ⟨a, ha, hout⟩
  refine hp.2 n hph ⟨a, ha, fun hin => hout fun j h1 h2 => ⟨hin j h1 h2, fun hr => ?_⟩⟩
  have hown := hin j h1 h2
  obtain ⟨i, hi, hop, rfl⟩ := step_flag ha hr
  obtain rfl : j = i.a := by
    have hle : (m.batchViews tid).live + i.a ≤ (m.batchViews tid).live + j := h1
    have hlt : (m.batchViews tid).live + j < (m.batchViews tid).live + i.a + 1 := h2
    omega
  exact (hmatch n i hph hi).2 hop hown

/-- The thread and `run_gpu_host` are about to call `run_instance` in states that look alike; `loop` is
what `run_gpu_host` returns from here on. -/
structure Abreast (m : HostModule) (f : FuncMeta) (maxSteps tid : Nat) (ar0 : Arrays) (w : World)
    (loop : Nat → Option GpuHostEnd) : Prop where
  work : AtWork m tid w
  meet : ∃ s hs st ar, w = (⟨s, .inl maxSteps, hs⟩, s.arrays) ∧
    Alike (m.tracked tid) (m.batchViews tid) m.cpuViews ar0 s (Mach.load st m.memSize s.mb ar) ∧
    loop = fun rounds => gpuHostLoop m f maxSteps rounds st s.mb ar hs

/-- How both leave `run_instance`: the thread is out of stack, both end, or both go on with an answer. -/
inductive Parts (m : HostModule) (f : FuncMeta) (maxSteps tid : Nat) (ar0 : Arrays) (w : World)
    (loop : Nat → Option GpuHostEnd) : Prop where
  | overflow (h : w.1.phase = .inr .trapStackOverflow)
  | ends {r : GpuHostEnd} (hret : ∀ rounds, loop (rounds + 1) = some r) (hsame : SameEnd m tid w r)
  | goes {loop' : Nat → Option GpuHostEnd} (hnext : Abreast m f maxSteps tid ar0 w loop')
      (hloop : ∀ rounds, loop (rounds + 1) = loop' rounds)

/-- One `run_instance` call of both. -/
theorem Abreast.round (hm : Accepted m) (hsize : SizeOk m.memSize m.memSize)
    (h : Abreast m f maxSteps tid ar0 w loop) :
    ∃ k, 0 < k ∧ k ≤ maxSteps + 1 ∧
      (∀ j, j < k → ∃ n, ((Interleave.alone (threadStep m maxSteps) tid)^[j] w).1.phase = .inl n) ∧
      ((∀ j, j < k → CanGo m tid ((Interleave.alone (threadStep m maxSteps) tid)^[j] w) ∧
          m.Matches tid ((Interleave.alone (threadStep m maxSteps) tid)^[j] w)) →
        Parts m f maxSteps tid ar0 ((Interleave.alone (threadStep m maxSteps) tid)^[k] w) loop) := by
  obtain ⟨hw, s, hs, st, ar, rfl, halike, rfl⟩ := h
  obtain ⟨k, hk, hk0, hle, hrun, hlater⟩ := loop_alone m maxSteps tid maxSteps s hs
  refine ⟨k, hk0, hle, hrun, fun hgo => ?_⟩
  have hwork := hw.along hm hsize fun j hj _ => (hgo j hj).1
  -- the thread in front of an instruction
  have hat {j : Nat} {u : Mach} (hj : j < maxSteps)
      (hu : Steps (Run.step (m.batchViews tid) m.dev) j s u) :
      (Interleave.alone (threadStep m maxSteps) tid)^[j] (⟨s, .inl maxSteps, hs⟩, s.arrays) =
        (⟨u, .inl (maxSteps - j - 1 + 1), hs⟩, u.arrays) := by
    have hat := steps_alone maxSteps hs hu (maxSteps - j)
    rw [Nat.sub_add_cancel hj.le] at hat
    rw [hat, show maxSteps - j - 1 + 1 = maxSteps - j by omega]
  have hstays : StaysIn (m.tracked tid) (m.batchViews tid) m.dev maxSteps s := by
    intro j u hj hu
    have hjk := hlater j u hj hu
    have hclean := fun n => ((hwork j hjk.le).keeps hm (hgo j hjk).1).tracked (hgo j hjk).2 (n := n)
    rw [hat hj hu] at hclean
    exact hclean _ rfl
  have hgrows : GrowsAlikeFor (m.batchViews tid) m.cpuViews m.dev maxSteps s := by
    intro j u i hj hu hi hop
    have hmatch := (hgo j (hlater j u hj hu)).2
    rw [hat hj hu] at hmatch
    exact (hmatch _ i rfl hi).1 hop
  generalize hp : Run.loop (m.batchViews tid) m.dev maxSteps s = p at hk
  obtain ⟨e, u⟩ := p
  simp only at hk
  have hwk := hwork k le_rfl
  rw [hk] at hwk ⊢
  have hexit (he : e ≠ .hostcallPending) : batchExit m maxSteps tid hs e u = ⟨u, .inr e, hs⟩ := if_neg he
  by_cases hover : e = .trapStackOverflow
  · exact .overflow (by rw [hexit (by rw [hover]; decide), hover])
  have hesc : ¬ Escape (m.batchViews tid) m.cpuViews
      (Run.loop (m.batchViews tid) m.dev maxSteps s).1 := by
    rw [hp]
    exact fun h => hover h.1
  obtain ⟨hst, hloop, -⟩ := loop_alike (batch_fits m tid) maxSteps halike hstays hgrows hesc
  have hloopmb := loop_mb (batch_fits m tid) maxSteps halike rfl hstays hgrows hesc
  rw [hp] at hst hloop hloopmb
  generalize hp' : Run.loop m.cpuViews m.dev maxSteps (Mach.load st m.memSize s.mb ar) = p' at *
  obtain ⟨e', u'⟩ := p'
  simp only at hst hloop hloopmb
  subst hst
  by_cases hpend : e' = .hostcallPending
  · subst hpend
    obtain ⟨hrunning, -⟩ | ⟨j, u0, hj, hsteps, hr⟩ := loop_ends hp
    · cases hrunning
    -- the thread in front of the host call
    have hjk := hlater j u0 hj hsteps
    have hwj := hwork j hjk.le
    have hgoj := (hgo j hjk).1
    rw [hat hj hsteps] at hwj hgoj
    have husize : u.memSize ≤ m.memSize := by
      obtain ⟨i, -, -, hu⟩ := Run.step_pending _ m.dev hr
      rw [hu]
      exact hwj.size.le
    cases hd : gpuHostDispatch hs u.mb (fun i => u.mem ((m.batchViews tid).memory + i)) u.memSize with
    | none =>
      obtain ⟨hx, hcall⟩ := refusal_alike maxSteps hloop hloopmb husize hd
      rw [hx]
      have hsame := hloop.sameEnd { status := .unsupportedOp, error := "unsupported host fn" }
        (u'.save .hostcallPending) hs
      exact .ends (fun rounds => gpuHostLoop_refused hp' hcall) hsame
    | some q =>
      obtain ⟨hs1, mb1⟩ := q
      obtain ⟨s1, st1, ar1, hx, hcall, hnext, hmb1⟩ :=
        answer_alike maxSteps hloop hloopmb husize (answer_slot (hgoj _ rfl).2.2 hr hd).2 hd
      subst hmb1
      rw [hx] at hwk ⊢
      exact .goes ⟨hwk, s1, hs1, st1, ar1, rfl, hnext, rfl⟩ fun rounds => gpuHostLoop_next hp' hcall
  · rw [hexit hpend]
    have hsame := hloop.sameEnd
      { status := e', result := if f.nResults > 0 ∧ u'.sp > 0 then u'.stack 0 else 0 } (u'.save e') hs
    exact .ends (fun rounds => gpuHostLoop_last hp' hpend) hsame

/-- Where the thread ends, `run_gpu_host` ends in the same way. -/
theorem Abreast.follows (hm : Accepted m) (hsize : SizeOk m.memSize m.memSize) {e : Status}
    (he : e ≠ .trapStackOverflow) (n : Nat) : ∀ {w : World} {loop : Nat → Option GpuHostEnd},
      Abreast m f maxSteps tid ar0 w loop →
      (∀ j, j < n → CanGo m tid ((Interleave.alone (threadStep m maxSteps) tid)^[j] w) ∧
        m.Matches tid ((Interleave.alone (threadStep m maxSteps) tid)^[j] w)) →
      ((Interleave.alone (threadStep m maxSteps) tid)^[n] w).1.phase = .inr e →
      ∃ rounds r, loop rounds = some r ∧
        SameEnd m tid ((Interleave.alone (threadStep m maxSteps) tid)^[n] w) r := by
  induction n using Nat.strong_induction_on with
  | _ n ih =>
    intro w loop h hgo hend
    obtain ⟨k, hk0, -, hrun, hparts⟩ := h.round hm hsize
    have hkn : k ≤ n := by
      by_contra hlt
      obtain ⟨q, hq⟩ := hrun n (by omega)
      rw [hend] at hq
      cases hq
    have hshift (j : Nat) (hj : k ≤ j) : (Interleave.alone (threadStep m maxSteps) tid)^[j - k]
        ((Interleave.alone (threadStep m maxSteps) tid)^[k] w) =
          (Interleave.alone (threadStep m maxSteps) tid)^[j] w := by
      rw [← Function.iterate_add_apply, Nat.sub_add_cancel hj]
    cases hparts fun j hj => hgo j (by omega) with
    | overflow hover =>
      rw [ended_later hover hkn, hover] at hend
      cases hend
      exact absurd rfl he
    | ends hret hsame =>
      rw [ended_later hsame.status hkn]
      exact ⟨0 + 1, _, hret 0, hsame⟩
    | goes hnext hloop =>
      obtain ⟨rounds, r, hret, hsame⟩ := ih (n - k) (by omega) hnext
        (fun j hj => by rw [← Function.iterate_add_apply]; exact hgo (j + k) (by omega))
        (by rw [hshift n hkn]; exact hend)
      rw [hshift n hkn] at hsame
      exact ⟨rounds + 1, r, (hloop rounds).trans hret, hsame⟩

/-- Where `run_gpu_host` ends, the thread ends in the same way or is out of stack. -/
theorem Abreast.followed (hm : Accepted m) (hsize : SizeOk m.memSize m.memSize) {r : GpuHostEnd}
    (rounds : Nat) : ∀ {n : Nat} {w : World} {loop : Nat → Option GpuHostEnd},
      Abreast m f maxSteps tid ar0 w loop → rounds * (maxSteps + 1) ≤ n →
      (∀ j, j < n → CanGo m tid ((Interleave.alone (threadStep m maxSteps) tid)^[j] w) ∧
        m.Matches tid ((Interleave.alone (threadStep m maxSteps) tid)^[j] w)) →
      loop rounds = some r →
      ((Interleave.alone (threadStep m maxSteps) tid)^[n] w).1.phase = .inr .trapStackOverflow ∨
        SameEnd m tid ((Interleave.alone (threadStep m maxSteps) tid)^[n] w) r := by
  induction rounds with
  | zero =>
    intro n w loop h _ _ hret
    obtain ⟨-, s, hs, st, ar, -, -, rfl⟩ := h
    cases hret
  | succ rounds ih =>
    intro n w loop h hn hgo hret
    obtain ⟨k, -, hle, -, hparts⟩ := h.round hm hsize
    rw [Nat.add_mul, Nat.one_mul] at hn
    have hkn : k ≤ n := by omega
    cases hparts fun j hj => hgo j (by omega) with
    | overflow hover => exact .inl (by rw [ended_later hover hkn, hover])
    | ends hret' hsame =>
      rw [hret' rounds] at hret
      cases hret
      exact .inr (by rw [ended_later hsame.status hkn]; exact hsame)
    | goes hnext hloop =>
      rw [hloop rounds] at hret
      have hrest := ih (n := n - k) hnext (by omega)
        (fun j hj => by rw [← Function.iterate_add_apply]; exact hgo (j + k) (by omega)) hret
      rwa [← Function.iterate_add_apply, Nat.sub_add_cancel hkn] at hrest

theorem slot_mod {l i j : Nat} (h : j < l) : (i * l + j) % l = j := by
  rw [Nat.mul_comm, Nat.mul_add_mod, Nat.mod_eq_of_lt h]

/-- What `upload_wasm_call` gives to a thread looks like what `run_gpu_host` starts with. -/
theorem entry_alike (m : HostModule) (f : FuncMeta) (args : List Slot) (tid : Nat) :
    Alike (m.tracked tid) (m.batchViews tid) m.cpuViews (m.entryArrays f args)
      (Mach.load (batchState m f) m.memSize {} (m.batchArrays f args))
      (Mach.load (entryState m f BENCH_MAX_STEPS) m.memSize {} (m.entryArrays f args)) where
  regs := ⟨rfl, rfl, rfl, rfl, rfl, rfl⟩
  stack := by
    refine .start fun j hj => ?_
    have hj' : j < BENCH_STACK_CAP := hj.1
    show entryStack args _ = if _ then _ else _
    simp only [Views.base, AoSView.idx, HostModule.cpuViews, HostModule.batchViews, Nat.zero_mul,
      Nat.add_zero, Nat.zero_add, slot_mod hj']
    unfold entryStack
    by_cases hlt : j < args.length
    · rw [if_pos hlt]
    · rw [if_neg hlt, List.getD_eq_getElem?_getD, List.getElem?_eq_none (Nat.le_of_not_lt hlt)]
      rfl
  frames := by
    refine .start fun j hj => ?_
    have hj' : j < BENCH_FRAME_CAP := hj.1
    show (if _ then _ else _) = if _ then _ else _
    simp only [Views.base, AoSView.idx, HostModule.cpuViews, HostModule.batchViews, Nat.zero_mul,
      Nat.add_zero, Nat.zero_add, slot_mod hj']
  globals := by
    refine .start fun j hj => ?_
    have hj' : j < sliceLen m.globals.length := lt_sliceLen hj.1
    show m.globals.getD (0 + j) 0 = m.globals.getD ((tid * sliceLen m.globals.length + j) % _) 0
    rw [slot_mod hj', Nat.zero_add]
  mem := by
    refine .start fun j hj => ?_
    have hj' : j < sliceLen m.memSize := lt_sliceLen hj.1
    show m.memory (0 + j) = m.memory ((tid * sliceLen m.memSize + j) % _)
    rw [slot_mod hj', Nat.zero_add]
  live := by
    refine .start fun j hj => ?_
    show m.dataLive.getD (0 + j) 0 = 1
    rw [Nat.zero_add]
    exact hj.2 rfl

/-- A thread and `run_gpu_host` in front of their first `run_instance` call. -/
theorem Abreast.entry (hm : Accepted m) (hf : f ∈ m.funcs) (hcode : 0 < f.codeLen)
    (hfit : f.nParams + f.nLocals ≤ BENCH_STACK_CAP) (hsize : SizeOk m.memSize m.memSize)
    (maxSteps tid : Nat) (args : List Slot) (hs : GpuHostState) :
    Abreast m f maxSteps tid (m.entryArrays f args) (m.alone maxSteps f args hs tid 0)
      (fun rounds => gpuHostLoop m f maxSteps rounds (entryState m f BENCH_MAX_STEPS) {}
        (m.entryArrays f args) hs) :=
  ⟨AtWork.entry hm hf hcode hfit hsize maxSteps hs, _, hs, _, _, rfl, entry_alike m f args tid, rfl⟩

end Follow

/-- A thread of a batch and `run_gpu_host` end in the same way: with the same status, the same host state
and the same slices of the stack, the globals and the memory. The code has no `memory.grow`, no segment
of the module has been dropped, and the thread meets none of its own limits. -/
theorem batch_agrees_with_gpu_host {M : Wasm.Module} {ps : List (Parsed Payload)} {m0 m : HostModule}
    (hv : M.Valid) (he : Encodes M ps) (hm : loadWasm ps = .ok m0) (hver : verifyCuop m0 = .ok m)
    (htab : m.TableDefined) (hone : m.OneResult) (hgrow : ∀ i ∈ m.code, i.op ≠ .memoryGrow)
    (hlive : ∀ b ∈ m.dataLive, b = 1) {k : Nat} {f : FuncMeta} (hk : M.imports.length ≤ k)
    (hf : m.funcs[k]? = some f) (hfit : f.nParams + f.nLocals ≤ BENCH_STACK_CAP) {args : List Slot}
    {hs : GpuHostState} {tid n : Nat} {e : Status}
    (hroom : ∀ j, j ≤ n → m.roomy (m.alone BENCH_MAX_STEPS f args hs tid j))
    (hend : (m.alone BENCH_MAX_STEPS f args hs tid n).1.phase = .inr e) (hne : e ≠ .trapStackOverflow) :
    ∃ rounds r, gpuHostLoop m f BENCH_MAX_STEPS rounds (entryState m f BENCH_MAX_STEPS) {}
        (m.entryArrays f args) hs = some r ∧
      SameEnd m tid (m.alone BENCH_MAX_STEPS f args hs tid n) r := by
  have hverified : Verified M m0 m := ⟨loadWasm_translated he hm, hv, hver⟩
  have hsize := loaded_sizeOk hm hver
  have hsize' : SizeOk m.memSize m.memSize := ⟨hsize.pages, le_rfl, hsize.le.trans hsize.small⟩
  have haccepted := hverified.accepted
  have hentry := Abreast.entry haccepted (List.mem_of_getElem? hf)
    (hverified.code_pos_of hf (hverified.nHostImports.trans_le hk)) hfit hsize' BENCH_MAX_STEPS tid args hs
  refine hentry.follows haccepted hsize' hne n (fun j hj => ?_) hend
  refine ⟨(hentry.work.iterate hverified htab hone hsize' hroom j hj.le).2 hj, fun q i _ hi => ⟨fun hop => ?_,
    fun _ hlt => ?_⟩⟩
  · exact absurd hop (hgrow i (List.mem_of_getElem? hi))
  · rw [List.getD_eq_getElem?_getD, List.getElem?_eq_getElem hlt]
    exact hlive _ (List.getElem_mem hlt)

/-- The loaded function that asks for the ledger sequence, in one thread: whether there is room all the
time, and what the thread has got to. -/
def askThread : Option (Bool × Option Status × Nat) :=
  (loadWasm (askModule (.op (.call 0) .nil)).payloads).toOption.bind fun m0 =>
    (verifyCuop m0).toOption.map fun m =>
      (m.code.all (fun i => i.op != .callHost || i.declared.2 == 1) &&
          m.code.all (fun i => i.op != .memoryGrow) && m.table == [] && m.dataLive == [] &&
          m.funcs[1]? == some askMeta &&
          (List.range 3).all fun j => m.roomy (m.alone BENCH_MAX_STEPS askMeta [] {} 3 j),
        (m.alone BENCH_MAX_STEPS askMeta [] {} 3 2).outcome 3)

/-- Thread 3 and `run_gpu_host` get the same ledger sequence. -/
theorem thread_asks : ∃ m : HostModule,
    (m.alone BENCH_MAX_STEPS askMeta [] {} 3 2).outcome 3 = (some .ok, 25604) ∧
    ∃ rounds r, gpuHostLoop m askMeta BENCH_MAX_STEPS rounds (entryState m askMeta BENCH_MAX_STEPS) {}
        (m.entryArrays askMeta []) {} = some r ∧
      SameEnd m 3 (m.alone BENCH_MAX_STEPS askMeta [] {} 3 2) r := by
  have hload : askThread = some (true, some .ok, 25604) := by decide +kernel
  obtain ⟨m0, m, hm, hver, heval⟩ := loaded_eval hload
  have hchecks := congrArg Prod.fst heval
  have hout := congrArg Prod.snd heval
  have hstatus := congrArg Prod.fst hout
  simp only [Bool.and_eq_true, beq_iff_eq] at hchecks
  obtain ⟨⟨⟨⟨⟨hcode, hgrow⟩, htable⟩, hlive⟩, hf⟩, hroom⟩ := hchecks
  have hend : (m.alone BENCH_MAX_STEPS askMeta [] {} 3 2).1.phase = .inr .ok :=
    Sum.getRight?_eq_some_iff.mp hstatus
  refine ⟨m, hout, batch_agrees_with_gpu_host askModule_valid rfl hm hver ?_ ?_ ?_ ?_ le_rfl hf
    (by decide) (fun j hj => ?_) hend (by decide)⟩
  · intro i fi h
    rw [htable] at h
    cases h
  · intro i hi hop _
    have h := List.all_eq_true.mp hcode i hi
    simpa [hop] using h
  · intro i hi
    simpa using List.all_eq_true.mp hgrow i hi
  · intro b hb
    rw [hlive] at hb
    cases hb
  · exact List.all_eq_true.mp hroom j (List.mem_range.mpr (Nat.lt_succ_of_le hj))

end CuWasm
