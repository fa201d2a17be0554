import CuWasm.Proofs.BatchHostProofs
import CuWasm.Proofs.SliceProofs

/-!
# The batch kernel and the reference runner

A thread of a batch and `run_gpu_host` end in the same way, in both directions, under conditions on the
instructions that the thread executes: those that keep the threads in their slices, and that neither the
memory limit nor the live flags tell the two apart. The memory limit of a thread is the size of the memory
at the start, so a `memory.grow` that succeeds on the CPU fails in a batch (`grow_tells_apart`).
-/

namespace CuWasm

open Exit Wasm

section Reference

variable {m : HostModule} {tid : Nat} {w w' : World}

/-- A thread that shows the same ends in the same way. -/
theorem SameEnd.congr {r : GpuHostEnd} (h : SameThread (m.batchViews tid) w w')
    (hend : SameEnd m tid w r) : SameEnd m tid w' r where
  status := h.phase.trans hend.status
  hs := hend.hs.trans h.hs.symm
  stack := fun j hj => (hend.stack j hj).trans (h.slices.stack j hj).symm
  globals := fun j hj => (hend.globals j hj).trans (h.slices.globals j hj).symm
  mem := fun j hj => (hend.mem j hj).trans (h.slices.mem j hj).symm

theorem runGpuHost_eq {name : String} {fi : Nat} {f : FuncMeta} {args : List Slot}
    (hfind : m.findExport name = some fi) (hf : m.funcs[fi]? = some f) (hargs : args.length = f.nParams)
    (hs : GpuHostState) (maxSteps rounds : Nat) : runGpuHost m name args hs maxSteps rounds =
      gpuHostLoop m f maxSteps rounds (entryState m f maxSteps) {} (m.entryArrays f args) hs := by
  unfold runGpuHost
  simp only [hfind, hf]
  exact if_neg fun hne => hne hargs

end Reference

section Batch

variable {ps : List (Parsed Payload)} {m0 m : HostModule} {f : FuncMeta} {args : List Slot}
  {maxSteps : Nat} {hs : Nat → GpuHostState} {sched : List Nat} {tid : Nat}

theorem alone_ended {hs : GpuHostState} {e : Status} {k n : Nat} (hkn : k ≤ n)
    (h : (m.alone maxSteps f args hs tid k).1.phase = .inr e) :
    (m.alone maxSteps f args hs tid n).1.phase = .inr e :=
  (congrArg (fun w : World => w.1.phase) (ended_later h hkn)).trans h

theorem loaded_size (hm : loadWasm ps = .ok m0) (hver : verifyCuop m0 = .ok m) :
    SizeOk m.memSize m.memSize :=
  let hsize := loaded_sizeOk hm hver
  ⟨hsize.pages, le_rfl, hsize.le.trans hsize.small⟩

/-- A disciplined thread with the arrays to itself is at work and can go on. -/
theorem disciplined_alone (hm : loadWasm ps = .ok m0) (hver : verifyCuop m0 = .ok m) (hf : f ∈ m.funcs)
    (hcode : 0 < f.codeLen) (hfit : f.nParams + f.nLocals ≤ BENCH_STACK_CAP) {hs : GpuHostState} {n : Nat}
    (hsteps : ∀ j, j < n → m.Disciplined tid (m.alone maxSteps f args hs tid j)) (j : Nat) (hj : j < n) :
    AtWork m tid (m.alone maxSteps f args hs tid j) ∧ CanGo m tid (m.alone maxSteps f args hs tid j) := by
  have haccepted := (verifyCuop_accepted hver).1
  have hsize := loaded_size hm hver
  have hwork := (AtWork.entry haccepted hf hcode hfit hsize maxSteps hs).along haccepted hsize
    (fun i hi hw => hw.disciplined (hsteps i hi)) j hj.le
  exact ⟨hwork, hwork.disciplined (hsteps j hj)⟩

/-- Threads that are disciplined alone get among each other where they get alone. -/
theorem disciplined_same (hm : loadWasm ps = .ok m0) (hver : verifyCuop m0 = .ok m) (hf : f ∈ m.funcs)
    (hcode : 0 < f.codeLen) (hfit : f.nParams + f.nLocals ≤ BENCH_STACK_CAP)
    (hsteps : ∀ t j, j < sched.count t → m.Disciplined t (m.alone maxSteps f args (hs t) t j))
    (tid : Nat) : SameThread (m.batchViews tid) (m.alone maxSteps f args (hs tid) tid (sched.count tid))
      (m.among maxSteps f args hs sched tid) := by
  refine batch_same (fun t j hj => ?_) tid
  obtain ⟨hwork, hgo⟩ := disciplined_alone hm hver hf hcode hfit (hsteps t) j hj
  exact hwork.keeps (verifyCuop_accepted hver).1 hgo

end Batch

/-- A thread of a batch and `run_gpu_host` end in the same way: with the same status, the same host state
and the same slices of the stack, the globals and the memory. -/
theorem thread_matches_runner {ps : List (Parsed Payload)} {m0 m : HostModule}
    (hm : loadWasm ps = .ok m0) (hver : verifyCuop m0 = .ok m) {name : String} {fi : Nat} {f : FuncMeta}
    {args : List Slot} (hfind : m.findExport name = some fi) (hf : m.funcs[fi]? = some f)
    (hargs : args.length = f.nParams) (hcode : 0 < f.codeLen)
    (hfit : f.nParams + f.nLocals ≤ BENCH_STACK_CAP) (hs : Nat → GpuHostState) (sched : List Nat)
    (tid : Nat)
    (hsteps : ∀ t j, j < sched.count t →
      m.Disciplined t (m.alone BENCH_MAX_STEPS f args (hs t) t j))
    (hmatch : ∀ j, j < sched.count tid →
      m.Matches tid (m.alone BENCH_MAX_STEPS f args (hs tid) tid j)) :
    let w := m.among BENCH_MAX_STEPS f args hs sched tid
    (∀ e, w.1.phase = .inr e → e ≠ .trapStackOverflow →
      ∃ rounds r, runGpuHost m name args (hs tid) BENCH_MAX_STEPS rounds = some r ∧
        SameEnd m tid w r) ∧
    ∀ rounds r, runGpuHost m name args (hs tid) BENCH_MAX_STEPS rounds = some r →
      rounds * (BENCH_MAX_STEPS + 1) ≤ sched.count tid →
      w.1.phase = .inr .trapStackOverflow ∨ SameEnd m tid w r := by
  intro w
  have haccepted := (verifyCuop_accepted hver).1
  have hsize := loaded_size hm hver
  have hmem := List.mem_of_getElem? hf
  have hsame := disciplined_same hm hver hmem hcode hfit hsteps tid
  have hentry := Abreast.entry haccepted hmem hcode hfit hsize BENCH_MAX_STEPS tid args (hs tid)
  have hready (j : Nat) (hj : j < sched.count tid) :=
    And.intro (disciplined_alone hm hver hmem hcode hfit (hsteps tid) j hj).2 (hmatch j hj)
  refine ⟨fun e hend hne => ?_, fun rounds r hret hle => ?_⟩
  · obtain ⟨rounds, r, hret, hends⟩ :=
      hentry.follows haccepted hsize hne _ hready (hsame.phase.symm.trans hend)
    exact ⟨rounds, r, (runGpuHost_eq hfind hf hargs ..).trans hret, hends.congr hsame⟩
  · rw [runGpuHost_eq hfind hf hargs] at hret
    obtain hover | hends := hentry.followed haccepted hsize rounds hle hready hret
    · exact .inl (hsame.phase.trans hover)
    · exact .inr (hends.congr hsame)

/-- The function that asks for the ledger sequence, under a name. -/
def sequenceModule : Module :=
  { askModule (.op (.call 0) .nil) with exports := [⟨"sequence", true, 1⟩] }

/-- A schedule that gives thread 3 the time of two `run_instance` calls. -/
def longTurn : List Nat := List.replicate (2 * (BENCH_MAX_STEPS + 1)) 3

/-- The loaded module: its code, thread 3 in its first steps, and what `run_gpu_host` returns. -/
def askBoth : Option (Bool × Option Status × Option (Status × Nat)) :=
  (loadWasm sequenceModule.payloads).toOption.bind fun m0 =>
    (verifyCuop m0).toOption.map fun m =>
      (m.code.all (fun i => i.op == .endFunc || i.op == .callHost && i.declared == (0, 1)) &&
          m.findExport "sequence" == some 1 && m.funcs[1]? == some askMeta &&
          (List.range 2).all fun j =>
            (m.alone BENCH_MAX_STEPS askMeta [] {} 3 j).1.mach.sp < BENCH_STACK_CAP,
        (m.alone BENCH_MAX_STEPS askMeta [] {} 3 2).1.phase.getRight?,
        (runGpuHost m "sequence" [] {} BENCH_MAX_STEPS 2).map fun r =>
          (r.run.status, r.run.result.toNat))

/-- Code that only asks and returns does in a batch what it does in `run_gpu_host`. -/
theorem ask_matches {m : HostModule} {tid : Nat} {w : World}
    (hcode : ∀ i ∈ m.code, i.op = .endFunc ∨ i.op = .callHost ∧ i.declared = (0, 1)) : m.Matches tid w := by
  intro n i _ hi
  constructor <;> intro h <;> obtain hop | ⟨hop, -⟩ := hcode i (List.mem_of_getElem? hi) <;>
    rw [hop] at h <;> simp at h

/-- Thread 3 and `run_gpu_host` get the same ledger sequence. -/
theorem sequence_matches : ∃ m : HostModule,
    let w := m.among BENCH_MAX_STEPS askMeta [] (fun _ => {}) longTurn 3
    (∃ rounds r, runGpuHost m "sequence" [] {} BENCH_MAX_STEPS rounds = some r ∧ SameEnd m 3 w r) ∧
    ∃ r, runGpuHost m "sequence" [] {} BENCH_MAX_STEPS 2 = some r ∧
      (r.run.status, r.run.result.toNat) = (.ok, 25604) ∧
      (w.1.phase = .inr .trapStackOverflow ∨ SameEnd m 3 w r) := by
  have hload : askBoth = some (true, some .ok, some (.ok, 25604)) := by decide +kernel
  obtain ⟨m0, m, hm, hver, heval⟩ := loaded_eval hload
  simp only [Prod.mk.injEq, Bool.and_eq_true, beq_iff_eq] at heval
  obtain ⟨⟨⟨⟨hcode, hfind⟩, hf⟩, hsp⟩, hstatus, hrun⟩ := heval
  obtain ⟨r, hret, hr⟩ := Option.map_eq_some_iff.mp hrun
  have hend : (m.alone BENCH_MAX_STEPS askMeta [] {} 3 2).1.phase = .inr .ok :=
    Sum.getRight?_eq_some_iff.mp hstatus
  have hcount : longTurn.count 3 = 2 * (BENCH_MAX_STEPS + 1) := List.count_replicate_self
  have hcode' (i : CuOp) (hi : i ∈ m.code) :
      i.op = .endFunc ∨ i.op = .callHost ∧ i.declared = (0, 1) := by
    simpa using List.all_eq_true.mp hcode i hi
  have hsteps (t j : Nat) (hj : j < longTurn.count t) :
      m.Disciplined t (m.alone BENCH_MAX_STEPS askMeta [] {} t j) := by
    obtain rfl : t = 3 := List.eq_of_mem_replicate (List.count_pos_iff.mp (Nat.zero_lt_of_lt hj))
    by_cases hj : j < 2
    · exact ask_disciplined hcode' (of_decide_eq_true (List.all_eq_true.mp hsp j (List.mem_range.mpr hj)))
    · -- the thread has ended with its second step
      intro n i hph
      rw [alone_ended (Nat.le_of_not_lt hj) hend] at hph
      cases hph
  have hsame := disciplined_same hm hver (List.mem_of_getElem? hf) (by decide) (by decide) hsteps 3
  obtain ⟨hforth, hback⟩ := thread_matches_runner hm hver hfind hf rfl (by decide) (by decide)
    (fun _ => {}) longTurn 3 hsteps fun j _ => ask_matches hcode'
  have hle : 2 ≤ longTurn.count 3 := Nat.le_trans (Nat.le_mul_of_pos_right 2 (Nat.succ_pos _)) hcount.ge
  have hphase := hsame.phase.trans (alone_ended hle hend)
  exact ⟨m, hforth .ok hphase (by decide), r, hret, hr, hback 2 r hret hcount.ge⟩

/-- A function that grows the memory by a page. -/
def expandModule : Module where
  types := [[.func ([], [.i32])]]
  funcs := [0]
  mems := [{ initial := 1, maximum := some 2 }]
  exports := [⟨"grow", true, 0⟩]
  code := [{ locals := [], body := .op (.const (.i32 1)) (.op (.memoryGrow 0) .nil) }]

/-- The function. -/
def expandMeta : FuncMeta := ⟨0, 3, 0, 1, 0, 1⟩

/-- The loaded function, what thread 0 has got to after three steps, and what `run_gpu_host` returns. -/
def growBoth : Option (Bool × (Option Status × Nat) × Option (Status × Nat × Nat)) :=
  (loadWasm expandModule.payloads).toOption.bind fun m0 =>
    (verifyCuop m0).toOption.map fun m =>
      (m.findExport "grow" == some 0 && m.funcs[0]? == some expandMeta,
        (m.among BENCH_MAX_STEPS expandMeta [] (fun _ => {}) [0, 0, 0] 0).outcome 0,
        (runGpuHost m "grow" [] {} BENCH_MAX_STEPS 1).map fun r =>
          (r.run.status, r.run.result.toNat, (r.ar.stack 0).toNat))

/-- The memory grows in `run_gpu_host`, which returns 1, and not in a batch, where the result is -1. -/
theorem grow_tells_apart : ∃ m0 m, loadWasm expandModule.payloads = .ok m0 ∧ verifyCuop m0 = .ok m ∧
    m.findExport "grow" = some 0 ∧ m.funcs[0]? = some expandMeta ∧
    let w := m.among BENCH_MAX_STEPS expandMeta [] (fun _ => {}) [0, 0, 0] 0
    w.outcome 0 = (some .ok, 4294967295) ∧
    ∃ r, runGpuHost m "grow" [] {} BENCH_MAX_STEPS 1 = some r ∧
      (r.run.status, r.run.result.toNat) = (.ok, 1) ∧ ¬ SameEnd m 0 w r := by
  have hload : growBoth =
      some (true, (some .ok, 4294967295), some (.ok, 1, 1)) := by decide +kernel
  obtain ⟨m0, m, hm, hver, heval⟩ := loaded_eval hload
  simp only [Prod.mk.injEq, Bool.and_eq_true, beq_iff_eq] at heval
  obtain ⟨⟨hfind, hf⟩, hout, hrun⟩ := heval
  obtain ⟨r, hret, hr⟩ := Option.map_eq_some_iff.mp hrun
  simp only [Prod.mk.injEq] at hr
  obtain ⟨hstatus, hresult, hstack⟩ := hr
  refine ⟨m0, m, hm, hver, hfind, hf, hout, r, hret, Prod.ext hstatus hresult, fun hend => ?_⟩
  have hslot := hend.stack 0 (show 0 < BENCH_STACK_CAP by decide)
  have hbase : (m.batchViews 0).base .stack + 0 = 0 * BENCH_STACK_CAP := by
    simp [Views.base, AoSView.idx, HostModule.batchViews]
  rw [hbase] at hslot
  have hsecond := congrArg Prod.snd hout
  simp only [World.outcome, ← hslot, hstack] at hsecond
  cases hsecond

end CuWasm
