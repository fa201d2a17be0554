import CuWasm.Proofs.CapProofs
import CuWasm.Proofs.HostCallProofs
import CuWasm.Proofs.ImportProofs
import CuWasm.Proofs.RunnerProofs

/-!
# Runs of the three drivers

Between two `run_instance` calls a driver keeps the machine as it was left, or pushes the results of a
host call. A run of any driver is therefore one run in the sense of `Runs`, and what holds along such
runs holds in all of them: from an entry that fits, no driver leaves the stack.
-/

namespace CuWasm

open Exit

/-! ## Sessions -/

/-- The machine `x` has the registers, the stack and the frames of `t`. -/
structure Reloaded (t x : Mach) : Prop where
  pc : x.pc = t.pc
  sp : x.sp = t.sp
  fp : x.fp = t.fp
  csp : x.csp = t.csp
  stack : x.stack = t.stack
  frames : x.frames = t.frames
  hostNResults : x.hostNResults = t.hostNResults

theorem Reloaded.refl (x : Mach) : Reloaded x x := ⟨rfl, rfl, rfl, rfl, rfl, rfl, rfl⟩

theorem Reloaded.trans {x y z : Mach} (h : Reloaded x y) (h' : Reloaded y z) : Reloaded x z :=
  ⟨h'.pc.trans h.pc, h'.sp.trans h.sp, h'.fp.trans h.fp, h'.csp.trans h.csp,
    h'.stack.trans h.stack, h'.frames.trans h.frames, h'.hostNResults.trans h.hostNResults⟩

theorem Reloaded.resumes {v : Views} {x y : Mach} (h : Reloaded x y) : Resumes v 0 x y :=
  ⟨h.pc, h.fp, h.csp, h.frames, h.sp, .inl rfl, fun j _ => by rw [h.stack]⟩

theorem Reloaded.stepOk {v : Views} {m : HostModule} {x y : Mach} (h : Reloaded x y)
    (hy : StepOk v m y) : StepOk v m x := by
  unfold StepOk at hy ⊢
  rw [h.pc, h.fp, h.sp, h.csp, h.stack, h.frames] at hy
  exact hy

/-- A driver whose run began in `s0` holds the machine `x`, which `run_instance` has left with the
status `st`: the run goes on from `x`, or waits for the results of a host call. -/
structure Session (v : Views) (m : HostModule) (s0 : Mach) (st : Status) (x : Mach) : Prop where
  running : st = .running → ∃ y, Runs v m (StepOk v m) s0 y ∧ Reloaded y x
  pending : st = .hostcallPending → ∃ s t, Runs v m (StepOk v m) s0 s ∧ StepOk v m s ∧
    Run.step v m.dev s = .error .hostcallPending t ∧ Reloaded t x

section Session

variable {v : Views} {m : HostModule} {s0 s t x y : Mach} {st : Status}

theorem Session.reload (h : Session v m s0 st x) (hxy : Reloaded x y) : Session v m s0 st y := by
  constructor
  · intro hst
    obtain ⟨z, hz, hzx⟩ := h.running hst
    exact ⟨z, hz, hzx.trans hxy⟩
  · intro hst
    obtain ⟨s, t, hs, hok, hstep, htx⟩ := h.pending hst
    exact ⟨s, t, hs, hok, hstep, htx.trans hxy⟩

/-- Entering `run_instance` again is a step of the run. -/
theorem Session.enter (h : Session v m s0 .running x) (hok : StepOk v m x) :
    Runs v m (StepOk v m) s0 x := by
  obtain ⟨y, hy, hyx⟩ := h.running rfl
  exact hy.tail ⟨hyx.stepOk hok, .reenter hyx.resumes⟩

theorem Runs.steps {k : Nat} (h : Runs v m (StepOk v m) s0 s) (hs : Steps (Run.step v m.dev) k s t)
    (hok : ∀ j u, j < k → Steps (Run.step v m.dev) j s u → StepOk v m u) :
    Runs v m (StepOk v m) s0 t := by
  induction hs with
  | zero s => exact h
  | succ h1 _ ih =>
    refine ih (h.tail ⟨hok 0 _ (Nat.succ_pos _) (.zero _), .step h1⟩) fun j u hj hu => ?_
    exact hok (j + 1) u (Nat.succ_lt_succ hj) (.succ h1 hu)

/-- The machine that `run_instance` fetches with belongs to the run. -/
theorem Session.fetches {n k : Nat} (h : Session v m s0 .running x)
    (hok : ∀ j u, j < n → Steps (Run.step v m.dev) j x u → StepOk v m u) (hk : k < n)
    (hs : Steps (Run.step v m.dev) k x s) : Runs v m (StepOk v m) s0 s :=
  (h.enter (hok 0 x (by omega) (.zero x))).steps hs fun j u hj => hok j u (hj.trans hk)

/-- One `run_instance` call takes a session to a session. -/
theorem Session.loop {n : Nat} (h : Session v m s0 .running x)
    (hok : ∀ j u, j < n → Steps (Run.step v m.dev) j x u → StepOk v m u)
    (hloop : Run.loop v m.dev n x = (st, t)) : Session v m s0 st t := by
  cases n with
  | zero =>
    cases hloop
    exact h
  | succ n =>
    have hx := h.enter (hok 0 x (Nat.succ_pos _) (.zero x))
    rcases loop_ends hloop with ⟨rfl, hsteps⟩ | ⟨k, u, hk, hsteps, hu⟩
    · refine ⟨fun _ => ⟨t, hx.steps hsteps fun j u hj => hok j u hj, .refl t⟩, fun h => ?_⟩
      cases h
    · refine ⟨?_, ?_⟩
      · rintro rfl
        exact absurd hu (Run.step_not_running _ _ _ _)
      · rintro rfl
        exact ⟨u, t, h.fetches hok hk hsteps, hok k u hk hsteps, hu, .refl t⟩

/-- The declared results put a waiting session on its way again. -/
theorem Session.answer (h : Session v m s0 .hostcallPending x) (hy : Resumes v x.hostNResults x y) :
    Session v m s0 .running y := by
  obtain ⟨s, t, hs, hok, hstep, htx⟩ := h.pending rfl
  refine ⟨fun _ => ⟨y, hs.tail ⟨hok, .host hstep rfl ?_⟩, .refl y⟩, fun h => by cases h⟩
  have hn := htx.hostNResults
  have hsp := htx.sp
  have hysp := hy.sp
  rw [← hn]
  refine ⟨hy.pc.trans htx.pc, hy.fp.trans htx.fp, hy.csp.trans htx.csp, hy.frames.trans htx.frames,
    by rw [hysp, hsp], hy.fits, fun j hj => ?_⟩
  rw [hy.stack j (by omega), htx.stack]

theorem Session.start (st : Status) (hst : st = .running) : Session v m x st x :=
  ⟨fun _ => ⟨x, .refl, .refl x⟩, fun h => by rw [hst] at h; cases h⟩

end Session

/-- The results of a host call on the stack of a driver. -/
theorem pushResults_spec {mb : HostMailbox} {i n sp sp' : Nat} {stack stack' : Nat → Slot}
    (h : pushResults mb i n stack sp = some (sp', stack')) :
    sp' = sp + n ∧ (n = 0 ∨ sp' ≤ STACK_CAP) ∧ ∀ j, j < sp ∨ sp' ≤ j → stack' j = stack j := by
  rw [pushResults_eq] at h
  split_ifs at h with hfit
  cases h
  refine ⟨rfl, hfit, fun j hj => ?_⟩
  unfold withResults
  rw [if_neg (by omega)]

/-- For a single instance, below the capacity is below `STACK_CAP`. -/
theorem capped_iff_below (m : HostModule) (a : Access) : a.Capped ↔ a.Below m.cpuViews := by
  unfold Access.Capped Access.Below
  rw [cpuViews_idx]

/-- What a state of a run from an entry that fits is good for. -/
theorem Runs.stepCapped {m : HostModule} {f : FuncMeta} {s0 s : Mach} (hm : Accepted m)
    (hf : f ∈ m.funcs) (hc : 0 < f.codeLen) (he : Entry m.cpuViews f s0)
    (hfit : f.nParams + f.nLocals ≤ STACK_CAP) (hr : Runs m.cpuViews m (StepOk m.cpuViews m) s0 s)
    (hok : StepOk m.cpuViews m s) : StepCapped m s ∧ s.sp ≤ STACK_CAP := by
  have hsp0 : s0.sp ≤ STACK_CAP := by
    rw [he.sp]
    exact hfit
  obtain ⟨⟨g, gs, hinv⟩, hsp⟩ := hr.capped hm ⟨f, [], he.frameInv hm hf hc⟩ hsp0
  refine ⟨fun a ha => ?_, hsp⟩
  exact (capped_iff_below m a).mpr (step_below hm hinv le_rfl hsp hok a ha)

/-! ## `run_cpu` -/

section Cpu

variable {H : Type} {m : HostModule} {f : FuncMeta} {host : HostFn H} {maxSteps : Nat}
  {args : List Slot} {h : H} {c c' : CpuState H}

theorem hostCall_resumes {n : Nat} {results : Nat → Slot} (hreply : (c.ask host).reply = .ok (n, results))
    (hcall : hostCall m host maxSteps c = .inr c') :
    Resumes m.cpuViews n (c.mach m) (c'.mach m) ∧
      ∀ j, c.st.sp + n ≤ j → c'.ar.stack j = c.ar.stack j := by
  unfold hostCall at hcall
  simp only [hreply] at hcall
  split at hcall
  · cases hcall
  · rename_i sp stack hpush
    obtain ⟨hsp, hfit, hstack⟩ := pushResults_spec hpush
    cases hcall
    refine ⟨⟨rfl, rfl, rfl, rfl, hsp, hfit, fun j hj => ?_⟩, fun j hj => ?_⟩
    · rw [cpuViews_idx]
      exact hstack j (.inl hj)
    · exact hstack j (.inr (by omega))

theorem hostCall_reply (hcall : hostCall m host maxSteps c = .inr c') :
    ∃ n results, (c.ask host).reply = .ok (n, results) := by
  cases hr : (c.ask host).reply with
  | error e =>
    unfold hostCall at hcall
    simp only [hr] at hcall
    cases hcall
  | ok p => exact ⟨p.1, p.2, rfl⟩

/-- The first half of a round goes on with the session. -/
theorem cpuResume_session {s0 : Mach} (hs : Session m.cpuViews m s0 c.st.status (c.mach m))
    (hreply : ∀ n results, c.st.status = .hostcallPending →
      (c.ask host).reply = .ok (n, results) → n = c.st.hostNResults)
    (hres : cpuResume m host maxSteps c = .inr c') (hrun : c'.st.status = .running) :
    Session m.cpuViews m s0 .running (c'.mach m) := by
  unfold cpuResume at hres
  by_cases hpend : c.st.status = .hostcallPending
  · rw [if_pos hpend] at hres
    rw [hpend] at hs
    obtain ⟨n, results, hr⟩ := hostCall_reply hres
    have hn := hreply n results hpend hr
    refine hs.answer ?_
    have hresumes := (hostCall_resumes hr hres).1
    rw [hn] at hresumes
    exact hresumes
  · rw [if_neg hpend] at hres
    cases hres
    rw [hrun] at hs
    exact hs

theorem runOnce_session {s0 : Mach} (hs : Session m.cpuViews m s0 .running (c.mach m))
    (hok : ∀ j u, j < maxSteps → Steps (Run.step m.cpuViews m.dev) j (c.mach m) u →
      StepOk m.cpuViews m u) :
    Session m.cpuViews m s0 (runOnce m maxSteps c).st.status ((runOnce m maxSteps c).mach m) := by
  generalize hloop : Run.loop m.cpuViews m.dev maxSteps (c.mach m) = p
  obtain ⟨st, t⟩ := p
  have hstatus : (runOnce m maxSteps c).st.status = st := congrArg Prod.fst hloop
  have hend : (Run.loop m.cpuViews m.dev maxSteps (c.mach m)).2 = t := congrArg Prod.snd hloop
  rw [hstatus]
  refine (hs.loop hok hloop).reload ?_
  rw [← hend]
  exact ⟨rfl, rfl, rfl, rfl, rfl, rfl, rfl⟩

/-- The visits of a round that begins in `c`. -/
theorem CpuOrderly.visits (ho : CpuOrderly m f host maxSteps args h)
    (hc : CpuRuns m f host maxSteps (cpuEntry m f args CPU_FUEL h) c)
    (hres : cpuResume m host maxSteps c = .inr c') (hrun : c'.st.status = .running) :
    ∀ j u, j < maxSteps → Steps (Run.step m.cpuViews m.dev) j (c'.mach m) u →
      StepOk m.cpuViews m u := fun j u hj hu => ho.steps u ⟨c, c', j, hc, hres, hrun, hj, hu⟩

theorem CpuRuns.session (ho : CpuOrderly m f host maxSteps args h)
    (hc : CpuRuns m f host maxSteps (cpuEntry m f args CPU_FUEL h) c) :
    Session m.cpuViews m (entryMach m f args CPU_FUEL) c.st.status (c.mach m) := by
  induction hc with
  | refl => exact Session.start _ rfl
  | @tail b c hb hround ih =>
    obtain ⟨c1, hres, hrun, rfl⟩ := cpuRound_inr hround
    have hs := cpuResume_session ih (fun n results => ho.replies b n results hb) hres hrun
    exact runOnce_session hs (ho.visits hb hres hrun)

/-- `run_cpu` stays inside the stack. -/
theorem cpu_capped (hm : Accepted m) (hf : f ∈ m.funcs) (hc : 0 < f.codeLen)
    (hargs : args.length = f.nParams) (hres : f.nResults ≤ STACK_CAP)
    (hfit : f.nParams + f.nLocals ≤ STACK_CAP) (ho : CpuOrderly m f host maxSteps args h) :
    CpuCapped m f host maxSteps args h := by
  refine ⟨(entryLoops_capped hargs).mpr hfit, fun s hs => ?_, fun c c' hruns hres j hj => ?_, hres⟩
  · have hok := ho.steps s hs
    obtain ⟨c, c1, k, hruns, hres, hrun, hk, hsteps⟩ := hs
    have hsess := cpuResume_session (hruns.session ho) (fun n results => ho.replies c n results hruns)
      hres hrun
    exact (Runs.stepCapped hm hf hc (entryMach_entry m f args CPU_FUEL) hfit
      (hsess.fetches (ho.visits hruns hres hrun) hk hsteps) hok).1
  · unfold cpuResume at hres
    split_ifs at hres with hpend
    · obtain ⟨n, results, hr⟩ := hostCall_reply hres
      obtain ⟨hresumes, hout⟩ := hostCall_resumes hr hres
      by_cases hn : n = 0
      · by_cases hlow : c.st.sp + n ≤ j
        · exact hout j hlow
        · have hkeep := hresumes.stack j (by show j < c.st.sp; omega)
          rw [cpuViews_idx] at hkeep
          exact hkeep
      · refine hout j ?_
        have hsp : (c'.mach m).sp = (c.mach m).sp + n := hresumes.sp
        rcases hresumes.fits with h0 | hle
        · exact absurd h0 hn
        · have : (c.mach m).sp = c.st.sp := rfl
          omega
    · cases hres
      rfl

end Cpu

/-! ## `run_gpu` -/

section Gpu

variable {H : Type} {m : HostModule} {f : FuncMeta} {host : HostFn H} {maxSteps : Nat}
  {args : List Slot} {h : H} {junk : Device} {g g' : GpuState H} {s0 : Mach}

/-- The copies of `run_gpu` show the same stack, and the device holds a session of the module `m`. -/
structure GpuSession (m : HostModule) (s0 : Mach) (g : GpuState H) : Prop where
  dev : g.m.dev = m.dev
  views : g.m.cpuViews = m.cpuViews
  uploaded : g.dev.st = g.st
  stack : ∀ j, j < STACK_CAP → g.dev.ar.stack j = g.stack j
  session : Session m.cpuViews m s0 g.st.status g.dev.mach

/-- The answer to a host call and the copies around it. -/
theorem GpuSession.reply (hg : GpuSession m s0 g) {n : Nat} {results : Nat → Slot}
    (hreply : (g.ask host).reply = .ok (n, results)) (hcall : gpuHostReply host g = .inr g') :
    Resumes m.cpuViews n g.dev.mach g'.dev.mach ∧ g'.m.dev = m.dev ∧ g'.m.cpuViews = m.cpuViews ∧
      g'.dev.st = g'.st ∧ (∀ j, j < STACK_CAP → g'.dev.ar.stack j = g'.stack j) ∧
      ∀ j, STACK_CAP ≤ j → g'.stack j = g.stack j := by
  unfold gpuHostReply at hcall
  simp only [hreply] at hcall
  split at hcall
  · cases hcall
  · rename_i sp stack hpush
    obtain ⟨hsp, hfit, hstack⟩ := pushResults_spec hpush
    cases hcall
    have hst := hg.uploaded
    refine ⟨⟨?_, ?_, ?_, rfl, ?_, hfit, fun j hj => ?_⟩, hg.dev, hg.views, rfl,
      fun j hj => cudaMemcpy_lt hj, fun j hj => ?_⟩
    · exact congrArg VmState.pc hst.symm
    · exact congrArg VmState.fp hst.symm
    · exact congrArg VmState.csp hst.symm
    · have hdev : g.dev.mach.sp = g.st.sp := congrArg VmState.sp hst
      exact hsp.trans (by rw [hdev])
    · rw [cpuViews_idx]
      have hlow : j < g.st.sp := lt_of_lt_of_eq hj (congrArg VmState.sp hst)
      show cudaMemcpy STACK_CAP g.dev.ar.stack stack j = g.dev.ar.stack j
      unfold cudaMemcpy
      split_ifs with hcap
      · rw [hstack j (.inl hlow), hg.stack j hcap]
      · rfl
    · show stack j = g.stack j
      rcases hfit with rfl | hle
      · exact hstack j (by omega)
      · exact hstack j (.inr (by omega))

theorem gpuHostReply_ok (hcall : gpuHostReply host g = .inr g') :
    g'.st.status = .running ∧ ∃ n results, (g.ask host).reply = .ok (n, results) := by
  unfold gpuHostReply at hcall
  cases hr : (g.ask host).reply with
  | error e =>
    simp only [hr] at hcall
    cases hcall
  | ok p =>
    simp only [hr] at hcall
    split at hcall
    · cases hcall
    · cases hcall
      exact ⟨rfl, p.1, p.2, rfl⟩

/-- The first half of a round. -/
theorem GpuSession.resume (hg : GpuSession m s0 g)
    (hreply : ∀ n results, g.st.status = .hostcallPending →
      (g.ask host).reply = .ok (n, results) → n = g.st.hostNResults)
    (hres : gpuResume host g = .inr g') :
    GpuSession m s0 g' ∧ ∀ j, STACK_CAP ≤ j → g'.stack j = g.stack j := by
  unfold gpuResume at hres
  by_cases hpend : g.st.status = .hostcallPending
  · rw [if_pos hpend] at hres
    obtain ⟨hrun, n, results, hr⟩ := gpuHostReply_ok hres
    obtain ⟨hresumes, hdev, hviews, hup, hstack, hout⟩ := hg.reply hr hres
    have hsess := hg.session
    have hn : n = g.dev.mach.hostNResults :=
      (hreply n results hpend hr).trans (congrArg VmState.hostNResults hg.uploaded.symm)
    rw [hpend] at hsess
    refine ⟨⟨hdev, hviews, hup, hstack, ?_⟩, hout⟩
    rw [hrun]
    exact hsess.answer (hn ▸ hresumes)
  · rw [if_neg hpend] at hres
    cases hres
    exact ⟨hg, fun j _ => rfl⟩

/-- A launch and the copies behind it. -/
theorem GpuSession.launch {d : Device} (hg : GpuSession m s0 g) (hrun : g.st.status = .running)
    (hok : ∀ j u, j < maxSteps → Steps (Run.step g.m.cpuViews g.m.dev) j g.dev.mach u →
      StepOk m.cpuViews m u) (hk : kRun g.m maxSteps g.dev = some d) :
    GpuSession m s0 (g.download d) := by
  unfold kRun at hk
  split_ifs at hk
  rw [hg.dev, hg.views] at hk hok
  cases hk
  have hsess := hg.session
  rw [hrun] at hsess
  generalize hloop : Run.loop m.cpuViews m.dev maxSteps g.dev.mach = p at *
  obtain ⟨st, t⟩ := p
  have hstatus : (Run.loop m.cpuViews m.dev maxSteps g.dev.mach).1 = st := congrArg Prod.fst hloop
  have hend : (Run.loop m.cpuViews m.dev maxSteps g.dev.mach).2 = t := congrArg Prod.snd hloop
  refine ⟨hg.dev, ?_, rfl, fun j hj => (cudaMemcpy_lt hj).symm, ?_⟩
  · rw [← hg.views]
    simp [GpuState.download, HostModule.cpuViews]
  · have hnext := hsess.loop hok hloop
    rw [← hstatus, ← hend] at hnext
    exact hnext.reload ⟨rfl, rfl, rfl, rfl, rfl, rfl, rfl⟩

/-- A round that goes on is an answer and a launch. -/
theorem gpuRound_inr (hround : gpuRound f host maxSteps g = .inr g') :
    ∃ g1 d, gpuResume host g = .inr g1 ∧ g1.st.status = .running ∧
      kRun g1.m maxSteps g1.dev = some d ∧ g' = g1.download d := by
  unfold gpuRound at hround
  cases hres : gpuResume host g with
  | inl r =>
    rw [hres] at hround
    cases hround
  | inr g1 =>
    rw [hres] at hround
    simp only at hround
    by_cases hrun : g1.st.status = .running
    · rw [if_neg (not_not.mpr hrun)] at hround
      cases hk : kRun g1.m maxSteps g1.dev with
      | none =>
        rw [hk] at hround
        cases hround
      | some d =>
        rw [hk] at hround
        cases hround
        exact ⟨g1, d, rfl, hrun, hk, rfl⟩
    · rw [if_pos hrun] at hround
      cases hround

theorem gpuEntry_entry (m : HostModule) (f : FuncMeta) (args : List Slot) (fuel : Int) (h : H)
    (junk : Device) : Entry m.cpuViews f (gpuEntry m f args fuel h junk).dev.mach := by
  refine ⟨rfl, rfl, rfl, rfl, ?_⟩
  have hidx : m.cpuViews.frames.idx 0 = 0 := by simp [AoSView.idx, HostModule.cpuViews]
  rw [hidx]
  rfl

theorem GpuRuns.session (ho : GpuOrderly m f host maxSteps args h junk)
    (hc : GpuRuns f host maxSteps (gpuEntry m f args CPU_FUEL h junk) g) :
    GpuSession m (gpuEntry m f args CPU_FUEL h junk).dev.mach g := by
  induction hc with
  | refl => exact ⟨rfl, rfl, rfl, fun j hj => cudaMemcpy_lt hj, Session.start _ rfl⟩
  | @tail b c hb hround ih =>
    obtain ⟨g1, d, hres, hrun, hk, rfl⟩ := gpuRound_inr hround
    obtain ⟨hs, -⟩ := ih.resume (fun n results => ho.replies b n results hb) hres
    exact hs.launch hrun (fun j u hj hu => ho.steps u ⟨b, g1, j, hb, hres, hrun, hj, hu⟩) hk

/-- `run_gpu` stays inside the stack. -/
theorem gpu_capped (hm : Accepted m) (hf : f ∈ m.funcs) (hc : 0 < f.codeLen)
    (hargs : args.length = f.nParams) (hres : f.nResults ≤ STACK_CAP)
    (hfit : f.nParams + f.nLocals ≤ STACK_CAP) (ho : GpuOrderly m f host maxSteps args h junk) :
    GpuCapped m f host maxSteps args h junk := by
  refine ⟨(entryLoops_capped hargs).mpr hfit, fun s hs => ?_, fun g g' hruns hres => ?_, hres⟩
  · have hok := ho.steps s hs
    obtain ⟨g, g1, k, hruns, hres, hrun, hk, hsteps⟩ := hs
    obtain ⟨hsess, -⟩ := (hruns.session ho).resume (fun n results => ho.replies g n results hruns) hres
    have hvis (j : Nat) (u : Mach) (hj : j < maxSteps)
        (hu : Steps (Run.step m.cpuViews m.dev) j g1.dev.mach u) : StepOk m.cpuViews m u := by
      refine ho.steps u ⟨g, g1, j, hruns, hres, hrun, hj, ?_⟩
      rw [hsess.dev, hsess.views]
      exact hu
    have hsess' := hsess.session
    rw [hrun] at hsess'
    rw [hsess.dev, hsess.views] at hsteps
    exact (Runs.stepCapped hm hf hc (gpuEntry_entry m f args CPU_FUEL h junk) hfit
      (hsess'.fetches hvis hk hsteps) hok).1
  · exact ((hruns.session ho).resume (fun n results => ho.replies g n results hruns) hres).2

end Gpu

/-! ## `run_gpu_host` -/

section GpuHost

variable {m : HostModule} {f : FuncMeta} {maxSteps : Nat} {args : List Slot} {hs : GpuHostState}
  {x y : GpuHostVars} {s0 : Mach}

/-- The `run_instance` call of a round. -/
theorem gpuHostRun_session (hx : Session m.cpuViews m s0 .running (x.mach m))
    (hok : ∀ j u, j < maxSteps → Steps (Run.step m.cpuViews m.dev) j (x.mach m) u →
      StepOk m.cpuViews m u) :
    Session m.cpuViews m s0 (x.run m maxSteps).st.status ((x.run m maxSteps).mach m) := by
  generalize hloop : Run.loop m.cpuViews m.dev maxSteps (x.mach m) = p
  obtain ⟨st, t⟩ := p
  have hstatus : (x.run m maxSteps).st.status = st := congrArg Prod.fst hloop
  have hend : (Run.loop m.cpuViews m.dev maxSteps (x.mach m)).2 = t := congrArg Prod.snd hloop
  rw [hstatus]
  refine (hx.loop hok hloop).reload ?_
  rw [← hend]
  exact ⟨rfl, rfl, rfl, rfl, rfl, rfl, rfl⟩

/-- The answer of the dispatch. -/
theorem gpuHostRound_resumes (h : gpuHostRound m maxSteps x y) :
    ∃ hs' mb, gpuHostDispatch x.hs (x.run m maxSteps).mb (x.run m maxSteps).ar.mem
        (x.run m maxSteps).st.memSize = some (hs', mb) ∧ y.st.status = .running ∧
      Resumes m.cpuViews mb.nResults ((x.run m maxSteps).mach m) (y.mach m) ∧
      ∀ j, STACK_CAP ≤ j → y.ar.stack j = (x.run m maxSteps).ar.stack j := by
  obtain ⟨-, hcall⟩ := h
  unfold gpuHostCall at hcall
  cases hd : gpuHostDispatch x.hs (x.run m maxSteps).mb (x.run m maxSteps).ar.mem
      (x.run m maxSteps).st.memSize with
  | none =>
    simp only [hd] at hcall
    cases hcall
  | some p =>
    obtain ⟨hs', mb⟩ := p
    simp only [hd] at hcall
    split at hcall
    · cases hcall
    · rename_i sp stack hpush
      obtain ⟨hsp, hfit, hstack⟩ := pushResults_spec hpush
      have hy := Sum.inr.inj hcall
      have hst : y.st = { (x.run m maxSteps).st with sp := sp, status := .running } :=
        (congrArg Prod.fst hy).symm
      have har : y.ar = { (x.run m maxSteps).ar with stack := stack } :=
        (congrArg (fun q => q.2.2.1) hy).symm
      refine ⟨hs', mb, rfl, by rw [hst], ?_, fun j hj => ?_⟩
      · unfold GpuHostVars.mach
        rw [hst, har]
        refine ⟨rfl, rfl, rfl, rfl, hsp, hfit, fun j hj => ?_⟩
        rw [cpuViews_idx]
        exact hstack j (.inl hj)
      · rw [har]
        show stack j = _
        rcases hfit with h0 | hle
        · exact hstack j (by omega)
        · exact hstack j (.inr (by omega))

theorem GpuHostRuns.session (ho : GpuHostOrderly m f maxSteps args hs)
    (hc : GpuHostRuns m maxSteps (gpuHostEntry m f maxSteps args hs) x) :
    Session m.cpuViews m (entryMach m f args maxSteps) .running (x.mach m) := by
  induction hc with
  | refl => exact Session.start _ rfl
  | @tail b c hb hround ih =>
    have hsess := gpuHostRun_session ih fun j u hj hu => ho.steps u ⟨b, j, hb, hj, hu⟩
    obtain ⟨hs', mb, hd, -, hresumes, -⟩ := gpuHostRound_resumes hround
    have hn := ho.replies b hs' mb hb hround.1 hd
    rw [hround.1] at hsess
    rw [hn] at hresumes
    exact hsess.answer hresumes

/-- `run_gpu_host` stays inside the stack. -/
theorem gpuHost_capped (hm : Accepted m) (hf : f ∈ m.funcs) (hc : 0 < f.codeLen)
    (hargs : args.length = f.nParams) (hfit : f.nParams + f.nLocals ≤ STACK_CAP)
    (ho : GpuHostOrderly m f maxSteps args hs) : GpuHostCapped m f maxSteps args hs := by
  refine ⟨(entryLoops_capped hargs).mpr hfit, fun s hv => ?_, fun x y hruns hround => ?_⟩
  · have hok := ho.steps s hv
    obtain ⟨x, k, hruns, hk, hsteps⟩ := hv
    have hsess := hruns.session ho
    exact (Runs.stepCapped hm hf hc (entryMach_entry m f args maxSteps) hfit
      (hsess.fetches (fun j u hj hu => ho.steps u ⟨x, j, hruns, hj, hu⟩) hk hsteps) hok).1
  · obtain ⟨-, -, -, -, -, hout⟩ := gpuHostRound_resumes hround
    exact hout

end GpuHost

/-- The entry loops of the drivers stay inside the stack just when the parameters and locals of the
entry function fit. From an entry that fits, no driver leaves the stack as long as the executed
instructions satisfy what the verifier leaves open and host calls return what their imports declare. -/
theorem entry_capped_iff {ps : List (Parsed Payload)} {m0 m : HostModule}
    (hm : loadWasm ps = .ok m0) (hver : verifyCuop m0 = .ok m) {f : FuncMeta} (hf : f ∈ m.funcs)
    {args : List Slot} (hargs : args.length = f.nParams) :
    ((∀ a ∈ (entryLoops f args).log, a.Capped) ↔ f.nParams + f.nLocals ≤ STACK_CAP) ∧
      (0 < f.codeLen → f.nParams + f.nLocals ≤ STACK_CAP →
        (∀ (H : Type) (host : HostFn H) (maxSteps : Nat) (h : H),
          CpuOrderly m f host maxSteps args h → CpuCapped m f host maxSteps args h) ∧
        (∀ (H : Type) (host : HostFn H) (maxSteps : Nat) (h : H) (junk : Device),
          GpuOrderly m f host maxSteps args h junk → GpuCapped m f host maxSteps args h junk) ∧
        ∀ (maxSteps : Nat) (hs : GpuHostState),
          GpuHostOrderly m f maxSteps args hs → GpuHostCapped m f maxSteps args hs) := by
  obtain ⟨hacc, fs, rfl, hlen, hsig⟩ := verifyCuop_accepted hver
  have hres : f.nResults ≤ STACK_CAP := by
    obtain ⟨k, hk⟩ := List.mem_iff_getElem?.mp hf
    obtain ⟨f0, hf0, hs⟩ := hsig k f hk
    have hcounts := (Translate.loaded_counts hm (List.mem_of_getElem? hf0)).2
    rw [hs]
    exact hcounts.trans (by decide)
  refine ⟨entryLoops_capped hargs, fun hc hfit => ⟨?_, ?_, ?_⟩⟩
  · intro H host maxSteps h ho
    exact cpu_capped hacc hf hc hargs hres hfit ho
  · intro H host maxSteps h junk ho
    exact gpu_capped hacc hf hc hargs hres hfit ho
  · intro maxSteps hs ho
    exact gpuHost_capped hacc hf hc hargs hfit ho

/-! ## An entry that does not fit, and one that does -/

/-- A module with one function that only declares `n` locals. -/
def localsModule (n : Nat) : Wasm.Module where
  types := [[.func ([], [])]]
  funcs := [0]
  code := [{ locals := [(n, .i64)], body := .nil }]

theorem localsModule_valid (n : Nat) : (localsModule n).Valid := by
  have htypes : ∀ ti ∈ [0], ti < 1 := by decide
  refine ⟨htypes, rfl, fun k ft c hty hc => ?_⟩
  match k with
  | 0 =>
    cases hc
    cases hty
    exact .nil
  | k + 1 => cases hc

/-- The code and the functions of the loaded module, and what running function 0 returns. -/
def localsLoaded (n : Nat) : Option (Bool × List FuncMeta × Option (Status × List Nat)) :=
  (loadWasm (localsModule n).payloads).toOption.bind fun m0 =>
    (verifyCuop m0).toOption.map fun m =>
      (m.code == [⟨.endFunc, 0, 0⟩], m.funcs, (runCpu m 0 [] 10 refuseHost () 3).map seen)

/-- One local more than the stack has slots: the entry loops write behind the stack, and the run ends
as if nothing had happened. -/
theorem entry_overflows : (localsModule 4097).Valid ∧ ∃ m0 m f,
    loadWasm (localsModule 4097).payloads = .ok m0 ∧ verifyCuop m0 = .ok m ∧ f ∈ m.funcs ∧
    f.nParams = 0 ∧ (¬ ∀ a ∈ (entryLoops f []).log, a.Capped) ∧
    (runCpu m 0 [] 10 refuseHost () 3).map seen = some (.ok, []) := by
  have hload : localsLoaded 4097 = some (true, [⟨0, 1, 0, 0, 4097, 4097⟩], some (.ok, [])) := by
    decide +kernel
  obtain ⟨m0, m, hm, hver, heval⟩ := loaded_eval hload
  simp only [Prod.mk.injEq] at heval
  obtain ⟨-, hfuncs, hrun⟩ := heval
  refine ⟨localsModule_valid 4097, m0, m, ⟨0, 1, 0, 0, 4097, 4097⟩, hm, hver, ?_, rfl, ?_, hrun⟩
  · rw [hfuncs]
    exact List.mem_singleton_self _
  · rw [entryLoops_capped rfl]
    decide

/-- With one local `run_cpu` stays inside the stack. -/
theorem entry_stays : ∃ m0 m f, loadWasm (localsModule 1).payloads = .ok m0 ∧
    verifyCuop m0 = .ok m ∧ f ∈ m.funcs ∧ (∀ a ∈ (entryLoops f []).log, a.Capped) ∧
    CpuCapped m f refuseHost 10 [] () := by
  have hload : localsLoaded 1 = some (true, [⟨0, 1, 0, 0, 1, 1⟩], some (.ok, [])) := by
    decide +kernel
  obtain ⟨m0, m, hm, hver, heval⟩ := loaded_eval hload
  simp only [Prod.mk.injEq, beq_iff_eq] at heval
  obtain ⟨hcode, hfuncs, -⟩ := heval
  have hf : (⟨0, 1, 0, 0, 1, 1⟩ : FuncMeta) ∈ m.funcs := by
    rw [hfuncs]
    exact List.mem_singleton_self _
  obtain ⟨hiff, hruns⟩ := @entry_capped_iff _ _ _ hm hver _ hf [] rfl
  obtain ⟨hcpu, -, -⟩ := hruns (by decide) (by decide)
  refine ⟨m0, m, _, hm, hver, hf, hiff.mpr (by decide), hcpu Unit refuseHost 10 () ⟨?_, ?_⟩⟩
  · intro s _ i hi
    rw [hcode] at hi
    rw [List.mem_singleton.mp (List.mem_of_getElem? hi)]
    trivial
  · intro c n results _ _ hr
    have hrefuse : (c.ask refuseHost).reply = .error "not available" := rfl
    rw [hrefuse] at hr
    cases hr

end CuWasm
