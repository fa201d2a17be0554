import CuWasm.Runner
import CuWasm.Proofs.AlikeProofs
import CuWasm.Proofs.MemSizeProofs

/-!
# The two drivers agree

`Synced` is what the copies of `run_gpu` have to do with the state of `run_cpu` at the head of their
loops. Every round keeps it, so both drivers return the same.
-/

namespace CuWasm

open Exit BlockMove

/-- The registers that `run_instance` works with, and the status. -/
structure SameVm (st st' : VmState) : Prop where
  pc : st'.pc = st.pc
  sp : st'.sp = st.sp
  fp : st'.fp = st.fp
  csp : st'.csp = st.csp
  fuel : st'.fuel = st.fuel
  status : st'.status = st.status
  memSize : st'.memSize = st.memSize

/-- The arrays agree on the cells of the module. -/
structure SameCells (m : HostModule) (ar ar' : Arrays) : Prop where
  stack : ∀ i, i < STACK_CAP → ar'.stack i = ar.stack i
  frames : ∀ i, i < FRAME_CAP → ar'.frames i = ar.frames i
  globals : ∀ i, i < m.globals.length → ar'.globals i = ar.globals i
  mem : ∀ i, i < m.memMax → ar'.mem i = ar.mem i
  live : ∀ i, i < m.dataLive.length → ar'.live i = ar.live i

/-- The state of `run_gpu` next to the state of `run_cpu` on the module `m`. -/
structure Synced {H : Type} (m : HostModule) (c : CpuState H) (g : GpuState H) : Prop where
  module : g.m = m.withArrays c.ar m.memSize
  vm : SameVm g.st c.st
  uploaded : g.dev.st = g.st
  stack : g.stack = c.ar.stack
  cells : SameCells m g.dev.ar c.ar
  host : g.host = c.host
  memSize : c.st.memSize = m.memSize
  call : c.st.status = .hostcallPending → SameCall g.dev.mb c.mb

section Views

variable (m : HostModule)

theorem cpuViews_base (r : Region) : m.cpuViews.base r = 0 := by
  cases r <;> simp [Views.base, AoSView.idx, HostModule.cpuViews]

theorem cpuViews_own (r : Region) (j : Nat) : m.cpuViews.own r j ↔ j < m.cells r := by
  cases r <;> rfl

theorem legal_in {a : Access} (h : m.legal a = true) : a.In m.cpuViews.own m.cpuViews := by
  intro j h1 h2
  rw [cpuViews_base, Nat.zero_add] at h1 h2
  rw [cpuViews_own]
  simp only [HostModule.legal, Bool.or_eq_true, beq_iff_eq, decide_eq_true_eq] at h
  omega

/-- A legal launch keeps to the cells of the instance. -/
theorem legalRun_staysIn {n : Nat} {s : Mach} (h : m.legalRun n s = true) :
    StaysIn m.cpuViews.own m.cpuViews m.dev n s := by
  induction n generalizing s with
  | zero => exact fun k u hk => absurd hk (Nat.not_lt_zero k)
  | succ n ih =>
    unfold HostModule.legalRun at h
    rw [Bool.and_eq_true] at h
    obtain ⟨hlog, hrest⟩ := h
    intro k u hk hu
    cases hu with
    | zero =>
      rintro ⟨a, ha, hout⟩
      exact hout (legal_in m (List.all_eq_true.mp hlog a ha))
    | succ h1 h2 =>
      rw [h1] at hrest
      exact ih hrest _ u (Nat.lt_of_succ_lt_succ hk) h2

theorem fits_self (v : Views) : v.Fits v := ⟨le_rfl, rfl, rfl, rfl, rfl, rfl⟩

end Views

section Copy

variable {α : Type} {n : Nat} {f g g' : Nat → α}

/-- A copy makes up for a change of the first `n` cells. -/
theorem cudaMemcpy_eq (hin : ∀ i, i < n → g' i = f i) (hout : ∀ i, ¬ i < n → g' i = g i) :
    cudaMemcpy n g f = g' := by
  funext i
  unfold cudaMemcpy
  by_cases hi : i < n
  · rw [if_pos hi, hin i hi]
  · rw [if_neg hi, hout i hi]

theorem cudaMemcpy_lt {i : Nat} (h : i < n) : cudaMemcpy n g f i = f i := if_pos h

end Copy

theorem cellWindow {α : Type} {m : HostModule} {r : Region} {f g : Nat → α}
    (h : ∀ i, i < m.cells r → g i = f i) :
    Window (m.cpuViews.own r) (m.cpuViews.base r) (m.cpuViews.base r) g f g := by
  refine .start fun j hj => ?_
  rw [cpuViews_base, Nat.zero_add]
  exact h j ((cpuViews_own m r j).mp hj)

theorem Window.cells {α : Type} {m : HostModule} {r : Region} {g0 f g : Nat → α}
    (h : Window (m.cpuViews.own r) (m.cpuViews.base r) (m.cpuViews.base r) g0 f g) :
    (∀ i, i < m.cells r → g i = f i) ∧ ∀ i, ¬ i < m.cells r → g i = g0 i := by
  refine ⟨fun i hi => ?_, fun i hi => ?_⟩
  · have := h.agree i ((cpuViews_own m r i).mpr hi)
    rwa [cpuViews_base, Nat.zero_add] at this
  · refine h.only i fun j hj heq => hi ?_
    rw [cpuViews_base, Nat.zero_add] at heq
    rw [heq]
    exact (cpuViews_own m r j).mp hj

section Synced

variable {H : Type} {m : HostModule} {c : CpuState H} {g : GpuState H}

/-- The machines that the two drivers start are alike. -/
theorem Synced.alike (h : Synced m c g) :
    Alike m.cpuViews.own m.cpuViews m.cpuViews c.ar g.dev.mach (c.mach m) := by
  have hvm : SameVm g.dev.st c.st := h.uploaded ▸ h.vm
  refine ⟨⟨hvm.pc, hvm.sp, hvm.fp, hvm.csp, hvm.fuel, ?_⟩, cellWindow h.cells.stack,
    cellWindow h.cells.frames, cellWindow h.cells.globals, cellWindow h.cells.mem,
    cellWindow h.cells.live⟩
  show m.memSize = g.dev.st.memSize
  rw [← hvm.memSize, h.memSize]

theorem withArrays_cpuViews (ar : Arrays) (n : Nat) : (m.withArrays ar n).cpuViews = m.cpuViews := by
  simp [HostModule.withArrays, HostModule.cpuViews]

theorem withArrays_cells (ar : Arrays) (n : Nat) : (m.withArrays ar n).cells = m.cells := by
  funext r
  cases r <;> simp [HostModule.withArrays, HostModule.cells]

theorem withArrays_legalRun (ar : Arrays) (k n : Nat) (s : Mach) :
    (m.withArrays ar k).legalRun n s = m.legalRun n s := by
  have hlegal : (m.withArrays ar k).legal = m.legal := by
    funext a
    simp only [HostModule.legal, withArrays_cells]
  have hdev : (m.withArrays ar k).dev = m.dev := rfl
  induction n generalizing s with
  | zero => rfl
  | succ n ih =>
    unfold HostModule.legalRun
    rw [withArrays_cpuViews, hdev, hlegal]
    cases Run.step m.cpuViews m.dev s with
    | ok a t => simp only [ih]
    | error e t => rfl

theorem kRun_withArrays (ar : Arrays) (k maxSteps : Nat) (d : Device) :
    kRun (m.withArrays ar k) maxSteps d = kRun m maxSteps d := by
  have hdev : (m.withArrays ar k).dev = m.dev := rfl
  unfold kRun
  rw [withArrays_legalRun, withArrays_cpuViews, hdev]

/-- A launch and the copies around it do what `run_instance` does in place. -/
theorem Synced.launch {maxSteps : Nat} {d : Device} (h : Synced m c g)
    (hsize : SizeOk m.memMax m.memSize) (hgrow : ∀ i ∈ m.code, i.op ≠ .memoryGrow)
    (hk : kRun g.m maxSteps g.dev = some d) : Synced m (runOnce m maxSteps c) (g.download d) := by
  rw [h.module, kRun_withArrays] at hk
  unfold kRun at hk
  split_ifs at hk with hlegal
  obtain ⟨hstatus, halike, hcall⟩ := loop_alike (fits_self m.cpuViews) maxSteps h.alike
    (legalRun_staysIn m hlegal) (fun _ _ _ _ _ _ _ => Iff.rfl)
    (fun hesc => absurd hesc.2 (Nat.lt_irrefl _))
  have hmem : (runOnce m maxSteps c).st.memSize = m.memSize := by
    refine (runOnce_memSize hsize).2.mpr fun k u _ _ => ?_
    rintro ⟨i, hi, hop, -⟩
    exact hgrow i (List.mem_of_getElem? hi) hop
  cases hk
  obtain ⟨hstack, hstack'⟩ := Window.cells halike.stack
  obtain ⟨hframes, -⟩ := Window.cells halike.frames
  obtain ⟨hglobals, -⟩ := Window.cells halike.globals
  obtain ⟨hbytes, hbytes'⟩ := Window.cells halike.mem
  obtain ⟨hlive, -⟩ := Window.cells halike.live
  have hregs := halike.regs
  refine ⟨?_, ⟨hregs.pc, hregs.sp, hregs.fp, hregs.csp, hregs.fuel, hstatus, hregs.memSize⟩, rfl, ?_,
    ⟨hstack, hframes, hglobals, hbytes, hlive⟩, h.host, hmem, ?_⟩
  · unfold GpuState.download
    simp only [h.module, HostModule.withArrays, HostModule.mk.injEq, true_and, and_true,
      List.length_map, List.length_range]
    refine ⟨?_, cudaMemcpy_eq hbytes hbytes', ?_⟩
    · exact List.map_congr_left fun i hi => (hglobals i (List.mem_range.mp hi)).symm
    · exact List.map_congr_left fun i hi => (hlive i (List.mem_range.mp hi)).symm
  · show cudaMemcpy STACK_CAP g.stack _ = _
    rw [h.stack]
    exact cudaMemcpy_eq hstack hstack'
  · intro hpend
    have hp : (Run.loop m.cpuViews m.dev maxSteps (c.mach m)).1 = .hostcallPending := hpend
    exact hcall (hstatus ▸ hp)

/-- Both host functions are asked the same. -/
theorem Synced.ask (h : Synced m c g) (hpend : c.st.status = .hostcallPending) (host : HostFn H) :
    g.ask host = c.ask host := by
  have hcall := h.call hpend
  have hargs : (List.range g.dev.mb.nArgs).map g.dev.mb.args =
      (List.range c.mb.nArgs).map c.mb.args := by
    rw [hcall.nArgs]
    exact List.map_congr_left fun i hi => (hcall.args i (List.mem_range.mp hi)).symm
  have hmem : cudaMemcpy g.m.memMax g.m.memory g.dev.ar.mem = c.ar.mem := by
    rw [h.module]
    exact cudaMemcpy_eq h.cells.mem fun _ _ => rfl
  unfold GpuState.ask CpuState.ask
  rw [hmem, hargs, h.host, hcall.fnId]

theorem pushResults_congr {mb mb' : HostMailbox} (hr : mb'.results = mb.results) (i n : Nat)
    (stack : Nat → Slot) (sp : Nat) : pushResults mb' i n stack sp = pushResults mb i n stack sp := by
  induction n generalizing i stack sp with
  | zero => rfl
  | succ n ih =>
    unfold pushResults
    rw [hr, ih]

/-- What the two drivers do next: return the same, or go on in step. -/
def SameNext (m : HostModule) :
    (RunResult × HostModule × H) ⊕ CpuState H → (RunResult × HostModule × H) ⊕ GpuState H → Prop
  | .inl r, .inl r' => SameReturn r r'
  | .inr c, .inr g => Synced m c g
  | _, _ => False

/-- The answer to a host call, and the copies around it. -/
theorem Synced.reply (h : Synced m c g) (hpend : c.st.status = .hostcallPending) (host : HostFn H)
    (maxSteps : Nat) : SameNext m (hostCall m host maxSteps c) (gpuHostReply host g) := by
  unfold hostCall gpuHostReply
  rw [h.ask hpend]
  generalize c.ask host = out
  cases hr : out.reply with
  | error e =>
    simp only [hr, SameNext]
    exact ⟨rfl, rfl, rfl, by rw [h.module]; rfl, rfl⟩
  | ok p =>
    obtain ⟨n, results⟩ := p
    have hpush := pushResults_congr
      (show ({ g.dev.mb with nResults := n, results := results } : HostMailbox).results =
        ({ c.mb with nResults := n, results := results } : HostMailbox).results from rfl)
    simp only [hr, h.stack, h.vm.sp]
    rw [hpush]
    cases pushResults { c.mb with nResults := n, results := results } 0 n c.ar.stack g.st.sp with
    | none =>
      simp only [SameNext]
      exact ⟨rfl, rfl, rfl, by rw [h.module]; rfl, rfl⟩
    | some q =>
      obtain ⟨sp, stack⟩ := q
      simp only [SameNext]
      refine ⟨by rw [h.module]; rfl, ⟨h.vm.pc, rfl, h.vm.fp, h.vm.csp, h.vm.fuel, rfl, h.vm.memSize⟩,
        rfl, rfl, ⟨?_, h.cells.frames, h.cells.globals, ?_, h.cells.live⟩, rfl, h.memSize, ?_⟩
      · intro i hi
        exact (cudaMemcpy_lt hi).symm
      · intro i hi
        rw [h.module]
        exact (cudaMemcpy_lt hi).symm
      · intro hrun
        cases hrun

theorem Synced.round {maxSteps : Nat} {f : FuncMeta} {host : HostFn H} (h : Synced m c g)
    (hsize : SizeOk m.memMax m.memSize) (hgrow : ∀ i ∈ m.code, i.op ≠ .memoryGrow)
    (hcuda : ∀ g', gpuResume host g = .inr g' → g'.st.status = .running →
      (kRun g'.m maxSteps g'.dev).isSome) :
    SameNext m (cpuRound m f host maxSteps c) (gpuRound f host maxSteps g) := by
  have hres : SameNext m (cpuResume m host maxSteps c) (gpuResume host g) := by
    unfold cpuResume gpuResume
    rw [← h.vm.status]
    by_cases hpend : c.st.status = .hostcallPending
    · rw [if_pos hpend, if_pos hpend]
      exact h.reply hpend host maxSteps
    · rw [if_neg hpend, if_neg hpend]
      exact h
  rw [cpuRound_eq]
  unfold gpuRound
  cases hc : cpuResume m host maxSteps c with
  | inl r =>
    cases hg : gpuResume host g with
    | inl r' =>
      rw [hc, hg] at hres
      exact hres
    | inr g1 =>
      rw [hc, hg] at hres
      exact hres.elim
  | inr c1 =>
    cases hg : gpuResume host g with
    | inl r' =>
      rw [hc, hg] at hres
      exact hres.elim
    | inr g1 =>
      rw [hc, hg] at hres
      have h1 : Synced m c1 g1 := hres
      simp only
      rw [← h1.vm.status]
      by_cases hrun : c1.st.status = .running
      · rw [if_neg (not_not.mpr hrun), if_neg (not_not.mpr hrun)]
        obtain ⟨d, hd⟩ := Option.isSome_iff_exists.mp
          (hcuda g1 hg (h1.vm.status.symm.trans hrun))
        rw [hd]
        exact h1.launch hsize hgrow hd
      · rw [if_pos hrun, if_pos hrun]
        simp only [SameNext]
        refine ⟨h1.vm.status.symm, ?_, rfl, ?_, h1.host⟩
        · simp only [gpuResult, finalResult, h1.stack, h1.vm.status]
        · simp only [gpuResult, finalResult, h1.module, h1.vm.memSize, HostModule.withArrays]

/-- In step from one round on, the drivers return the same or are both still running. -/
theorem Synced.loop {maxSteps : Nat} {f : FuncMeta} {host : HostFn H}
    (hsize : SizeOk m.memMax m.memSize) (hgrow : ∀ i ∈ m.code, i.op ≠ .memoryGrow) (rounds : Nat)
    (h : Synced m c g) (hcuda : CudaSucceeds f host maxSteps g) :
    Option.Rel SameReturn (cpuLoop m f host maxSteps rounds c) (gpuLoop f host maxSteps rounds g) := by
  induction rounds generalizing c g with
  | zero => exact .none
  | succ n ih =>
    have hround : SameNext m (cpuRound m f host maxSteps c) (gpuRound f host maxSteps g) :=
      h.round hsize hgrow fun g' => hcuda g g' .refl
    unfold cpuLoop gpuLoop
    cases hc : cpuRound m f host maxSteps c with
    | inl r =>
      cases hg : gpuRound f host maxSteps g with
      | inl r' =>
        rw [hc, hg] at hround
        exact .some hround
      | inr g1 =>
        rw [hc, hg] at hround
        exact hround.elim
    | inr c1 =>
      cases hg : gpuRound f host maxSteps g with
      | inl r' =>
        rw [hc, hg] at hround
        exact hround.elim
      | inr g1 =>
        rw [hc, hg] at hround
        exact ih hround fun g2 g' hg2 => hcuda g2 g' (.head hg hg2)

theorem map_getD_range {α : Type} (xs : List α) (d : α) :
    (List.range xs.length).map (fun i => xs.getD i d) = xs := by
  refine List.ext_getElem (by simp) fun i h1 h2 => ?_
  simp [List.getD_eq_getElem?_getD, h2]

/-- The uploads of `run_gpu` leave the device with the entry state of `run_cpu`. -/
theorem synced_entry (f : FuncMeta) (args : List Slot) (fuel : Int) (h : H) (junk : Device) :
    Synced m (cpuEntry m f args fuel h) (gpuEntry m f args fuel h junk) := by
  refine ⟨?_, ⟨rfl, rfl, rfl, rfl, rfl, rfl, rfl⟩, rfl, rfl, ⟨fun i hi => ?_, fun i hi => ?_,
    fun i hi => ?_, fun i hi => ?_, fun i hi => ?_⟩, rfl, rfl, fun hp => nomatch hp⟩
  · have hg : (List.range m.globals.length).map (fun i => m.globals.getD i 0) = m.globals :=
      map_getD_range _ _
    have hl : (List.range m.dataLive.length).map (fun i => m.dataLive.getD i 0) = m.dataLive :=
      map_getD_range _ _
    show m = { m with
      globals := (List.range m.globals.length).map fun i => m.globals.getD i 0
      dataLive := (List.range m.dataLive.length).map fun i => m.dataLive.getD i 0 }
    rw [hg, hl]
  all_goals exact (cudaMemcpy_lt hi).symm

end Synced

/-- `run_gpu` and `run_cpu` return the same and leave the same module behind when no `memory.grow`
occurs in the code, whatever the fresh device memory holds. -/
theorem gpu_agrees_with_cpu {H : Type} {ps : List (Parsed Payload)} {m0 m : HostModule}
    (hm : loadWasm ps = .ok m0) (hv : verifyCuop m0 = .ok m)
    (hgrow : ∀ i ∈ m.code, i.op ≠ .memoryGrow) (funcIdx : Nat) (args : List Slot) (maxSteps : Nat)
    (host : HostFn H) (h : H) (junk : Device)
    (hcuda : ∀ f, m.funcs[funcIdx]? = some f →
      CudaSucceeds f host maxSteps (gpuEntry m f args CPU_FUEL h junk)) (rounds : Nat) :
    Option.Rel SameReturn (runCpu m funcIdx args maxSteps host h rounds)
      (runGpu m funcIdx args maxSteps host h junk rounds) := by
  have hsame (r : RunResult × HostModule × H) : Option.Rel SameReturn (some r) (some r) :=
    .some ⟨rfl, rfl, rfl, rfl, rfl⟩
  have hcode : m.code.isEmpty = false := by
    have := (verifyCuop_accepted hv).1.nonempty
    simpa using this
  unfold runCpu runGpu
  cases hf : m.funcs[funcIdx]? with
  | none => exact hsame _
  | some f =>
    simp only [hcode]
    by_cases hargs : args.length = f.nParams
    · rw [if_neg (not_not.mpr hargs), if_neg (not_not.mpr hargs)]
      exact (synced_entry f args CPU_FUEL h junk).loop (loaded_sizeOk hm hv) hgrow rounds (hcuda f hf)
    · rw [if_pos hargs, if_pos hargs]
      exact hsame _

/-- The launches of a run that returns can be checked one by one. -/
theorem launchesSucceed_cuda {H : Type} {f : FuncMeta} {host : HostFn H} {maxSteps rounds : Nat}
    {g0 : GpuState H} (h : launchesSucceed f host maxSteps rounds g0 = true) :
    CudaSucceeds f host maxSteps g0 := by
  induction rounds generalizing g0 with
  | zero => cases h
  | succ n ih =>
    unfold launchesSucceed at h
    rw [Bool.and_eq_true] at h
    obtain ⟨hnow, hrest⟩ := h
    intro g g' hg hres hrun
    rcases Relation.ReflTransGen.cases_head hg with heq | ⟨g1, hround, hg1⟩
    · subst heq
      rw [hres] at hnow
      simpa [hrun] using hnow
    · rw [hround] at hrest
      exact ih hrest g g' hg1 hres hrun

/-- A device with fresh memory. -/
def freshDevice : Device where
  st := {}
  mb := { fnId := 7, nArgs := 7, args := fun _ => 7, results := fun _ => 7 }
  ar := ⟨fun _ => 7, fun _ => ⟨7, 7, 7, 7⟩, fun _ => 7, fun _ => 7, fun _ => 7⟩

/-- The loaded module has no `memory.grow`, its launches succeed, and the status of its run. -/
def askLaunches : Option (Option FuncMeta × Bool × Option (Status × List Nat)) :=
  (loadWasm (askModule (.op (.call 0) .nil)).payloads).toOption.bind fun m0 =>
    (verifyCuop m0).toOption.map fun m =>
      (m.funcs[1]?, m.code.all (fun i => i.op != .memoryGrow) &&
        launchesSucceed askMeta oneHost 1 9 (gpuEntry m askMeta [] CPU_FUEL () freshDevice),
        (runCpu m 1 [] 1 oneHost () 9).map fun r => (r.1.status, r.1.results.map (·.toNat)))

/-- A run that suspends after every instruction and asks the host once. -/
theorem ask_gpu_agrees : ∃ m0 m, loadWasm (askModule (.op (.call 0) .nil)).payloads = .ok m0 ∧
    verifyCuop m0 = .ok m ∧
    (runCpu m 1 [] 1 oneHost () 9).map (fun r => (r.1.status, r.1.results.map (·.toNat))) =
      some (.ok, [100]) ∧
    Option.Rel SameReturn (runCpu m 1 [] 1 oneHost () 9)
      (runGpu m 1 [] 1 oneHost () freshDevice 9) := by
  have hload : askLaunches = some (some askMeta, true, some (.ok, [100])) := by decide +kernel
  obtain ⟨m0, m, hm, hv, heval⟩ := loaded_eval hload
  simp only [Prod.mk.injEq] at heval
  obtain ⟨hf, hchecks, hrun⟩ := heval
  rw [Bool.and_eq_true] at hchecks
  obtain ⟨hcode, hlaunch⟩ := hchecks
  refine ⟨m0, m, hm, hv, hrun, gpu_agrees_with_cpu hm hv ?_ 1 [] 1 oneHost () freshDevice ?_ 9⟩
  · intro i hi hop
    have hne := List.all_eq_true.mp hcode i hi
    rw [hop] at hne
    cases hne
  · intro f hf'
    rw [hf] at hf'
    cases hf'
    exact launchesSucceed_cuda hlaunch

end CuWasm
