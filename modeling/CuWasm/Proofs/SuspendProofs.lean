import CuWasm.Proofs.RunnerProofs
import CuWasm.Proofs.TrapProofs
import CuWasm.Suspend

/-!
# Suspension against the uninterrupted run

The registers survive the exit from `run_instance` and the re-entry, with one exception: the size of
the memory is that of the module again. As long as no `memory.grow` has taken effect before an exit,
a run with any quota therefore returns what the uninterrupted run returns.
-/

namespace CuWasm

open Exit BlockMove

/-- Equal registers and equal arrays. -/
structure Same (s t : Mach) : Prop where
  regs : SameRegs s t
  arrays : t.arrays = s.arrays

/-- All cells of all regions. -/
def everything : Region → Nat → Prop := fun _ _ => True

section Same

variable {m : HostModule} {s t : Mach}

theorem window_everything {α : Type} {g0 f g : Nat → α} :
    Window (fun _ => True) 0 0 g0 f g ↔ g = f := by
  constructor
  · intro h
    funext j
    have := h.agree j trivial
    rwa [Nat.zero_add] at this
  · rintro rfl
    exact ⟨fun _ _ => rfl, fun c hc => absurd (Nat.zero_add c).symm (hc c trivial)⟩

theorem same_iff_alike (ar : Arrays) :
    Same s t ↔ Alike everything m.cpuViews m.cpuViews ar s t := by
  constructor
  · intro h
    have harr := h.arrays
    unfold Mach.arrays at harr
    simp only [Arrays.mk.injEq] at harr
    obtain ⟨h1, h2, h3, h4, h5⟩ := harr
    refine ⟨h.regs, ?_, ?_, ?_, ?_, ?_⟩
    all_goals
      rw [cpuViews_base]
      exact window_everything.mpr ‹_›
  · intro h
    obtain ⟨hregs, h1, h2, h3, h4, h5⟩ := h
    rw [cpuViews_base] at h1 h2 h3 h4 h5
    refine ⟨hregs, ?_⟩
    unfold Mach.arrays
    rw [window_everything.mp h1, window_everything.mp h2, window_everything.mp h3,
      window_everything.mp h4, window_everything.mp h5]

theorem not_spoiled (v : Views) : ¬ Spoiled everything v s := by
  rintro ⟨a, -, ha⟩
  exact ha fun _ _ _ => trivial

/-- One instruction of two machines that are the same. -/
theorem Same.step (h : Same s t) :
    (∃ s' t', Run.step m.cpuViews m.dev s = .ok () s' ∧ Run.step m.cpuViews m.dev t = .ok () t' ∧
      Same s' t') ∨
    ∃ e s' t', Run.step m.cpuViews m.dev s = .error e s' ∧ Run.step m.cpuViews m.dev t = .error e t' ∧
      Same s' t' ∧ (e = .hostcallPending → SameCall s'.mb t'.mb) := by
  have hal := (same_iff_alike (m := m) s.arrays).mp h
  have hend := step_ends (fits_self m.cpuViews) m.dev hal fun _ _ _ => Iff.rfl
  have hcall : ∀ s' t', Run.step m.cpuViews m.dev s = .error .hostcallPending s' →
      Run.step m.cpuViews m.dev t = .error .hostcallPending t' → SameCall s'.mb t'.mb :=
    fun s' t' hs ht => step_sameCall hal hs ht (not_spoiled _)
  generalize Run.step m.cpuViews m.dev s = r at hend hcall ⊢
  generalize Run.step m.cpuViews m.dev t = r' at hend hcall ⊢
  cases hend with
  | ok a h' => exact .inl ⟨_, _, rfl, rfl, (same_iff_alike s.arrays).mpr h'⟩
  | error e h' =>
    refine .inr ⟨e, _, _, rfl, rfl, (same_iff_alike s.arrays).mpr h', ?_⟩
    rintro rfl
    exact hcall _ _ rfl rfl
  | spoiled hb => exact absurd hb (not_spoiled _)
  | escaped he => exact absurd he.2 (Nat.lt_irrefl _)

/-- Steps of two machines that are the same. -/
theorem Same.steps {k : Nat} {s' : Mach} (h : Same s t)
    (hs : Steps (Run.step m.cpuViews m.dev) k s s') :
    ∃ t', Steps (Run.step m.cpuViews m.dev) k t t' ∧ Same s' t' := by
  induction hs generalizing t with
  | zero s => exact ⟨t, .zero t, h⟩
  | succ h1 _ ih =>
    rcases h.step (m := m) with ⟨s1, t1, hs1, ht1, hsame⟩ | ⟨e, s1, t1, hs1, -⟩
    · rw [h1] at hs1
      cases hs1
      obtain ⟨t', hsteps, hsame'⟩ := ih hsame
      exact ⟨t', .succ ht1 hsteps, hsame'⟩
    · rw [h1] at hs1
      cases hs1

end Same

section Run

variable {H : Type} {m : HostModule} {f : FuncMeta} {host : HostFn H} {n : Nat} {c c' c0 : CpuState H}
  {x : Flat H} {r r' : RunResult × HostModule × H}

theorem sameReturn_refl (r : RunResult × HostModule × H) : SameReturn r r := ⟨rfl, rfl, rfl, rfl, rfl⟩

theorem SameReturn.symm (h : SameReturn r r') : SameReturn r' r :=
  ⟨h.status.symm, h.results.symm, h.error.symm, h.module.symm, h.host.symm⟩

theorem SameReturn.trans {r'' : RunResult × HostModule × H} (h : SameReturn r r')
    (h' : SameReturn r' r'') : SameReturn r r'' :=
  ⟨h'.status.trans h.status, h'.results.trans h.results, h'.error.trans h.error,
    h'.module.trans h.module, h'.host.trans h.host⟩

/-! ## The uninterrupted run -/

theorem flatLoop_le {k k' : Nat} (h : flatLoop m f host k x = some r) (hk : k ≤ k') :
    flatLoop m f host k' x = some r := by
  induction k generalizing k' x with
  | zero => cases h
  | succ k ih =>
    obtain ⟨k', rfl⟩ : ∃ j, k' = j + 1 := ⟨k' - 1, by omega⟩
    unfold flatLoop at h ⊢
    cases hstep : flatStep m f host x with
    | inl r1 =>
      rw [hstep] at h
      exact h
    | inr x1 =>
      rw [hstep] at h
      exact ih h (Nat.le_of_succ_le_succ hk)

theorem flatLoop_returns {k : Nat} (h : flatStep m f host x = .inl r) :
    flatLoop m f host (k + 1) x = some r := by
  unfold flatLoop
  rw [h]

theorem flatLoop_goesOn {k : Nat} {y : Flat H} (h : flatStep m f host x = .inr y) :
    flatLoop m f host (k + 1) x = flatLoop m f host k y := by
  rw [flatLoop, h]

theorem flatLoop_unique {k k' : Nat} (h : flatLoop m f host k x = some r)
    (h' : flatLoop m f host k' x = some r') : r' = r := by
  have h1 := flatLoop_le h (Nat.le_max_left k k')
  have h2 := flatLoop_le h' (Nat.le_max_right k k')
  exact Option.some.inj (h2.symm.trans h1)

theorem flatLoop_steps {k j : Nat} {t : Mach} (h : Steps (Run.step m.cpuViews m.dev) k x.mach t) :
    flatLoop m f host (k + j) x = flatLoop m f host j ⟨t, x.host⟩ := by
  generalize hs : x.mach = s at h
  induction h generalizing x with
  | zero s =>
    subst hs
    rw [Nat.zero_add]
  | @succ k s t u h1 _ ih =>
    subst hs
    have hstep : flatStep m f host x = .inr ⟨t, x.host⟩ := by
      unfold flatStep
      rw [h1]
    rw [Nat.succ_add, flatLoop_goesOn hstep]
    exact ih rfl

/-! ## The driver next to it -/

/-- The machine that the driver starts next and the host are those of the uninterrupted run. -/
structure Follows (m : HostModule) (c : CpuState H) (x : Flat H) : Prop where
  mach : Same (c.mach m) x.mach
  host : x.host = c.host

/-- What two drivers do with the same pending call. -/
inductive SameAnswer (c : CpuState H) :
    (RunResult × HostModule × H) ⊕ CpuState H → (RunResult × HostModule × H) ⊕ CpuState H → Prop where
  | returns {r1 r2 : RunResult × HostModule × H} (h : SameReturn r1 r2) : SameAnswer c (.inl r1) (.inl r2)
  | goesOn {d d' : CpuState H} (hst : d.st = { c.st with sp := d.st.sp, status := .running })
      (har : d.ar = { c.ar with stack := d.ar.stack, mem := d.ar.mem }) (hsp : d'.st.sp = d.st.sp)
      (hstack : d'.ar.stack = d.ar.stack) (hmem : d'.ar.mem = d.ar.mem) (hhost : d'.host = d.host) :
      SameAnswer c (.inr d) (.inr d')

theorem hostCall_same (m : HostModule) (host : HostFn H) (n n' : Nat) (har : c'.ar = c.ar)
    (hsp : c'.st.sp = c.st.sp)
    (hcall : SameCall c.mb c'.mb) (hhost : c'.host = c.host) :
    SameAnswer c (hostCall m host n c) (hostCall m host n' c') := by
  have hask : c'.ask host = c.ask host := by
    have hargs : (List.range c'.mb.nArgs).map c'.mb.args = (List.range c.mb.nArgs).map c.mb.args := by
      rw [hcall.nArgs]
      exact List.map_congr_left fun i hi => hcall.args i (List.mem_range.mp hi)
    unfold CpuState.ask
    rw [hargs, hhost, hcall.fnId, har]
  unfold hostCall
  rw [hask, har]
  generalize c.ask host = out
  cases hr : out.reply with
  | error e =>
    simp only [hr]
    exact .returns ⟨rfl, rfl, rfl, rfl, rfl⟩
  | ok p =>
    obtain ⟨k, results⟩ := p
    have hpush := pushResults_congr
      (show ({ c'.mb with nResults := k, results := results } : HostMailbox).results =
        ({ c.mb with nResults := k, results := results } : HostMailbox).results from rfl)
    simp only [hr, hsp]
    rw [hpush]
    cases pushResults { c.mb with nResults := k, results := results } 0 k c.ar.stack c.st.sp with
    | none => exact .returns (sameReturn_refl _)
    | some q => exact .goesOn rfl rfl rfl rfl rfl rfl

/-- The host has answered the driver and the uninterrupted run. -/
theorem Follows.answered {s t : Mach} {h : H} {d d' : CpuState H} (hsame : Same s t)
    (hsize : s.memSize = m.memSize)
    (hst : d.st = { s.save .hostcallPending with sp := d.st.sp, status := .running })
    (har : d.ar = { s.arrays with stack := d.ar.stack, mem := d.ar.mem }) (hsp : d'.st.sp = d.st.sp)
    (hstack : d'.ar.stack = d.ar.stack) (hmem : d'.ar.mem = d.ar.mem) (hhost : d'.host = d.host) :
    Follows m d (Flat.answered ⟨t, h⟩ d') := by
  have harr := hsame.arrays
  unfold Mach.arrays at harr
  simp only [Arrays.mk.injEq] at harr
  obtain ⟨-, hframes, hglobals, -, hlive⟩ := harr
  have hregs := hsame.regs
  refine ⟨⟨⟨?_, hsp, ?_, ?_, ?_, ?_⟩, ?_⟩, hhost⟩
  · show t.pc = d.st.pc
    rw [hst]
    exact hregs.pc
  · show t.fp = d.st.fp
    rw [hst]
    exact hregs.fp
  · show t.csp = d.st.csp
    rw [hst]
    exact hregs.csp
  · show t.fuel = d.st.fuel
    rw [hst]
    exact hregs.fuel
  · exact hregs.memSize.trans hsize
  · show (⟨d'.ar.stack, t.frames, t.globals, d'.ar.mem, t.live⟩ : Arrays) = d.ar
    rw [har, hstack, hmem, hframes, hglobals, hlive]
    rfl

theorem flatStep_refused (f : FuncMeta) {host : HostFn H} {t : Mach}
    (h : Run.step m.cpuViews m.dev x.mach = .error .hostcallPending t)
    (hr : hostCall m host 0 (Flat.left ⟨t, x.host⟩ .hostcallPending) = .inl r) :
    flatStep m f host x = .inl r := by
  unfold flatStep
  simp only [h, hr]

theorem flatStep_answered (f : FuncMeta) {host : HostFn H} {t : Mach}
    (h : Run.step m.cpuViews m.dev x.mach = .error .hostcallPending t)
    (hc : hostCall m host 0 (Flat.left ⟨t, x.host⟩ .hostcallPending) = .inr c) :
    flatStep m f host x = .inr (Flat.answered ⟨t, x.host⟩ c) := by
  unfold flatStep
  simp only [h, hc]

theorem flatStep_final (f : FuncMeta) (host : HostFn H) {t : Mach} {st : Status}
    (h : Run.step m.cpuViews m.dev x.mach = .error st t) (hst : st ≠ .hostcallPending) :
    flatStep m f host x = .inl (finalResult m f 0 (Flat.left ⟨t, x.host⟩ st)) := by
  unfold flatStep
  rw [h]
  cases st with
  | hostcallPending => exact absurd rfl hst
  | _ => rfl

/-- A call that ends with the status `st` in the machine `u`, as the driver sees it. -/
theorem runOnce_of_loop {st : Status} {u : Mach}
    (h : Run.loop m.cpuViews m.dev n (c.mach m) = (st, u)) :
    runOnce m n c = { c with st := u.save st, mb := u.mb, ar := u.arrays } := by
  unfold runOnce runInstance
  rw [show Mach.load c.st m.memSize c.mb c.ar = c.mach m from rfl, h]

/-- One round of the driver next to the uninterrupted run, when the size of the memory is that of the
module where `run_instance` is left: both return the same, or both go on. -/
theorem Follows.round {c1 : CpuState H}
    (hsize : (runOnce m n c1).st.status ∈ [.running, .hostcallPending] →
      (runOnce m n c1).st.memSize = m.memSize)
    (h : Follows m c1 x) :
    (∃ k r r', cpuRound m f host n (runOnce m n c1) = .inl r ∧
      flatLoop m f host (k + 1) x = some r' ∧ SameReturn r r') ∨
    ∃ k c2 y, cpuResume m host n (runOnce m n c1) = .inr c2 ∧ c2.st.status = .running ∧ Follows m c2 y ∧
      (0 < n → 0 < k) ∧ ∀ j, flatLoop m f host (k + j) x = flatLoop m f host j y := by
  generalize hp : Run.loop m.cpuViews m.dev n (c1.mach m) = p
  obtain ⟨st, u⟩ := p
  have hcall := runOnce_of_loop hp
  rw [hcall] at hsize ⊢
  rcases loop_ends hp with ⟨rfl, hsteps⟩ | ⟨k, w, -, hsteps, hw⟩
  · -- the quota is used up: the next call goes on from the registers that were saved
    obtain ⟨t, hflat, hsame⟩ := h.mach.steps hsteps
    have hu : u.memSize = m.memSize := hsize (List.mem_cons_self ..)
    have hfollows : Follows m { c1 with st := u.save .running, mb := u.mb, ar := u.arrays }
        ⟨t, x.host⟩ := by
      refine ⟨⟨⟨hsame.regs.pc, hsame.regs.sp, hsame.regs.fp, hsame.regs.csp, hsame.regs.fuel, ?_⟩,
        hsame.arrays⟩, h.host⟩
      exact hsame.regs.memSize.trans hu
    exact .inr ⟨n, _, _, rfl, rfl, hfollows, id, fun j => flatLoop_steps hflat⟩
  · obtain ⟨t, hflat, hsame⟩ := h.mach.steps hsteps
    rcases hsame.step (m := m) with ⟨s1, t1, hs1, -⟩ | ⟨e, s1, t1, hs1, ht1, hsame1, hask⟩
    · rw [hw] at hs1
      cases hs1
    · rw [hw] at hs1
      cases hs1
      -- one more step of the uninterrupted run decides how it goes on
      have hone (j : Nat) : flatLoop m f host (k + (j + 1)) x =
          flatLoop m f host (j + 1) ⟨t, x.host⟩ := flatLoop_steps hflat
      by_cases hpend : st = .hostcallPending
      · subst hpend
        have hu : u.memSize = m.memSize := hsize (List.mem_cons_of_mem _ (List.mem_cons_self ..))
        have hans : SameAnswer { c1 with st := u.save .hostcallPending, mb := u.mb, ar := u.arrays }
            (hostCall m host n { c1 with st := u.save .hostcallPending, mb := u.mb, ar := u.arrays })
            (hostCall m host 0 (Flat.left ⟨t1, x.host⟩ .hostcallPending)) :=
          hostCall_same m host n 0 hsame1.arrays hsame1.regs.sp (hask rfl) h.host
        have hres2 : cpuResume m host n
            { c1 with st := u.save .hostcallPending, mb := u.mb, ar := u.arrays } =
            hostCall m host n
              { c1 with st := u.save .hostcallPending, mb := u.mb, ar := u.arrays } := rfl
        rw [cpuRound_eq]
        generalize hostCall m host n _ = a at hans hres2
        generalize hb : hostCall m host 0 _ = b at hans
        rw [hres2]
        cases hans with
        | returns hr =>
          have hflatStep := flatStep_refused f (x := ⟨t, x.host⟩) ht1 hb
          exact .inl ⟨k, _, _, rfl, (hone 0).trans (flatLoop_returns hflatStep), hr⟩
        | @goesOn d d' hst har hsp hstack hmem hhost =>
          have hd : d.st.status = .running := by rw [hst]
          have hfollows := Follows.answered hsame1 hu (h := x.host) hst har hsp hstack hmem hhost
          have hflatStep := flatStep_answered f (x := ⟨t, x.host⟩) ht1 hb
          refine .inr ⟨k + 1, d, _, rfl, hd, hfollows, fun _ => Nat.succ_pos k, fun j => ?_⟩
          rw [Nat.add_right_comm, Nat.add_assoc]
          exact (hone j).trans (flatLoop_goesOn hflatStep)
      · have hne : st ≠ .running := by
          rintro rfl
          exact Run.step_not_running _ _ _ _ hw
        have hflatStep := flatStep_final f host (x := ⟨t, x.host⟩) ht1 hpend
        refine .inl ⟨k, _, _, final_round hne hpend, (hone 0).trans (flatLoop_returns hflatStep), ?_⟩
        refine ⟨rfl, ?_, rfl, ?_, h.host⟩
        · show (if st = .ok then (List.range f.nResults).map t1.arrays.stack else []) =
            if st = .ok then (List.range f.nResults).map u.arrays.stack else []
          rw [hsame1.arrays]
        · show m.withArrays t1.arrays t1.memSize = m.withArrays u.arrays u.memSize
          rw [hsame1.arrays, hsame1.regs.memSize]

theorem resumed_round {c1 : CpuState H} (hres : cpuResume m host n c = .inr c1)
    (hrun : c1.st.status = .running) : cpuRound m f host n c = .inr (runOnce m n c1) := by
  rw [cpuRound_eq, hres]
  simp only [hrun, ne_eq, not_true_eq_false, if_false]

section Rounds

variable {c1 : CpuState H}
  (hsize : ∀ c, CpuRuns m f host n c0 c → c.st.status ∈ [.running, .hostcallPending] →
    c.st.memSize = m.memSize)

include hsize

/-- A run with a quota and the uninterrupted run return the same when the size of the memory is that
of the module wherever `run_instance` is left. -/
theorem Follows.loop {rounds : Nat} (hc : CpuRuns m f host n c0 c) (hres : cpuResume m host n c = .inr c1)
    (hrun : c1.st.status = .running) (h : Follows m c1 x)
    (hloop : cpuLoop m f host n rounds (runOnce m n c1) = some r) :
    ∃ k r', flatLoop m f host k x = some r' ∧ SameReturn r r' := by
  induction rounds generalizing c c1 x with
  | zero => cases hloop
  | succ rounds ih =>
    have hc2 := hc.tail (resumed_round hres hrun)
    unfold cpuLoop at hloop
    rcases h.round (f := f) (hsize _ hc2) with
      ⟨k, r1, r', hround, hflat, hr⟩ | ⟨k, c2, y, hres2, hrun2, hfollows, -, hflat⟩
    · rw [hround] at hloop
      cases hloop
      exact ⟨k + 1, r', hflat, hr⟩
    · rw [resumed_round hres2 hrun2] at hloop
      obtain ⟨j, r', hj, hr'⟩ := ih hc2 hres2 hrun2 hfollows hloop
      exact ⟨k + j, r', (hflat j).trans hj, hr'⟩

/-- Where the uninterrupted run returns, so does a run with a quota. -/
theorem Follows.returns {k : Nat} (hn : 0 < n) (hc : CpuRuns m f host n c0 c)
    (hres : cpuResume m host n c = .inr c1) (hrun : c1.st.status = .running) (h : Follows m c1 x)
    (hflat : flatLoop m f host k x = some r) :
    ∃ rounds r', cpuLoop m f host n rounds (runOnce m n c1) = some r' := by
  induction k using Nat.strong_induction_on generalizing c c1 x with
  | h k ih =>
    have hc2 := hc.tail (resumed_round hres hrun)
    rcases h.round (f := f) (hsize _ hc2) with
      ⟨j, r1, r', hround, -, -⟩ | ⟨j, c2, y, hres2, hrun2, hfollows, hj, hgo⟩
    · exact ⟨1, r1, by rw [cpuLoop, hround]⟩
    · have hjk : j ≤ k := by
        by_contra hlt
        have hmore := flatLoop_le hflat (Nat.le_of_lt (Nat.lt_of_not_le hlt))
        have hnone := hgo 0
        rw [Nat.add_zero, hmore] at hnone
        cases hnone
      obtain ⟨i, rfl⟩ := Nat.exists_eq_add_of_le hjk
      have hpos := hj hn
      obtain ⟨rounds, r', hr'⟩ := ih i (by omega) hc2 hres2 hrun2 hfollows ((hgo i).symm.trans hflat)
      exact ⟨rounds + 1, r', by rw [cpuLoop, resumed_round hres2 hrun2]; exact hr'⟩

end Rounds

/-- The registers survive wherever `run_instance` is left just when no `memory.grow` takes effect in
a call that is left by an exhausted quota or a pending host call. -/
theorem seamless_iff (hsize : SizeOk m.memMax m.memSize) (args : List Slot) (fuel : Int) (h : H) :
    Seamless m f host n (cpuEntry m f args fuel h) ↔
      NoGrowthBefore m f host n [.running, .hostcallPending] (cpuEntry m f args fuel h) := by
  constructor
  · intro hseam c c' hc hres hrun hout
    have hround : cpuRound m f host n c = .inr (runOnce m n c') := by
      rw [cpuRound_eq, hres]
      simp only [hrun, ne_eq, not_true_eq_false, if_false]
    have hmach := hseam _ (hc.tail hround) hout
    exact (runOnce_memSize hsize).2.mp (congrArg Mach.memSize hmach).symm
  · intro hno c hc hst
    have hmem : c.st.memSize = m.memSize := by
      rcases Relation.ReflTransGen.cases_tail hc with rfl | ⟨b, hb, hround⟩
      · rfl
      · obtain ⟨c1, hres, hrun, rfl⟩ := cpuRound_inr hround
        exact (runOnce_memSize hsize).2.mpr (hno b c1 hb hres hrun hst)
    show Mach.load c.st m.memSize c.mb c.ar = _
    rw [hmem]

/-- The driver at its first round. -/
theorem follows_entry (args : List Slot) (h : H) :
    Follows m (cpuEntry m f args CPU_FUEL h) (flatEntry m f args h) :=
  ⟨⟨⟨rfl, rfl, rfl, rfl, rfl, rfl⟩, rfl⟩, rfl⟩

/-- A run with a quota returns what the uninterrupted run returns. -/
theorem flat_of_cpuLoop {rounds : Nat} {args : List Slot} {h : H}
    (hseam : Seamless m f host n (cpuEntry m f args CPU_FUEL h))
    (hloop : cpuLoop m f host n rounds (cpuEntry m f args CPU_FUEL h) = some r) :
    ∃ k r', flatLoop m f host k (flatEntry m f args h) = some r' ∧ SameReturn r r' := by
  cases rounds with
  | zero => cases hloop
  | succ rounds =>
    rw [cpuLoop, resumed_round rfl rfl] at hloop
    exact Follows.loop (fun c hc hst => (congrArg Mach.memSize (hseam c hc hst)).symm) .refl rfl rfl
      (follows_entry args h) hloop

/-- A run with a quota returns where the uninterrupted run returns. -/
theorem cpuLoop_of_flat {k : Nat} {args : List Slot} {h : H} (hn : 0 < n)
    (hseam : Seamless m f host n (cpuEntry m f args CPU_FUEL h))
    (hflat : flatLoop m f host k (flatEntry m f args h) = some r) :
    ∃ rounds r', cpuLoop m f host n rounds (cpuEntry m f args CPU_FUEL h) = some r' := by
  obtain ⟨rounds, r', hr'⟩ := Follows.returns
    (fun c hc hst => (congrArg Mach.memSize (hseam c hc hst)).symm) hn .refl rfl rfl
    (follows_entry args h) hflat
  refine ⟨rounds + 1, r', ?_⟩
  rw [cpuLoop, resumed_round rfl rfl]
  exact hr'

end Run

/-- The registers survive the interruptions of a run just when no `memory.grow` takes effect in a
`run_instance` call that is left by an exhausted quota or a pending host call, and two runs of this
kind return the same whatever their quotas are. -/
theorem suspension_unobservable {H : Type} {ps : List (Parsed Payload)} {m0 m1 m : HostModule}
    (hm : loadWasm ps = .ok m0) (hv : verifyCuop m0 = .ok m1) (hruns : RunsLeave m1 m)
    (funcIdx : Nat) (args : List Slot) (host : HostFn H) (h : H) :
    (∀ f n, Seamless m f host n (cpuEntry m f args CPU_FUEL h) ↔
      NoGrowthBefore m f host n [.running, .hostcallPending] (cpuEntry m f args CPU_FUEL h)) ∧
    ∀ n n' rounds rounds' r r', runCpu m funcIdx args n host h rounds = some r →
      runCpu m funcIdx args n' host h rounds' = some r' →
      (∀ f, m.funcs[funcIdx]? = some f → ∀ q ∈ [n, n'],
        NoGrowthBefore m f host q [.running, .hostcallPending] (cpuEntry m f args CPU_FUEL h)) →
      SameReturn r r' := by
  have hsize := hruns.sizeOk (loaded_sizeOk hm hv)
  refine ⟨fun f n => seamless_iff hsize args CPU_FUEL h, ?_⟩
  intro n n' rounds rounds' r r' hr hr' hno
  unfold runCpu at hr hr'
  cases hf : m.funcs[funcIdx]? with
  | none =>
    rw [hf] at hr hr'
    cases hr
    cases hr'
    exact sameReturn_refl _
  | some f =>
    rw [hf] at hr hr'
    simp only at hr hr'
    by_cases hargs : args.length = f.nParams
    · rw [if_neg (not_not.mpr hargs)] at hr hr'
      have hseam := (seamless_iff hsize args CPU_FUEL h).mpr (hno f hf n (List.mem_cons_self ..))
      have hseam' := (seamless_iff hsize args CPU_FUEL h).mpr
        (hno f hf n' (List.mem_cons_of_mem _ (List.mem_cons_self ..)))
      obtain ⟨k, x, hx, hsame⟩ := flat_of_cpuLoop hseam hr
      obtain ⟨k', x', hx', hsame'⟩ := flat_of_cpuLoop hseam' hr'
      cases flatLoop_unique hx hx'
      exact hsame.trans hsame'.symm
    · rw [if_pos hargs] at hr hr'
      cases hr
      cases hr'
      exact sameReturn_refl _

open Wasm

/-- Grow the memory by a page and return its size. -/
def resizeBody : Body :=
  .op (.const (.i32 1)) (.op (.memoryGrow 0) (.op .drop (.op (.memorySize 0)
    (.op (.num .i64ExtendI32U) .nil))))

/-- The loaded function runs without `memory.grow`, and what it returns with two quotas. -/
def twoQuotas (body : Body) : Option (Bool × Option (Status × List Nat) ×
    Option (Status × List Nat)) :=
  (loadWasm (askModule body).payloads).toOption.bind fun m0 =>
    (verifyCuop m0).toOption.map fun m =>
      (m.code.all (fun i => i.op != .memoryGrow), (runCpu m 1 [] 10 oneHost () 9).map seen,
        (runCpu m 1 [] 1 oneHost () 9).map seen)

/-- A grown memory is forgotten when the quota is used up. -/
theorem quota_observable : ∃ m0 m r r', loadWasm (askModule resizeBody).payloads = .ok m0 ∧
    verifyCuop m0 = .ok m ∧ runCpu m 1 [] 10 oneHost () 9 = some r ∧
    runCpu m 1 [] 1 oneHost () 9 = some r' ∧ ¬ SameReturn r r' := by
  have hload : twoQuotas resizeBody =
      some (false, some (.ok, [2]), some (.ok, [1])) := by decide +kernel
  obtain ⟨m0, m, hm, hv, heval⟩ := loaded_eval hload
  simp only [Prod.mk.injEq] at heval
  obtain ⟨-, hlong, hshort⟩ := heval
  obtain ⟨r, hr, hseen⟩ := Option.map_eq_some_iff.mp hlong
  obtain ⟨r', hr', hseen'⟩ := Option.map_eq_some_iff.mp hshort
  refine ⟨m0, m, r, r', hm, hv, hr, hr', fun hsame => ?_⟩
  unfold seen at hseen hseen'
  rw [hsame.results, hsame.status, hseen] at hseen'
  simp at hseen'

/-- A function that only asks the host: interrupted after every instruction it returns the same. -/
theorem ask_quotas_agree : ∃ m0 m r r', loadWasm (askModule (.op (.call 0) .nil)).payloads = .ok m0 ∧
    verifyCuop m0 = .ok m ∧ runCpu m 1 [] 10 oneHost () 9 = some r ∧
    runCpu m 1 [] 1 oneHost () 9 = some r' ∧ seen r = (.ok, [100]) ∧ SameReturn r r' := by
  have hload : twoQuotas (.op (.call 0) .nil) =
      some (true, some (.ok, [100]), some (.ok, [100])) := by decide +kernel
  obtain ⟨m0, m, hm, hv, heval⟩ := loaded_eval hload
  simp only [Prod.mk.injEq] at heval
  obtain ⟨hcode, hlong, hshort⟩ := heval
  obtain ⟨r, hr, hseen⟩ := Option.map_eq_some_iff.mp hlong
  obtain ⟨r', hr', -⟩ := Option.map_eq_some_iff.mp hshort
  refine ⟨m0, m, r, r', hm, hv, hr, hr', hseen, ?_⟩
  refine (suspension_unobservable hm hv .fresh 1 [] oneHost ()).2 10 1 9 9 r r' hr hr' ?_
  rintro f - q - c c' - - - - k s - - ⟨i, hi, hop, -⟩
  have hne := List.all_eq_true.mp hcode i (List.mem_of_getElem? hi)
  rw [hop] at hne
  cases hne

end CuWasm
