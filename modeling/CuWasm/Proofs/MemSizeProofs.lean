import CuWasm.Embed
import CuWasm.Proofs.StepProofs
import CuWasm.Proofs.TranslateProofs
import CuWasm.Proofs.VerifyProofs

/-!
# The size of the memory along a run

Only `memory.grow` changes the size of the memory, and in a loaded module it only makes it larger.
So the size at the end of a `run_instance` call is the size at its start just when no `memory.grow`
in between has taken effect.
-/

namespace CuWasm

open Exit

namespace Run

variable (v : Views) (m : DevModule)

theorem memoryGrow_memSize (s : Mach) :
    (final (memoryGrow v s)).memSize =
      let np := s.memSize / WASM_PAGE + (u32 (s.stack (v.stack.idx (dec32 s.sp)))).toNat
      if np > v.memMax / WASM_PAGE ∨ np > 65536 then s.memSize
      else np % 2 ^ 32 * WASM_PAGE % 2 ^ 32 := by
  simp only [memoryGrow, bind_apply, pop_apply, get_apply, ite_run, modify_apply]
  split_ifs
  · exact keeps_push v offStack_memSize (Keeps.pure _) _
  · exact keeps_push v offStack_memSize (Keeps.pure _) _

end Run

/-- A size of a memory of at most `memMax` bytes: whole pages, and few enough that `memory.grow` does
not wrap around. -/
structure SizeOk (memMax size : Nat) : Prop where
  pages : WASM_PAGE ∣ size
  le : size ≤ memMax
  small : memMax ≤ 1024 * WASM_PAGE

theorem SizeOk.grow {memMax size np : Nat} (h : SizeOk memMax size) (hnp : np ≤ memMax / WASM_PAGE) :
    np % 2 ^ 32 * WASM_PAGE % 2 ^ 32 = np * WASM_PAGE ∧ SizeOk memMax (np * WASM_PAGE) := by
  have hsmall := h.small
  unfold WASM_PAGE at hsmall hnp ⊢
  have hle : np * 65536 ≤ memMax := by omega
  refine ⟨?_, Nat.dvd_mul_left _ _, hle, hsmall⟩
  rw [Nat.mod_eq_of_lt (by omega : np < 2 ^ 32), Nat.mod_eq_of_lt (by omega)]

section Size

variable {v : Views} {m : DevModule} {s : Mach}

/-- One instruction: the memory is larger afterwards just when a `memory.grow` has taken effect, and
has its size otherwise. -/
theorem step_memSize (h : SizeOk v.memMax s.memSize) :
    SizeOk v.memMax (final (Run.step v m s)).memSize ∧
      (Enlarges v m s → s.memSize < (final (Run.step v m s)).memSize) ∧
      (¬ Enlarges v m s → (final (Run.step v m s)).memSize = s.memSize) := by
  rcases Option.eq_none_or_eq_some (m.code[s.pc]?) with hi | ⟨i, hi⟩
  · have hfin : final (Run.step v m s) = { s with log := [] } := by
      rw [Run.step_apply, hi]
      rfl
    rw [hfin]
    refine ⟨h, ?_, fun _ => rfl⟩
    rintro ⟨i, hi', -⟩
    rw [hi] at hi'
    cases hi'
  · rw [Run.final_step v m hi]
    by_cases hop : i.op = .memoryGrow
    · have hexec : Run.exec v m i = Run.memoryGrow v := by
        unfold Run.exec
        rw [hop]
      rw [hexec, Run.memoryGrow_memSize]
      have hmem : (Run.fetched s).memSize = s.memSize := rfl
      have htop : (Run.fetched s).stack (v.stack.idx (dec32 (Run.fetched s).sp)) =
        s.stack (v.stack.idx (dec32 s.sp)) := rfl
      simp only [hmem, htop]
      generalize hd : (u32 (s.stack (v.stack.idx (dec32 s.sp)))).toNat = delta
      have hiff : Enlarges v m s ↔ 0 < delta ∧
          s.memSize / WASM_PAGE + delta ≤ min (v.memMax / WASM_PAGE) 65536 := by
        constructor
        · rintro ⟨j, -, -, hpos, hle⟩
          rw [hd] at hpos hle
          exact ⟨hpos, hle⟩
        · rintro ⟨hpos, hle⟩
          rw [← hd] at hpos hle
          exact ⟨i, hi, hop, hpos, hle⟩
      rw [hiff]
      by_cases hfail : s.memSize / WASM_PAGE + delta > v.memMax / WASM_PAGE ∨
          s.memSize / WASM_PAGE + delta > 65536
      · rw [if_pos hfail]
        refine ⟨h, fun hl => ?_, fun _ => rfl⟩
        omega
      · rw [if_neg hfail]
        have hnp : s.memSize / WASM_PAGE + delta ≤ v.memMax / WASM_PAGE := by omega
        obtain ⟨heq, hok⟩ := h.grow hnp
        have hpage : s.memSize / WASM_PAGE * WASM_PAGE = s.memSize := Nat.div_mul_cancel h.pages
        rw [heq]
        refine ⟨hok, ?_, ?_⟩
        · rintro ⟨hpos, -⟩
          rw [Nat.add_mul, hpage]
          have := Nat.mul_pos hpos (show 0 < WASM_PAGE by decide)
          omega
        · intro hnot
          have h0 : delta = 0 := by omega
          rw [h0, Nat.add_zero, hpage]
    · have hkeep := Run.exec_keeps_memSize v m hop (Run.fetched s)
      have hmem : (final (Run.exec v m i (Run.fetched s))).memSize = s.memSize := hkeep
      rw [hmem]
      refine ⟨h, ?_, fun _ => rfl⟩
      rintro ⟨j, hj, hopj, -⟩
      rw [hi] at hj
      cases hj
      exact absurd hopj hop

/-- A whole `run_instance` call: the memory ends with the size it had just when no `memory.grow` has
taken effect. -/
theorem loop_memSize (n : Nat) (h : SizeOk v.memMax s.memSize) :
    SizeOk v.memMax (Run.loop v m n s).2.memSize ∧ s.memSize ≤ (Run.loop v m n s).2.memSize ∧
      ((Run.loop v m n s).2.memSize = s.memSize ↔
        ∀ k t, k < n → Steps (Run.step v m) k s t → ¬ Enlarges v m t) := by
  induction n generalizing s with
  | zero =>
    refine ⟨h, le_rfl, fun _ k t hk => ?_, fun _ => rfl⟩
    exact absurd hk (Nat.not_lt_zero k)
  | succ n ih =>
    obtain ⟨hok, hlarge, hsame⟩ := step_memSize (v := v) (m := m) h
    unfold Run.loop
    cases hstep : Run.step v m s with
    | error e t =>
      rw [hstep] at hok hlarge hsame
      refine ⟨hok, ?_, ?_⟩
      · by_cases hen : Enlarges v m s
        · exact (hlarge hen).le
        · exact (hsame hen).ge
      · constructor
        · intro heq k u _ hu
          cases hu with
          | zero =>
            intro hen
            exact absurd heq (hlarge hen).ne'

          | succ h1 _ =>
            rw [hstep] at h1
            cases h1
        · intro hno
          exact hsame (hno 0 s (Nat.succ_pos n) (.zero s))
    | ok a t =>
      rw [hstep] at hok hlarge hsame
      simp only [final_ok] at hok hlarge hsame
      obtain ⟨hok', hle', hiff'⟩ := ih hok
      refine ⟨hok', ?_, ?_⟩
      · by_cases hen : Enlarges v m s
        · exact (hlarge hen).le.trans hle'
        · exact (hsame hen).ge.trans hle'
      · constructor
        · intro heq k u hk hu
          have heq' : (Run.loop v m n t).2.memSize = s.memSize := heq
          have hno : ¬ Enlarges v m s := by
            intro hen
            have := hlarge hen
            omega
          cases hu with
          | zero => exact hno
          | succ h1 h2 =>
            rw [hstep] at h1
            cases h1
            exact hiff'.mp (heq'.trans (hsame hno).symm) _ u (Nat.lt_of_succ_lt_succ hk) h2
        · intro hall
          have hno := hall 0 s (Nat.succ_pos n) (.zero s)
          refine (hiff'.mpr fun k u hk hu => ?_).trans (hsame hno)
          exact hall (k + 1) u (Nat.succ_lt_succ hk) (.succ hstep hu)

end Size

/-! ## The driver -/

section Driver

variable {H : Type} {m : HostModule} {f : FuncMeta} {host : HostFn H} {maxSteps : Nat}
  {c c' : CpuState H} {r : RunResult × HostModule × H}

theorem hostCall_inr (h : hostCall m host maxSteps c = .inr c') :
    c'.st.status = .running ∧ c'.st.memSize = c.st.memSize := by
  unfold hostCall at h
  cases hr : (c.ask host).reply with
  | error e =>
    simp only [hr] at h
    cases h
  | ok p =>
    simp only [hr] at h
    split at h
    · cases h
    · cases h
      exact ⟨rfl, rfl⟩

theorem hostCall_inl (h : hostCall m host maxSteps c = .inl r) :
    r.2.1.memSize = m.memSize ∧ r.2.1.memMax = m.memMax := by
  unfold hostCall at h
  cases hr : (c.ask host).reply with
  | error e =>
    simp only [hr] at h
    cases h
    exact ⟨rfl, rfl⟩
  | ok p =>
    simp only [hr] at h
    split at h
    · cases h
      exact ⟨rfl, rfl⟩
    · cases h

theorem cpuRound_eq : cpuRound m f host maxSteps c =
    match cpuResume m host maxSteps c with
    | .inl r => .inl r
    | .inr c => if c.st.status ≠ .running then .inl (finalResult m f maxSteps c)
      else .inr (runOnce m maxSteps c) := rfl

theorem cpuRound_inr (h : cpuRound m f host maxSteps c = .inr c') :
    ∃ c1, cpuResume m host maxSteps c = .inr c1 ∧ c1.st.status = .running ∧
      c' = runOnce m maxSteps c1 := by
  rw [cpuRound_eq] at h
  cases hres : cpuResume m host maxSteps c with
  | inl r =>
    rw [hres] at h
    cases h
  | inr c1 =>
    rw [hres] at h
    simp only at h
    by_cases hrun : c1.st.status = .running
    · rw [if_neg (not_not.mpr hrun)] at h
      cases h
      exact ⟨c1, rfl, hrun, rfl⟩
    · rw [if_pos hrun] at h
      cases h

/-- A round returns out of a host call or because the status is final. -/
theorem cpuRound_inl (h : cpuRound m f host maxSteps c = .inl r) :
    (c.st.status = .hostcallPending ∧ hostCall m host maxSteps c = .inl r) ∨
      (c.st.status ≠ .hostcallPending ∧ r = finalResult m f maxSteps c) := by
  rw [cpuRound_eq] at h
  unfold cpuResume at h
  by_cases hpend : c.st.status = .hostcallPending
  · rw [if_pos hpend] at h
    refine .inl ⟨hpend, ?_⟩
    cases hcall : hostCall m host maxSteps c with
    | inl r' =>
      rw [hcall] at h
      cases h
      rfl
    | inr c1 =>
      rw [hcall] at h
      simp only [(hostCall_inr hcall).1, ne_eq, not_true_eq_false, if_false] at h
      cases h
  · rw [if_neg hpend] at h
    simp only at h
    split_ifs at h
    cases h
    exact .inr ⟨hpend, rfl⟩

theorem runOnce_memSize (hsize : SizeOk m.memMax m.memSize) :
    SizeOk m.memMax (runOnce m maxSteps c).st.memSize ∧
      ((runOnce m maxSteps c).st.memSize = m.memSize ↔
        ∀ k s, k < maxSteps → Steps (Run.step m.cpuViews m.dev) k (c.mach m) s →
          ¬ Enlarges m.cpuViews m.dev s) := by
  have hmach : SizeOk m.cpuViews.memMax (c.mach m).memSize := hsize
  obtain ⟨hok, -, hiff⟩ := loop_memSize (m := m.dev) maxSteps hmach
  exact ⟨hok, hiff⟩

theorem runOnce_grows (hsize : SizeOk m.memMax m.memSize) :
    m.memSize ≤ (runOnce m maxSteps c).st.memSize :=
  (loop_memSize (v := m.cpuViews) (m := m.dev) (s := c.mach m) maxSteps hsize).2.1

theorem CpuRuns.sizeOk {c0 : CpuState H} (hsize : SizeOk m.memMax m.memSize)
    (h0 : SizeOk m.memMax c0.st.memSize) (h : CpuRuns m f host maxSteps c0 c) :
    SizeOk m.memMax c.st.memSize := by
  induction h with
  | refl => exact h0
  | tail _ hround _ =>
    obtain ⟨c1, -, -, rfl⟩ := cpuRound_inr hround
    exact (runOnce_memSize hsize).1

theorem cpuLoop_runs {c0 : CpuState H} {rounds : Nat} (h0 : CpuRuns m f host maxSteps c0 c)
    (h : cpuLoop m f host maxSteps rounds c = some r) :
    ∃ c', CpuRuns m f host maxSteps c0 c' ∧ cpuRound m f host maxSteps c' = .inl r := by
  induction rounds generalizing c with
  | zero => cases h
  | succ n ih =>
    unfold cpuLoop at h
    cases hround : cpuRound m f host maxSteps c with
    | inl r' =>
      rw [hround] at h
      cases h
      exact ⟨c, h0, hround⟩
    | inr c1 =>
      rw [hround] at h
      exact ih (h0.tail hround) h

/-- A run leaves a memory of whole pages within its limit. -/
theorem runCpu_sizeOk {funcIdx rounds : Nat} {args : List Slot} {h h' : H} {res : RunResult}
    {m' : HostModule} (hsize : SizeOk m.memMax m.memSize)
    (hr : runCpu m funcIdx args maxSteps host h rounds = some (res, m', h')) :
    SizeOk m'.memMax m'.memSize := by
  unfold runCpu at hr
  cases hf : m.funcs[funcIdx]? with
  | none =>
    rw [hf] at hr
    cases hr
    exact hsize
  | some f =>
    rw [hf] at hr
    simp only at hr
    split_ifs at hr
    · cases hr
      exact hsize
    · obtain ⟨c, hc, hend⟩ := cpuLoop_runs .refl hr
      have hok := hc.sizeOk hsize hsize
      rcases cpuRound_inl hend with ⟨-, hcall⟩ | ⟨-, hfin⟩
      · obtain ⟨h1, h2⟩ := hostCall_inl hcall
        rw [h1, h2]
        exact hsize
      · cases hfin
        exact hok

end Driver

theorem loaded_sizeOk {ps : List (Parsed Payload)} {m0 m : HostModule} (hm : loadWasm ps = .ok m0)
    (hv : verifyCuop m0 = .ok m) : SizeOk m.memMax m.memSize := by
  obtain ⟨-, fs, rfl, -, -⟩ := verifyCuop_accepted hv
  unfold loadWasm translateWasm at hm
  obtain ⟨m1, hm1, hm⟩ := Verify.bind_eq_ok hm
  obtain ⟨s, -, hfin⟩ := Verify.bind_eq_ok hm1
  cases hm
  obtain ⟨-, -, -, -, -, -, -, hpages, hle, hsmall⟩ := Translate.finish_ok hfin
  exact ⟨hpages, hle, hsmall⟩

theorem RunsLeave.sizeOk {m m' : HostModule} (h : RunsLeave m m')
    (hm : SizeOk m.memMax m.memSize) : SizeOk m'.memMax m'.memSize := by
  induction h with
  | fresh => exact hm
  | run _ hr ih => exact runCpu_sizeOk ih hr

/-! ## The size as the guest knows it -/

section Guest

variable {H : Type} {m : HostModule} {f : FuncMeta} {host : HostFn H} {maxSteps size : Nat}
  {c0 c c' d : CpuState H}

theorem cpuRound_running (h : c.st.status = .running) :
    cpuRound m f host maxSteps c = .inr (runOnce m maxSteps c) := by
  have hresume : cpuResume m host maxSteps c = .inr c := by
    unfold cpuResume
    rw [h, if_neg (by decide)]
  rw [cpuRound_eq, hresume]
  simp only [h, ne_eq, not_true_eq_false, if_false]

/-- A round that goes on was not at the end of the run. -/
theorem cpuResume_inr_status (h : cpuResume m host maxSteps c = .inr c')
    (hrun : c'.st.status = .running) : c.st.status ∈ [Status.running, .hostcallPending] := by
  unfold cpuResume at h
  split_ifs at h with hpend
  · rw [hpend]
    decide
  · cases h
    rw [hrun]
    decide

theorem cpuRound_inr_status (h : cpuRound m f host maxSteps c = .inr c') :
    c.st.status ∈ [Status.running, .hostcallPending] := by
  obtain ⟨c1, hres, hrun, -⟩ := cpuRound_inr h
  exact cpuResume_inr_status hres hrun

theorem Surfaces.cons (hr : cpuRound m f host maxSteps c = .inr c')
    (h : Surfaces m f host maxSteps c') : Surfaces m f host maxSteps c := by
  obtain ⟨d, hd, hend⟩ := h
  exact ⟨d, .head hr hd, hend⟩

theorem GuestRuns.runs (h : GuestRuns m f host maxSteps c0 c size) : CpuRuns m f host maxSteps c0 c := by
  induction h with
  | start => exact .refl
  | round _ hr ih => exact ih.tail hr

theorem GuestRuns.le (h : GuestRuns m f host maxSteps c0 c size) : m.memSize ≤ size := by
  induction h with
  | start => exact le_rfl
  | round _ _ ih => exact ih.trans (Nat.le_add_right _ _)

/-- The guest does not forget what it has grown. -/
theorem GuestRuns.extend (h : GuestRuns m f host maxSteps c0 c size) (hd : CpuRuns m f host maxSteps c d) :
    ∃ size', GuestRuns m f host maxSteps c0 d size' ∧ size ≤ size' := by
  induction hd with
  | refl => exact ⟨size, h, le_rfl⟩
  | tail _ hr ih =>
    obtain ⟨size', hb, hle⟩ := ih
    exact ⟨_, hb.round hr, hle.trans (Nat.le_add_right _ _)⟩

/-- Where nothing is grown in an interrupted call, the guest has the size of the module at every
interruption. -/
theorem GuestRuns.eq_memSize (hsize : SizeOk m.memMax m.memSize)
    (hno : NoGrowthInterrupted m f host maxSteps c0) (h : GuestRuns m f host maxSteps c0 c size)
    (hst : c.st.status ∈ [Status.running, .hostcallPending]) (hs : Surfaces m f host maxSteps c) :
    size = m.memSize := by
  induction h with
  | start => rfl
  | round hb hr ih =>
    have hprev := ih (cpuRound_inr_status hr) (hs.cons hr)
    obtain ⟨c1, hres, hrun, rfl⟩ := cpuRound_inr hr
    rw [hprev, (runOnce_memSize hsize).2.mpr (hno _ c1 hb.runs hres hrun hst hs)]
    omega

/-- A `run_instance` call after which the embedder sees the right size has not grown the memory. -/
theorem SizeSeen.not_grown (hsize : SizeOk m.memMax m.memSize) (hseen : SizeSeen m f host maxSteps c0)
    (hg : GuestRuns m f host maxSteps c0 c size) (hr : cpuRound m f host maxSteps c = .inr c')
    (hst : c'.st.status ∈ [Status.running, .hostcallPending]) (hs : Surfaces m f host maxSteps c') :
    c'.st.memSize ≤ m.memSize := by
  have hle := hg.le
  have hg' := hg.round hr
  obtain ⟨d, hd, hend⟩ := hs
  by_cases hpend : d.st.status = .hostcallPending
  · obtain ⟨size', hgd, hle'⟩ := hg'.extend hd
    have hcall : m.memSize = size' := hseen.atCall d size' hgd hpend
    omega
  -- The run returns from `d`, which lies behind the call.
  · obtain ⟨r, hret⟩ := hend.resolve_left hpend
    rcases Relation.ReflTransGen.cases_tail hd with rfl | ⟨b, hb, hround⟩
    · have hrun : d.st.status = .running := by
        simpa [hpend] using hst
      rw [cpuRound_running hrun] at hret
      cases hret
    · obtain ⟨sizeb, hgb, hleb⟩ := hg'.extend hb
      obtain ⟨-, hfin⟩ := (cpuRound_inl hret).resolve_left fun h => hpend h.1
      have hrec := hseen.atReturn d _ r (hgb.round hround) hret
      rw [hfin] at hrec
      have hrec' : d.st.memSize = sizeb + (d.st.memSize - m.memSize) := hrec
      have hgrows : m.memSize ≤ d.st.memSize := by
        obtain ⟨c1, -, -, rfl⟩ := cpuRound_inr hround
        exact runOnce_grows hsize
      omega

end Guest

/-- The embedder knows the size of the guest memory at every host call and on every return of a run
just when no `memory.grow` takes effect in a `run_instance` call that is interrupted, by a host call or
by an exhausted quota behind which somebody still looks. A `run_instance` call that ends the run records
the size it ends with. -/
theorem sizeSeen_iff {H : Type} {ps : List (Parsed Payload)} {m0 m1 m : HostModule}
    (hm : loadWasm ps = .ok m0) (hv : verifyCuop m0 = .ok m1) (hruns : RunsLeave m1 m)
    (f : FuncMeta) (args : List Slot) (host : HostFn H) (h : H) (maxSteps : Nat) :
    SizeSeen m f host maxSteps (cpuEntry m f args CPU_FUEL h) ↔
      NoGrowthInterrupted m f host maxSteps (cpuEntry m f args CPU_FUEL h) := by
  have hsize := hruns.sizeOk (loaded_sizeOk hm hv)
  constructor
  · intro hseen c c' hc hres hrun hst hsurf
    have hround : cpuRound m f host maxSteps c = .inr (runOnce m maxSteps c') := by
      rw [cpuRound_eq, hres]
      simp only [hrun, ne_eq, not_true_eq_false, if_false]
    have hstart : GuestRuns m f host maxSteps (cpuEntry m f args CPU_FUEL h)
      (cpuEntry m f args CPU_FUEL h) m.memSize := .start
    obtain ⟨size, hg, -⟩ := hstart.extend hc
    have hle := hseen.not_grown hsize hg hround hst hsurf
    exact (runOnce_memSize hsize).2.mp (hle.antisymm (runOnce_grows hsize))
  · intro hno
    have hatCall : ∀ c size, GuestRuns m f host maxSteps (cpuEntry m f args CPU_FUEL h) c size →
        c.st.status = .hostcallPending → m.memSize = size := by
      intro c size hg hpend
      have hst : c.st.status ∈ [Status.running, .hostcallPending] := by
        rw [hpend]
        decide
      exact (hg.eq_memSize hsize hno hst ⟨c, .refl, .inl hpend⟩).symm
    refine ⟨hatCall, fun c size hg hpend pos len => ?_, fun c size r hg hend => ?_⟩
    · have hbound : (m.dispatchCtx c.host c.ar.mem).memSize = size := hatCall c size hg hpend
      unfold Dispatch.readBytes
      rw [hbound]
      by_cases hlen : pos + len > size
      · rw [if_pos hlen]
        constructor
        · rintro ⟨bs, hbs⟩
          cases hbs
        · intro hle
          omega
      · rw [if_neg hlen]
        exact ⟨fun _ => Nat.le_of_not_lt hlen, fun _ => ⟨_, rfl⟩⟩
    · rcases cpuRound_inl hend with ⟨hpend, hcall⟩ | ⟨-, hfin⟩
      · exact (hostCall_inl hcall).1.trans (hatCall c size hg hpend)
      · rw [hfin]
        show c.st.memSize = size
        cases hg with
        | start => rfl
        | round hb hr =>
          have hbase := hb.eq_memSize hsize hno (cpuRound_inr_status hr)
            ⟨c, .single hr, .inr ⟨r, hend⟩⟩
          obtain ⟨c1, -, -, rfl⟩ := cpuRound_inr hr
          have hgrows : m.memSize ≤ (runOnce m maxSteps c1).st.memSize := runOnce_grows hsize
          omega

open Wasm

/-- A module with a memory of one page that may grow to two, and a function that may ask for the
ledger sequence. -/
def askModule (body : Body) : Module where
  types := [[.func ([], [.i64])]]
  imports := [⟨"x", "3", .func 0⟩]
  funcs := [0]
  mems := [{ initial := 1, maximum := some 2 }]
  code := [{ locals := [], body := body }]

/-- Grow the memory by a page, then ask. -/
def growBody : Body :=
  .op (.const (.i32 1)) (.op (.memoryGrow 0) (.op .drop (.op (.call 0) .nil)))

/-- The function that grows the memory. -/
def growMeta : FuncMeta := ⟨0, 5, 0, 1, 0, 1⟩

/-- The function that only asks. -/
def askMeta : FuncMeta := ⟨0, 2, 0, 1, 0, 1⟩

/-- A host that answers every call with one result. -/
def oneHost : HostFn Unit := fun h _ _ mem => ⟨.ok (1, fun _ => 100), mem, h⟩

/-- What a run has returned: its status and its results. -/
def seen (r : RunResult × HostModule × Unit) : Status × List Nat :=
  (r.1.status, r.1.results.map (·.toNat))

/-- The loaded function `f`, and the first round of its run as the embedder and the guest see it. -/
def askRound (body : Body) (f : FuncMeta) : Option (Option FuncMeta × Bool × Status × Nat × Nat) :=
  (loadWasm (askModule body).payloads).toOption.bind fun m0 =>
    (verifyCuop m0).toOption.map fun m =>
      let c := runOnce m 10 (cpuEntry m f [] CPU_FUEL ())
      (m.funcs[1]?, m.code.all (fun i => i.op != .memoryGrow), c.st.status, m.memSize, c.st.memSize)

/-- After a `memory.grow` the host is asked with the size from before. -/
theorem grown_size_unseen : ∃ m0 m, loadWasm (askModule growBody).payloads = .ok m0 ∧
    verifyCuop m0 = .ok m ∧ m.funcs[1]? = some growMeta ∧
    ¬ SizeSeen m growMeta oneHost 10 (cpuEntry m growMeta [] CPU_FUEL ()) := by
  have hload : askRound growBody growMeta =
      some (some growMeta, false, .hostcallPending, 65536, 131072) := by
    decide +kernel
  obtain ⟨m0, m, hm, hv, heval⟩ := loaded_eval hload
  simp only [Prod.mk.injEq] at heval
  obtain ⟨hf, -, hpend, hsize, hguest⟩ := heval
  refine ⟨m0, m, hm, hv, hf, fun hseen => ?_⟩
  have hcall : m.memSize = m.memSize + _ := hseen.atCall _ _ (.round .start rfl) hpend
  rw [hguest] at hcall
  omega

/-- A function without `memory.grow`: the host is asked with the right size. -/
theorem ungrown_size_seen : ∃ m0 m, loadWasm (askModule (.op (.call 0) .nil)).payloads = .ok m0 ∧
    verifyCuop m0 = .ok m ∧ m.funcs[1]? = some askMeta ∧
    (runOnce m 10 (cpuEntry m askMeta [] CPU_FUEL ())).st.status = .hostcallPending ∧
    SizeSeen m askMeta oneHost 10 (cpuEntry m askMeta [] CPU_FUEL ()) := by
  have hload : askRound (.op (.call 0) .nil) askMeta =
      some (some askMeta, true, .hostcallPending, 65536, 65536) := by
    decide +kernel
  obtain ⟨m0, m, hm, hv, heval⟩ := loaded_eval hload
  simp only [Prod.mk.injEq] at heval
  obtain ⟨hf, hcode, hpend, -, -⟩ := heval
  refine ⟨m0, m, hm, hv, hf, hpend, (sizeSeen_iff hm hv .fresh askMeta [] oneHost () 10).mpr ?_⟩
  rintro c c' - - - - - k s - - ⟨i, hi, hop, -⟩
  have hne := List.all_eq_true.mp hcode i (List.mem_of_getElem? hi)
  rw [hop] at hne
  cases hne

end CuWasm
