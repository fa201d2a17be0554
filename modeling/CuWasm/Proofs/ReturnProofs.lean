import CuWasm.GpuHost
import CuWasm.Proofs.MemSizeProofs
import CuWasm.Proofs.LoadedProofs
import CuWasm.Proofs.RegionProofs
import CuWasm.Proofs.TrapProofs

/-!
# Drivers return

A driver comes back to `run_instance` where the last call has been left, with the fuel that was left.
Every call with a quota uses some of the budget up, whatever the host answers, so that a module without
tail calls is not run forever.
-/

namespace CuWasm

open Wasm Exit Translate

/-! ## A call of `run_instance` -/

section Budget

variable {v : Views} {m : DevModule} {S : Nat → Prop} {s t : Mach} {i : CuOp}

/-- The machines stand at the same place with the same fuel. -/
structure SamePlace (s t : Mach) : Prop where
  control : Run.control t = Run.control s
  fuel : t.fuel = s.fuel

theorem SamePlace.regs (h : SamePlace s t) : t.pc = s.pc ∧ t.csp = s.csp ∧ t.frames = s.frames := by
  have hc := h.control
  simp only [Run.control, Prod.mk.injEq] at hc
  exact ⟨hc.1, hc.2.2.1, hc.2.2.2⟩

theorem SamePlace.inside (h : SamePlace s t) (hs : s.Inside v S) : t.Inside v S := by
  obtain ⟨hpc, hcsp, hfr⟩ := h.regs
  exact ⟨hpc ▸ hs.pc, fun k h0 hk => hfr ▸ hs.callers k h0 (hcsp ▸ hk), hcsp ▸ hs.depth⟩

theorem SamePlace.budget (h : SamePlace s t) : t.budget v m = s.budget v m := by
  obtain ⟨hpc, hcsp, hfr⟩ := h.regs
  unfold Mach.budget Mach.rank Mach.counters
  rw [hpc, hcsp, hfr, h.fuel]

/-- No tail call stands in the part `S` of the code. -/
def TailFree (m : DevModule) (S : Nat → Prop) : Prop :=
  ∀ p i, S p → m.code[p]? = some i → i.op ≠ .returnCall

/-- A branch that is charged goes on only with fuel left. -/
theorem charged_fuel (hi : m.code[s.pc]? = some i) (hpaid : BackEdge (s.pc, i) ∨ Hop (s.pc, i))
    (h : Run.step v m s = .ok () t) : 0 < t.fuel := by
  obtain ⟨i', hi', hx⟩ := Run.step_ok v m h
  rw [hi] at hi'
  cases hi'
  have hop : i.op = .br := hpaid.elim (·.1) (·.1)
  have hle : i.b ≤ (Run.fetched s).pc :=
    hpaid.elim (fun h => Nat.le_succ_of_le h.2) fun h => Nat.le_of_eq h.2
  simp only [Run.exec, hop] at hx
  rw [Run.br_apply, if_pos hle] at hx
  split_ifs at hx with hout
  cases hx
  exact Int.not_le.mp hout

/-- Where no instruction is free, one uses some of the budget up: where the rank goes up, fuel has gone
down. -/
theorem step_charged (hfree : ¬ FreeJump v m s) (hi : m.code[s.pc]? = some i)
    (hop : i.op ≠ .returnCall) (hs : s.csp ≤ FRAME_CAP) (h : Run.step v m s = .ok () t) :
    t.csp ≤ FRAME_CAP ∧ t.budget v m < s.budget v m := by
  have hshift := Run.step_shift hfree hi h
  have hrank := hshift.rank hi hs
  have hdepth := hshift.depth hs
  have hfuel : t.fuel = s.fuel - Run.cost (s.pc, i) := by
    have := Run.step_fuel v m hi
    rwa [h] at this
  refine ⟨hdepth, ?_⟩
  unfold Mach.budget
  by_cases hpaid : BackEdge (s.pc, i) ∨ Hop (s.pc, i)
  · have hleft := charged_fuel hi hpaid h
    have hspan := rank_lt (v := v) (m := m) hdepth
    rw [Run.cost, if_pos hpaid] at hfuel
    rw [show s.fuel.toNat = t.fuel.toNat + 1 by omega, Nat.add_mul, Nat.one_mul]
    omega
  · have hrenew : ¬ Renews (s.pc, i) := by
      rintro (hr | hr | hr)
      · exact hpaid (.inl hr)
      · exact hpaid (.inr hr)
      · exact hop hr
    rw [Run.cost, if_neg hpaid] at hfuel
    rw [if_neg hrenew] at hrank
    rw [show t.fuel = s.fuel by omega]
    omega

/-- So does the instruction that suspends the machine. -/
theorem pending_charged (hs : s.csp ≤ FRAME_CAP) (h : Run.step v m s = .error .hostcallPending t) :
    t.csp ≤ FRAME_CAP ∧ t.budget v m < s.budget v m := by
  obtain ⟨i, hi, hop, hshift⟩ := Run.pending_shift h
  have hpaid : ¬ (BackEdge (s.pc, i) ∨ Hop (s.pc, i)) := by
    rintro (hr | hr) <;> exact absurd (hop.symm.trans hr.1) nofun
  have hrenew : ¬ Renews (s.pc, i) := by
    rintro (hr | hr | hr)
    · exact hpaid (.inl hr)
    · exact hpaid (.inr hr)
    · exact absurd (hop.symm.trans hr) nofun
  have hrank := hshift.rank hi hs
  have hfuel : t.fuel = s.fuel - Run.cost (s.pc, i) := by
    have := Run.step_fuel v m hi
    rwa [h] at this
  rw [Run.cost, if_neg hpaid] at hfuel
  rw [if_neg hrenew] at hrank
  refine ⟨hshift.depth hs, ?_⟩
  unfold Mach.budget
  rw [show t.fuel = s.fuel by omega]
  omega

/-- The machine is not about to execute an instruction that could be repeated without a charge. -/
def Charged (v : Views) (m : DevModule) (s : Mach) : Prop :=
  ¬ FreeJump v m s ∧ ∀ i, m.code[s.pc]? = some i → i.op ≠ .returnCall

/-- A call with a quota that does not end the run uses some of the budget up. -/
theorem loop_charged {e : Status} (he : e = .running ∨ e = .hostcallPending) (n : Nat) :
    ∀ {s}, (∀ k u, k < n → Steps (Run.step v m) k s u → Charged v m u) → s.csp ≤ FRAME_CAP →
      Run.loop v m n s = (e, t) →
        t.csp ≤ FRAME_CAP ∧ t.budget v m ≤ s.budget v m ∧ (0 < n → t.budget v m < s.budget v m) := by
  induction n with
  | zero =>
    intro s _ hs h
    cases h
    exact ⟨hs, le_rfl, fun h => absurd h (Nat.lt_irrefl 0)⟩
  | succ n ih =>
    intro s hc hs h
    unfold Run.loop at h
    cases hx : Run.step v m s with
    | ok a u =>
      rw [hx] at h
      obtain ⟨i, hi, -⟩ := Run.step_ok v m hx
      obtain ⟨hfree, hop⟩ := hc 0 s (Nat.succ_pos n) (.zero s)
      obtain ⟨hu, hlt⟩ := step_charged hfree hi (hop i hi) hs hx
      obtain ⟨ht, hle, -⟩ := ih (fun k w hk hw => hc (k + 1) w (Nat.succ_lt_succ hk) (.succ hx hw)) hu h
      exact ⟨ht, by omega, fun _ => by omega⟩
    | error e' u =>
      rw [hx] at h
      cases h
      rcases he with rfl | rfl
      · exact absurd hx (Run.step_not_running _ _ _ _)
      · obtain ⟨ht, hlt⟩ := pending_charged hs hx
        exact ⟨ht, hlt.le, fun _ => hlt⟩

variable (hm : Confines m S)

include hm

/-- A machine that is confined stays so. -/
theorem Mach.Inside.steps {k : Nat} (hs : s.Inside v S) (h : Steps (Run.step v m) k s t) :
    t.Inside v S := by
  refine h.invariant (P := fun u => u.Inside v S) (fun u w hu hw => ?_) hs
  obtain ⟨i, hi, -⟩ := Run.step_ok v m hw
  exact (Run.step_shift (hu.no_freeJump hm) hi hw).inside hm hi hu

variable (hno : TailFree m S)

include hno

theorem Mach.Inside.charged (hs : s.Inside v S) : Charged v m s :=
  ⟨hs.no_freeJump hm, fun i hi => hno _ i hs.pc hi⟩

/-- It stays confined over a call, and uses some of the budget up. -/
theorem loop_budget {e : Status} (he : e = .running ∨ e = .hostcallPending) (n : Nat)
    (hs : s.Inside v S) (h : Run.loop v m n s = (e, t)) :
    t.Inside v S ∧ (0 < n → t.budget v m < s.budget v m) := by
  have hcharged : ∀ k u, k < n → Steps (Run.step v m) k s u → Charged v m u := fun k u _ hu =>
    (hs.steps hm hu).charged hm hno
  obtain ⟨-, -, hbudget⟩ := loop_charged he n hcharged hs.depth h
  refine ⟨?_, hbudget⟩
  rcases loop_ends h with ⟨-, hsteps⟩ | ⟨k, u, -, hsteps, hstop⟩
  · exact hs.steps hm hsteps
  · have hu := hs.steps hm hsteps
    rcases he with rfl | rfl
    · exact absurd hstop (Run.step_not_running _ _ _ _)
    · obtain ⟨i, hi, -, hshift⟩ := Run.pending_shift hstop
      exact hshift.inside hm hi hu

end Budget

/-! ## The drivers -/

/-- The machine that the next call starts from the saved registers stands where the last one stopped. -/
theorem samePlace_saved (u : Mach) (e : Status) (memSize : Nat) (mb : HostMailbox) :
    SamePlace u (Mach.load (u.save e) memSize mb u.arrays) := ⟨rfl, rfl⟩

section Drivers

variable {H : Type} {m : HostModule} {f : FuncMeta} {S : Nat → Prop} {n : Nat}

theorem cpuResume_place {host : HostFn H} {c c1 : CpuState H} (h : cpuResume m host n c = .inr c1) :
    SamePlace (c.mach m) (c1.mach m) := by
  refine ⟨cpuResume_control h, ?_⟩
  show c1.st.fuel = c.st.fuel
  unfold cpuResume hostCall at h
  split_ifs at h
  · cases hr : (c.ask host).reply with
    | error e =>
      simp only [hr] at h
      cases h
    | ok p =>
      simp only [hr] at h
      split at h
      · cases h
      · cases h
        rfl
  · cases h
    rfl

theorem gpuHostCall_place {st st' : VmState} {mb mb' : HostMailbox} {ar ar' : Arrays}
    {hs hs' : GpuHostState} (h : gpuHostCall st mb ar hs = .inr (st', mb', ar', hs')) (memSize : Nat) :
    SamePlace (Mach.load st memSize mb ar) (Mach.load st' memSize mb' ar') := by
  unfold gpuHostCall at h
  split at h
  · cases h
  · split at h
    · cases h
    · cases h
      exact ⟨rfl, rfl⟩

theorem Visits.head {host : HostFn H} {c c' : CpuState H} {s : Mach}
    (hr : cpuRound m f host n c = .inr c') (h : Visits m f host n c' s) : Visits m f host n c s := by
  obtain ⟨d, d', k, hd, hrest⟩ := h
  exact ⟨d, d', k, .head hr hd, hrest⟩

/-- While everything that could be repeated is charged, `run_cpu` goes through fewer rounds than its
budget, whatever the host answers. -/
theorem cpuLoop_charged (hn : 0 < n) (host : HostFn H) (k : Nat) : ∀ {c : CpuState H},
    (∀ s, Visits m f host n c s → Charged m.cpuViews m.dev s) → (c.mach m).csp ≤ FRAME_CAP →
      (c.mach m).budget m.cpuViews m.dev < k → ∃ r, cpuLoop m f host n (k + 1) c = some r := by
  induction k with
  | zero => exact fun _ _ h => absurd h (Nat.not_lt_zero _)
  | succ k ih =>
    intro c hc hdepth hlt
    unfold cpuLoop
    cases hround : cpuRound m f host n c with
    | inl r => exact ⟨r, rfl⟩
    | inr c' =>
      obtain ⟨c1, hres, hrun, rfl⟩ := cpuRound_inr hround
      have hplace := cpuResume_place hres
      generalize hp : Run.loop m.cpuViews m.dev n (c1.mach m) = p
      obtain ⟨e, u⟩ := p
      rw [runOnce_of_loop hp] at hround ⊢
      by_cases he : e = .running ∨ e = .hostcallPending
      · have hdepth1 : (c1.mach m).csp ≤ FRAME_CAP := hplace.regs.2.1 ▸ hdepth
        obtain ⟨hu, -, hless⟩ := loop_charged he n
          (fun j s hj hs => hc s ⟨c, c1, j, .refl, hres, hrun, hj, hs⟩) hdepth1 hp
        have hsaved : SamePlace u
            (CpuState.mach m { c1 with st := u.save e, mb := u.mb, ar := u.arrays }) :=
          samePlace_saved u e m.memSize u.mb
        refine ih (fun s hs => hc s (hs.head hround)) (hsaved.regs.2.1 ▸ hu) ?_
        have hbudget := hless hn
        rw [hplace.budget] at hbudget
        rw [hsaved.budget]
        omega
      · have hfinal : cpuRound m f host n { c1 with st := u.save e, mb := u.mb, ar := u.arrays } =
            .inl _ := final_round (fun h => he (.inl h)) fun h => he (.inr h)
        dsimp only
        unfold cpuLoop
        rw [hfinal]
        exact ⟨_, rfl⟩

variable (hm : Confines m.dev S) (hno : TailFree m.dev S)

include hm hno

/-- The rounds of `run_cpu` stay in a part of the code that confines the machine. -/
theorem CpuRuns.inside {host : HostFn H} {c0 c : CpuState H} (h : CpuRuns m f host n c0 c)
    (h0 : (c0.mach m).Inside m.cpuViews S) (hst : c.st.status ∈ [Status.running, .hostcallPending]) :
    (c.mach m).Inside m.cpuViews S := by
  induction h with
  | refl => exact h0
  | tail _ hround ih =>
    have hb := ih (cpuRound_inr_status hround)
    obtain ⟨c1, hres, -, rfl⟩ := cpuRound_inr hround
    generalize hp : Run.loop m.cpuViews m.dev n (c1.mach m) = p
    obtain ⟨e, u⟩ := p
    rw [runOnce_of_loop hp] at hst ⊢
    have he : e = .running ∨ e = .hostcallPending := by simpa [Mach.save] using hst
    obtain ⟨hu, -⟩ := loop_budget hm hno he n ((cpuResume_place hres).inside hb) hp
    exact (samePlace_saved u e m.memSize u.mb).inside hu

theorem Visits.charged {host : HostFn H} {c0 : CpuState H} {s : Mach} (h : Visits m f host n c0 s)
    (h0 : (c0.mach m).Inside m.cpuViews S) : Charged m.cpuViews m.dev s := by
  obtain ⟨c, c1, k, hc, hres, hrun, -, hsteps⟩ := h
  have hin := (cpuResume_place hres).inside (hc.inside hm hno h0 (cpuResume_inr_status hres hrun))
  exact (hin.steps hm hsteps).charged hm hno

variable (hn : 0 < n)

include hn

/-- `run_gpu_host` goes through fewer rounds than its budget, too. -/
theorem gpuHostLoop_returns (k : Nat) : ∀ {st : VmState} {mb : HostMailbox} {ar : Arrays}
    {hs : GpuHostState}, (Mach.load st m.memSize mb ar).Inside m.cpuViews S →
      (Mach.load st m.memSize mb ar).budget m.cpuViews m.dev < k →
      ∃ r, gpuHostLoop m f n k st mb ar hs = some r := by
  induction k with
  | zero => exact fun _ h => absurd h (Nat.not_lt_zero _)
  | succ k ih =>
    intro st mb ar hs hin hlt
    unfold gpuHostLoop runInstance
    generalize hp : Run.loop m.cpuViews m.dev n (Mach.load st m.memSize mb ar) = p
    obtain ⟨e, u⟩ := p
    dsimp only
    by_cases he : (u.save e).status = .hostcallPending
    · rw [if_neg (not_not.mpr he)]
      obtain ⟨hu, hless⟩ := loop_budget hm hno (.inr he) n hin hp
      cases hcall : gpuHostCall (u.save e) u.mb u.arrays hs with
      | inl r => exact ⟨r, rfl⟩
      | inr q =>
        obtain ⟨st', mb', ar', hs'⟩ := q
        have hsaved := samePlace_saved u e m.memSize u.mb
        have hplace := gpuHostCall_place hcall m.memSize
        refine ih (hplace.inside (hsaved.inside hu)) ?_
        rw [hplace.budget, hsaved.budget]
        have := hless hn
        omega
    · exact ⟨_, if_pos he⟩

end Drivers

/-! ## Loaded modules -/

section Loaded

variable {M : Module} {ps : List (Parsed Payload)} {m0 m : HostModule}

/-- A part of the code that confines the runs from `pc`. -/
theorem Verified.confined (h : Verified M m0 m) (hm : loadWasm ps = .ok m0) {k : Nat} {f : FuncMeta}
    (hk : M.imports.length ≤ k) (hf : m.funcs[k]? = some f)
    (hcode : EveryBodyLowers ps ∨
      ∀ i fi : Nat, m.table[i]? = some fi → fi ≠ TABLE_NULL → M.imports.length ≤ fi) :
    ∃ S, Confines m.dev S ∧ S f.codeOff := by
  rcases hcode with hlow | htab
  · refine ⟨fun _ => True, ⟨fun _ _ _ _ _ _ => trivial, ?_, fun _ _ _ _ _ _ _ => trivial,
      fun _ _ _ _ _ _ _ _ => trivial⟩, trivial⟩
    obtain ⟨m', hm', hload⟩ := Verify.bind_eq_ok hm
    cases hload
    intro p i _ hi hop
    refine (translated_confines hm' hlow).forward p i trivial ?_ hop
    have hsame : m.dev.code = m'.dev.code := h.typeFp.2.2.2.1
    rwa [hsame] at hi
  · refine ⟨m.Reached, h.confines ?_, f, List.mem_of_getElem? hf, h.code_pos_of hf ?_, .entry⟩
    · rw [h.nHostImports]
      exact htab
    · rw [h.nHostImports]
      exact hk

end Loaded

/-- The budget of a driver's first call. -/
theorem entry_budget (m : HostModule) (f : FuncMeta) (args : List Slot) (fuel : Int)
    (mb : HostMailbox) {S : Nat → Prop} (hS : S f.codeOff) :
    (Mach.load (entryState m f fuel) m.memSize mb (m.entryArrays f args)).Inside m.cpuViews S ∧
      (Mach.load (entryState m f fuel) m.memSize mb (m.entryArrays f args)).budget m.cpuViews m.dev <
        (fuel.toNat + 1) * m.dev.span := by
  have hdepth : (entryState m f fuel).csp ≤ FRAME_CAP := show 1 ≤ 256 by omega
  refine ⟨⟨hS, fun k h0 hk => absurd (show k < 1 from hk) (by omega), hdepth⟩, ?_⟩
  have hrank := rank_lt (v := m.cpuViews) (m := m.dev)
    (s := Mach.load (entryState m f fuel) m.memSize mb (m.entryArrays f args)) hdepth
  unfold Mach.budget
  rw [Nat.add_mul, Nat.one_mul]
  exact Nat.add_lt_add_left hrank _

/-- A valid module without tail calls, of which no body has become a stub or whose table holds no import:
`run_cpu` and `run_gpu_host` return from every call of a defined function, whatever the host answers and
however small the quota is. -/
theorem tail_free_runs_return {M : Module} {ps : List (Parsed Payload)} {m0 m1 m : HostModule}
    (hv : M.Valid) (he : Encodes M ps) (hm : loadWasm ps = .ok m0) (hver : verifyCuop m0 = .ok m1)
    (hruns : RunsLeave m1 m)
    (hcode : EveryBodyLowers ps ∨
      ∀ i fi : Nat, m1.table[i]? = some fi → fi ≠ TABLE_NULL → M.imports.length ≤ fi)
    (hno : ∀ i ∈ m1.code, i.op ≠ .returnCall) {k : Nat} {f : FuncMeta} (hk : M.imports.length ≤ k)
    (hf : m.funcs[k]? = some f) (args : List Slot) {n rounds : Nat} (hn : 0 < n) :
    (∀ {H : Type} (host : HostFn H) (h : H) (fuel : Int),
      (fuel.toNat + 1) * m1.dev.span < rounds →
      ∃ r, cpuLoop m f host n rounds (cpuEntry m f args fuel h) = some r) ∧
    ∀ hs, (n + 1) * m1.dev.span < rounds →
      ∃ r, gpuHostLoop m f n rounds (entryState m f n) {} (m.entryArrays f args) hs = some r := by
  have hverified : Verified M m0 m1 := ⟨loadWasm_translated he hm, hv, hver⟩
  have hkept := hruns.kept (loaded_sizeOk hm hver)
  have hfuncs : m.dev.funcs = m1.dev.funcs := by rw [hkept.dev]
  have hf1 : m1.funcs[k]? = some f := by
    rw [← hf]
    exact congrArg (·[k]?) hfuncs.symm
  obtain ⟨S, hconf, hS⟩ := hverified.confined hm hk hf1 hcode
  have hfree : TailFree m.dev S := by
    intro p i _ hi
    rw [hkept.dev] at hi
    exact hno i (List.mem_of_getElem? hi)
  rw [← hkept.dev] at hconf ⊢
  constructor
  · intro H host h fuel hr
    obtain ⟨hin, hlt⟩ := entry_budget m f args fuel {} hS
    obtain ⟨rounds, rfl⟩ : ∃ r, rounds = r + 1 := ⟨rounds - 1, by omega⟩
    exact cpuLoop_charged hn host rounds (fun s hs => hs.charged hconf hfree hin) hin.depth
      (Nat.lt_of_lt_of_le hlt (by omega))
  · intro hs hr
    obtain ⟨hin, hlt⟩ := entry_budget m f args n {} hS
    exact gpuHostLoop_returns hconf hfree hn rounds hin (by rw [Int.toNat_natCast] at hlt; omega)

/-- The loaded function has no tail call, and the table is empty. -/
def askTailFree : Option (Bool × Option FuncMeta) :=
  (loadWasm (askModule (.op (.call 0) .nil)).payloads).toOption.bind fun m0 =>
    (verifyCuop m0).toOption.map fun m =>
      (m.code.all (fun i => i.op != .returnCall) && m.table == [], m.funcs[1]?)

/-- The function that asks the host, interrupted after every instruction. -/
theorem ask_returns : ∃ m, (∃ r, cpuLoop m askMeta oneHost 1 ((10 + 1) * m.dev.span + 1)
      (cpuEntry m askMeta [] 10 ()) = some r) ∧
    ∃ r, gpuHostLoop m askMeta 1 ((1 + 1) * m.dev.span + 1) (entryState m askMeta 1) {}
      (m.entryArrays askMeta []) {} = some r := by
  have hload : askTailFree = some (true, some askMeta) := by decide +kernel
  obtain ⟨m0, m, hm, hv, heval⟩ := loaded_eval hload
  simp only [Prod.mk.injEq, Bool.and_eq_true, beq_iff_eq] at heval
  obtain ⟨⟨hcode, htable⟩, hf⟩ := heval
  have htab : ∀ i fi : Nat, m.table[i]? = some fi → fi ≠ TABLE_NULL →
      (askModule (.op (.call 0) .nil)).imports.length ≤ fi := by
    intro i fi h
    rw [htable] at h
    cases h
  have hno : ∀ i ∈ m.code, i.op ≠ .returnCall := fun i hi => by
    simpa using List.all_eq_true.mp hcode i hi
  refine ⟨m, ?_, ?_⟩
  · exact (tail_free_runs_return askModule_valid rfl hm hv .fresh (.inr htab) hno le_rfl hf []
      Nat.one_pos).1 oneHost () 10 (Nat.lt_succ_self _)
  · exact (tail_free_runs_return askModule_valid rfl hm hv .fresh (.inr htab) hno le_rfl hf []
      Nat.one_pos).2 {} (Nat.lt_succ_self _)

end CuWasm
