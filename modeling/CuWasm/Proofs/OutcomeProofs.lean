import CuWasm.Proofs.MeaningProofs
import CuWasm.Proofs.SuspendProofs

/-!
# Runs and their meaning

A run of `run_cpu` whose interruptions nobody can see does what the semantics says of the call, or it
meets a limit of the machine; and whatever such a run returns otherwise is what the semantics says.
-/

namespace CuWasm

open Exit Run Wasm Structured BlockMove

section Flat

variable {H : Type} {m : HostModule} {e : FuncMeta} {host : HostFn H} {n k : Nat} {x y : Flat H}
  {r : Outgoing H}

theorem hosted_error (h : hosted m e host x = .error r y) : flatStep m e host x = .inl r := by
  unfold hosted at h
  split at h
  · cases h
    assumption
  · cases h

theorem hosted_next (h : hosted m e host x = .ok () y) : flatStep m e host x = .inr y := by
  unfold hosted at h
  split at h
  · cases h
  · cases h
    assumption

theorem flatLoop_of_steps {t : Flat H} (hs : Steps (hosted m e host) n x y)
    (hr : hosted m e host y = .error r t) : flatLoop m e host (n + 1) x = some r := by
  induction hs with
  | zero x => exact flatLoop_returns (hosted_error hr)
  | succ h _ ih => exact (flatLoop_goesOn (hosted_next h)).trans (ih hr)

/-- A run that returns exits behind fewer steps than it was allowed. -/
theorem steps_of_flatLoop (h : flatLoop m e host k x = some r) :
    ∃ n < k, ∃ y, Steps (hosted m e host) n x y ∧ flatStep m e host y = .inl r := by
  induction k generalizing x with
  | zero => cases h
  | succ k ih =>
    cases hst : flatStep m e host x with
    | inl r' =>
      rw [flatLoop_returns hst] at h
      cases h
      exact ⟨0, Nat.succ_pos k, x, .zero x, hst⟩
    | inr y =>
      rw [flatLoop_goesOn hst] at h
      obtain ⟨n, hn, z, hz, hr⟩ := ih h
      have hy : hosted m e host x = .ok () y := by
        unfold hosted
        rw [hst]
      exact ⟨n + 1, Nat.succ_lt_succ hn, z, .succ hy hz, hr⟩

theorem flatLoop_of_eventually {Q : Outgoing H → Flat H → Prop}
    (h : Eventually (hosted m e host) (fun _ => False) Q x) :
    ∃ k r, flatLoop m e host k x = some r ∧ ∃ y, Q r y := by
  obtain ⟨n, t, r, u, hs, hr, hq⟩ := h.exits
  exact ⟨n + 1, r, flatLoop_of_steps hs hr, u, hq⟩

/-- A run that returns without a limit does not last. -/
theorem Lasts.exhausted (h : Lasts m e host n x) (hr : flatLoop m e host k x = some r) (hk : k ≤ n) :
    Exhausted r := by
  obtain ⟨y, hy⟩ | hlim := h
  · obtain ⟨j, hj, z, hz, hret⟩ := steps_of_flatLoop hr
    obtain ⟨w, hw⟩ := hy.take (show j + 1 ≤ n by omega)
    obtain ⟨z', hz', hstep⟩ := hw.last
    rw [hz.det hz', hosted_next hstep] at hret
    cases hret
  · obtain ⟨k', r', hr', -, hq⟩ := flatLoop_of_eventually hlim
    rwa [flatLoop_unique hr' hr]

end Flat

/-! ## Calls from outside -/

section Calls

variable {H : Type} {M : Module} {segs : List (List Byte)} {m : HostModule} {e : FuncMeta}
  {host : HostFn H} {env : LowerEnv} {A : Activation} {n fi k : Nat} {ft : FuncType} {c : Func}
  {ys args : List Nat} {s : Wasm.Store H} {h : H} {x : Flat H} {r : Outgoing H} {P : Flat H → Prop}
  {res : Wasm.Result H}

/-- The return from the first activation ends the run. -/
theorem AtReturn.finishes (hcsp : A.csp = 1) (hbase : (A.frames 0).spBase = 0)
    (hlen : ys.length = e.nResults) (h : AtReturn m A ys s x) :
    Eventually (hosted m e host) P (fun r _ => Means (.values ys s) r) x := by
  obtain ⟨i, hi, hop⟩ := h.instr
  have henough := h.enough
  have hdepth : (fetched x.mach).csp = 1 := h.csp.trans hcsp
  have htop : (fetched x.mach).frames 0 = { A.frames 0 with nResults := ys.length } := by
    have := h.top
    rwa [hcsp] at this
  have hsp : (fetched x.mach).sp = x.mach.sp := rfl
  have hexec : Run.exec m.cpuViews m.dev i (fetched x.mach) = Run.leave m.cpuViews (fetched x.mach) := by
    obtain hop | hop := hop <;> simp only [Run.exec, hop]
  have he := leave_apply m.cpuViews (fetched x.mach)
  simp only [hdepth, Nat.sub_self, cpuViews_frames_idx, cpuViews_stack_idx, htop, hbase, hsp] at he
  rw [if_neg (by omega), if_neg (by omega), if_pos trivial] at he
  refine .exit (hosted_exit (step_of_exec_error hi (hexec.trans he)) (by decide)) ⟨rfl, ?_, ?_⟩
  · show (List.range e.nResults).map (blockMove x.mach.stack 0 (x.mach.sp - ys.length) ys.length) = _
    refine List.ext_getElem (by simp [hlen]) fun j h1 h2 => ?_
    rw [List.length_map] at h2
    simp only [List.getElem_map, List.getElem_range]
    have hmove : blockMove x.mach.stack 0 (x.mach.sp - ys.length) ys.length (0 + j) = _ :=
      blockMove_of_mem _ h2
    rw [Nat.zero_add] at hmove
    exact hmove.trans (h.results j _ (List.getElem?_eq_getElem h2))
  · exact (h.store.congr (y := ⟨_, x.host⟩) rfl rfl rfl rfl rfl).leaves

/-- The activation that a run starts with. -/
def Activation.first (g : FuncMeta) (k : Nat) (x : Mach) : Activation where
  fp := 0
  csp := 1
  slots := g.nParams + g.nLocals
  nLocals := g.nParams + k
  frames := x.frames
  stack := x.stack

theorem entry_store (hR : Realizes m h s) (args : List Slot) (fuel : Int) :
    HoldsStore m s ⟨(cpuEntry m e args fuel h).mach m, h⟩ where
  count := by
    have := congrArg List.length hR.globals
    rwa [List.length_map, eq_comm] at this
  globals := fun j a hj => by
    show m.globals.getD j 0 = _
    rw [hR.globals, List.getD_eq_getElem?_getD, List.getElem?_map, hj]
    rfl
  mem := hR.memory
  size := hR.size
  grown := hR.size.le
  live := hR.live
  beyond := fun d hd => (hR.live d).mp (by rw [List.getD_eq_getElem?_getD, List.getElem?_eq_none hd]; rfl)
  host := hR.host
  zero := ⟨hR.pages, hR.le, fun c h1 h2 => by
    rw [cpuViews_memory, Nat.zero_add]
    exact hR.zero c h1 h2⟩

theorem entry_atEntry (hF : FuncAt M m ft c e env) (hargs : args.length = e.nParams)
    (hfit : e.nParams + e.nLocals ≤ STACK_CAP) (hR : Realizes m h s) (fuel : Int) :
    AtEntry m (Activation.first e (c.locals.map (·.1)).sum
      ((cpuEntry m e (args.map (BitVec.ofNat 64)) fuel h).mach m)) c e args s
      ⟨(cpuEntry m e (args.map (BitVec.ofNat 64)) fuel h).mach m, h⟩ := by
  refine ⟨rfl, rfl, Nat.one_pos, rfl, rfl, rfl, rfl, ?_, hfit, ?_, ?_, fun j a hj => ?_, nofun, nofun,
    fun _ _ => rfl, entry_store hR _ fuel⟩
  · show e.nParams + e.nLocals = 0 + (e.nParams + e.nLocals) + 0
    omega
  · show (Instance.locals c args).length = e.nParams + (c.locals.map (·.1)).sum
    rw [Instance.locals, List.length_append, List.length_replicate, hargs]
  · exact Nat.add_le_add_left hF.locals _
  · show (args.map (BitVec.ofNat 64)).getD (0 + j) 0 = BitVec.ofNat 64 a
    rw [Nat.zero_add, List.getD_eq_getElem?_getD, List.getElem?_map]
    by_cases hlt : j < args.length
    · rw [Instance.locals, List.getElem?_append_left hlt] at hj
      rw [hj]
      rfl
    · rw [Instance.locals, List.getElem?_append_right (Nat.le_of_not_lt hlt), List.getElem?_replicate] at hj
      split_ifs at hj
      cases hj
      rw [List.getElem?_eq_none (Nat.le_of_not_lt hlt)]
      rfl

/-- The machine is about to run the function `fi` of the type `ft`, called with `args`, in the first
activation. -/
structure Starts (M : Module) (m : HostModule) (fi : Nat) (ft : FuncType) (c : Func) (e : FuncMeta)
    (env : LowerEnv) (A : Activation) (args : List Nat) (s : Wasm.Store H) (x : Flat H) : Prop where
  defined : M.imports.length ≤ fi
  type : M.funcType fi = some ft
  code : M.code[fi - M.imports.length]? = some c
  lowered : FuncAt M m ft c e env
  entry : AtEntry m A c e args s x
  first : A.csp = 1
  base : (A.frames 0).spBase = 0

/-- What the machine does when it is started with a call. -/
theorem Starts.follows (hM : Compiled M m segs) (hoff : KeepsOff m host)
    (h : Starts M m fi ft c e env A args s x) (n : Nat) :
    match ((M.toInstance m segs host).eval (n + 1)).call fi args s with
    | none => Lasts m e host n x
    | some .wrong => True
    | some res => Eventually (hosted m e host) (fun _ => False) (fun r _ => Exhausted r ∨ Means res r) x := by
  have hfollow := (CuWasm.follows (e := e) hM hoff (n + 1)).2 h.defined h.type h.code h.lowered h.entry
  cases hres : ((M.toInstance m segs host).eval (n + 1)).call fi args s with
  | none =>
    rw [hres] at hfollow
    exact hfollow
  | some res =>
    rw [hres] at hfollow
    cases res with
    | wrong => trivial
    | trap t s' | refused s' => exact hfollow
    | values ys s' =>
      have hlen := call_length (I := M.toInstance m segs host) h.type hres
      have hgo : Eventually (hosted m e host) _ (fun r _ => Exhausted r) _ := hfollow
      refine (hgo.mono (fun _ hy => hy) fun _ _ hr => .inl hr).bind fun y hy => ?_
      exact (hy.finishes h.first h.base (hlen.trans h.lowered.results.symm)).mono (fun _ hf => hf)
        fun _ _ hr => .inr hr

/-- A run does what the semantics says, or it meets a limit. -/
theorem Starts.flat_means (hM : Compiled M m segs) (hoff : KeepsOff m host)
    (h : Starts M m fi ft c e env A args s x)
    (hres : ((M.toInstance m segs host).eval n).call fi args s = some res) (hw : res ≠ .wrong) :
    ∃ k r, flatLoop m e host k x = some r ∧ (Exhausted r ∨ Means res r) := by
  cases n with
  | zero => cases hres
  | succ n =>
    have hgo := h.follows hM hoff n
    rw [hres] at hgo
    cases res with
    | wrong => exact absurd rfl hw
    | values | trap | refused =>
      obtain ⟨k, r, hr, -, hq⟩ := flatLoop_of_eventually hgo
      exact ⟨k, r, hr, hq⟩

/-- What a run returns is what the semantics says, unless it has met a limit. -/
theorem Starts.means_of_flat (hM : Compiled M m segs) (hoff : KeepsOff m host)
    (h : Starts M m fi ft c e env A args s x) (hr : flatLoop m e host k x = some r) :
    Exhausted r ∨ ∃ n res, ((M.toInstance m segs host).eval n).call fi args s = some res ∧
      (res = .wrong ∨ Means res r) := by
  have hgo := h.follows hM hoff k
  cases hres : ((M.toInstance m segs host).eval (k + 1)).call fi args s with
  | none =>
    rw [hres] at hgo
    exact .inl (hgo.exhausted hr le_rfl)
  | some res =>
    by_cases hw : res = .wrong
    · exact .inr ⟨k + 1, res, hres, .inl hw⟩
    · obtain ⟨k', r', hr', hq⟩ := h.flat_means hM hoff hres hw
      rw [flatLoop_unique hr' hr]
      exact hq.imp_right fun hm => ⟨k + 1, res, hres, .inr hm⟩

/-- The driver starts with the function that it is asked for. -/
theorem entry_starts (hM : Compiled M m segs) (hfi : M.imports.length ≤ fi) (hft : M.funcType fi = some ft)
    (he : m.funcs[fi]? = some e) (hargs : args.length = ft.1.length)
    (hfit : e.nParams + e.nLocals ≤ STACK_CAP) (hR : Realizes m h s) (fuel : Int) :
    ∃ c env A, Starts M m fi ft c e env A args s
      ⟨(cpuEntry m e (args.map (BitVec.ofNat 64)) fuel h).mach m, h⟩ := by
  obtain ⟨c, g, env, hc, hg, hF⟩ := hM.func fi ft hfi hft
  cases he.symm.trans hg
  exact ⟨c, env, _, hfi, hft, hc, hF, entry_atEntry hF (hargs.trans hF.params.symm) hfit hR fuel, rfl, rfl⟩

end Calls

end CuWasm
