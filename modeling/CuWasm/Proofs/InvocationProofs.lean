import CuWasm.Proofs.InstantiationProofs
import CuWasm.Proofs.OutcomeProofs

/-!
# Invocations do what Wasm says

A run of `run_cpu` on a module that has been loaded and run before returns what the semantics says of the
call, or it meets a limit of the machine; and it returns whenever the semantics has a result. So does
every run of a sequence of invocations.
-/

namespace CuWasm

open Wasm Structured Exit

variable {H : Type} {M : Module} {m0 m m' : HostModule} {ps : List (Parsed Payload)}
  {segs : List DataSegment} {S : Sections} {host : HostFn H} {h h' : H} {s s' : Wasm.Store H} {c : Request}
  {n maxSteps rounds : Nat} {r r' : Outgoing H} {res : Wasm.Result H}

theorem SameReturn.exhausted (hs : SameReturn r r') (hr : Exhausted r') : Exhausted r := by
  unfold Exhausted at hr ⊢
  rwa [← hs.status]

theorem SameReturn.means (hs : SameReturn r r') (hr : Means res r') : Means res r := by
  cases res with
  | values ys s =>
    obtain ⟨h1, h2, h3⟩ := hr
    rw [hs.module, hs.host] at h3
    exact ⟨hs.status.symm.trans h1, hs.results.symm.trans h2, h3⟩
  | trap t s =>
    obtain ⟨h1, h3⟩ := hr
    rw [hs.module, hs.host] at h3
    exact ⟨hs.status.symm.trans h1, h3⟩
  | refused s =>
    obtain ⟨h1, h3⟩ := hr
    rw [hs.module, hs.host] at h3
    exact ⟨hs.status.symm.trans h1, h3⟩
  | wrong => exact hr

theorem Translates.sizeOk (h : Translates M ps segs m) : SizeOk m.memMax m.memSize := by
  obtain ⟨m0, hm, hv⟩ := h.loads
  exact loaded_sizeOk hm hv

section Runs

variable (hH : Hosted M ps segs m0 m host)

include hH

theorem Hosted.kept : KeptModule m0 m := hH.runs.kept hH.translates.sizeOk

theorem Hosted.sizeOk : SizeOk m.memMax m.memSize := hH.runs.sizeOk hH.translates.sizeOk

theorem Hosted.compiled : Compiled M m (segs.map DataSegment.bytes) :=
  hH.kept.compiled hH.translates.compiled

theorem Hosted.tail {fi : Nat} {args : List Slot} {q : RunResult}
    (hr : runCpu m fi args maxSteps host h rounds = some (q, m', h')) : Hosted M ps segs m0 m' host :=
  ⟨hH.translates, hH.runs.run hr, hH.keepsOff, hH.answers⟩

/-- No call goes wrong. -/
theorem Hosted.ne_wrong (hR : Reflects m h s) (hc : ProperRequest M m host maxSteps h c) :
    ((M.toInstance m (segs.map DataSegment.bytes) host).eval n).call c.fi c.args s ≠ some .wrong := by
  obtain ⟨ft, hft, hargs⟩ := hc.typed
  have hI := hH.translates.instantiates hH.answers
  rw [← hH.kept.toInstance host] at hI
  refine hI.call_ne_wrong hft hargs ?_
  have := congrArg List.length hR.globals
  rw [List.length_map, hH.kept.globals, hH.translates.globals] at this
  exact this.symm

/-- The run of a proper invocation, as the computation without interruptions. -/
theorem Hosted.entry (hc : ProperRequest M m host maxSteps h c) :
    ∃ e ft, m.funcs[c.fi]? = some e ∧ M.funcType c.fi = some ft ∧ c.args.length = ft.1.length ∧
      Seamless m e host maxSteps (cpuEntry m e (slotsOf c.args) CPU_FUEL h) ∧
      ∀ rounds, runCpu m c.fi (slotsOf c.args) maxSteps host h rounds =
        cpuLoop m e host maxSteps rounds (cpuEntry m e (slotsOf c.args) CPU_FUEL h) := by
  obtain ⟨ft, hft, hargs⟩ := hc.typed
  obtain ⟨f, g, env, -, he, hF⟩ := hH.compiled.func c.fi ft hc.defined hft
  refine ⟨g, ft, he, hft, hargs, (seamless_iff hH.sizeOk _ _ _).mpr (hc.steady g he), fun rounds => ?_⟩
  have hlen : (slotsOf c.args).length = g.nParams := by
    rw [slotsOf, List.length_map, hargs, hF.params]
  unfold runCpu
  simp only [he]
  rw [if_neg (not_not.mpr hlen)]

/-- What `run_cpu` returns is what the semantics says, unless it has met a limit. -/
theorem runCpu_means (hR : Realizes m h s) (hc : ProperRequest M m host maxSteps h c)
    (hr : runCpu m c.fi (slotsOf c.args) maxSteps host h rounds = some r) :
    Exhausted r ∨ ∃ n res,
      ((M.toInstance m (segs.map DataSegment.bytes) host).eval n).call c.fi c.args s = some res ∧
        Means res r := by
  obtain ⟨e, ft, he, hft, hargs, hseam, hrun⟩ := hH.entry hc
  rw [hrun] at hr
  obtain ⟨k, r', hflat, hsame⟩ := flat_of_cpuLoop hseam hr
  obtain ⟨c', env, A, hstart⟩ := entry_starts hH.compiled hc.defined hft he hargs (hc.fits e he) hR
    CPU_FUEL
  obtain hlim | ⟨n, res, hres, hw | hm⟩ := hstart.means_of_flat hH.compiled
    (hH.kept.keepsOff hH.keepsOff) hflat
  · exact .inl (hsame.exhausted hlim)
  · subst hw
    exact absurd hres (hH.ne_wrong hR.toReflects hc)
  · exact .inr ⟨n, res, hres, hsame.means hm⟩

/-- Whenever the semantics has a result, `run_cpu` returns it, unless it meets a limit. -/
theorem runCpu_complete (hR : Realizes m h s) (hc : ProperRequest M m host maxSteps h c)
    (hsteps : 0 < maxSteps)
    (hres : ((M.toInstance m (segs.map DataSegment.bytes) host).eval n).call c.fi c.args s = some res) :
    ∃ rounds r, runCpu m c.fi (slotsOf c.args) maxSteps host h rounds = some r ∧
      (Exhausted r ∨ Means res r) := by
  obtain ⟨e, ft, he, hft, hargs, hseam, hrun⟩ := hH.entry hc
  have hw : res ≠ .wrong := by
    rintro rfl
    exact hH.ne_wrong hR.toReflects hc hres
  obtain ⟨c', env, A, hstart⟩ := entry_starts hH.compiled hc.defined hft he hargs (hc.fits e he) hR
    CPU_FUEL
  obtain ⟨k, r', hflat, hq⟩ := hstart.flat_means hH.compiled (hH.kept.keepsOff hH.keepsOff) hres hw
  obtain ⟨rounds, r, hloop⟩ := cpuLoop_of_flat hsteps hseam hflat
  obtain ⟨k', r'', hflat', hsame⟩ := flat_of_cpuLoop hseam hloop
  rw [flatLoop_unique hflat hflat'] at hsame
  exact ⟨rounds, r, (hrun rounds).trans hloop, hq.imp hsame.exhausted hsame.means⟩

/-- The answers to a sequence of invocations are those of the instance that the module shows. -/
theorem Hosted.serves {cs : List Request} {rs : List RunResult}
    (hruns : Requests M host maxSteps m h cs rs) (hR : Realizes m h s) :
    Serves (M.toInstance m0 (segs.map DataSegment.bytes) host) s cs rs := by
  induction hruns generalizing s with
  | nil => exact .nil
  | cons hc hr hrest ih =>
    obtain hlim | ⟨n, res, hres, hm⟩ := runCpu_means hH hR hc hr
    · exact .limit hlim
    · rw [hH.kept.toInstance] at hres
      cases res with
      | values ys s1 => exact .values hres hm.1 hm.2.1 (ih (hH.tail hr) hm.2.2)
      | trap t s1 => exact .trap hres hm.1 (ih (hH.tail hr) hm.2)
      | refused s1 => exact .refused hres hm.1
      | wrong => exact hm.elim

end Runs

/-- `run_cpu` is adequate. A loaded module realizes the store that the Wasm module starts with. In every
store that it realizes after any runs, what `run_cpu` returns is a result of the Wasm module, and the
result of the Wasm module is returned, unless the run meets a limit of the machine. -/
theorem runCpu_adequate (hH : Hosted M ps S.datas m0 m host) (hS : M.Has S) (hR : Realizes m h s)
    (hc : ProperRequest M m host maxSteps h c) (hsteps : 0 < maxSteps) :
    (∀ x : H, Realizes m0 x (M.initialStore S x)) ∧
    (∀ rounds r, runCpu m c.fi (slotsOf c.args) maxSteps host h rounds = some r →
      Exhausted r ∨ ∃ n res,
        ((M.instantiate S host).eval n).call c.fi c.args s = some res ∧ Means res r) ∧
    ∀ n res, ((M.instantiate S host).eval n).call c.fi c.args s = some res →
      ∃ rounds r, runCpu m c.fi (slotsOf c.args) maxSteps host h rounds = some r ∧
        (Exhausted r ∨ Means res r) := by
  have hI : M.toInstance m (S.datas.map DataSegment.bytes) host = M.instantiate S host :=
    (hH.kept.toInstance host).trans (hH.translates.toInstance_eq hS)
  rw [← hI]
  exact ⟨fun x => hH.translates.realizes_initial hS x, fun _ _ hr => runCpu_means hH hR hc hr,
    fun _ _ hres => runCpu_complete hH hR hc hsteps hres⟩

/-- The module with a function that asks the host once. -/
abbrev asker : Module := askModule (.op (.call 0) .nil)

theorem ask_frames : asker.FramesFit 1 := by
  intro k ft c hty hc
  cases k with
  | zero =>
    cases hc
    cases hty
    decide
  | succ k => cases hc

/-- The call of the function. -/
def askRequest : Request := ⟨1, []⟩

theorem ask_proper {m : HostModule} (hf : m.funcs[1]? = some askMeta)
    (hcode : ∀ i ∈ m.code, i.op ≠ .memoryGrow) : ProperRequest asker m oneHost 10 () askRequest where
  defined := le_rfl
  typed := ⟨([], [.i64]), rfl, rfl⟩
  fits e he := by
    rw [show m.funcs[askRequest.fi]? = some askMeta from hf] at he
    cases he
    decide
  steady e _ := by
    rintro c c' - - - - k s - - ⟨i, hi, hop, -⟩
    exact absurd hop (hcode i (List.mem_of_getElem? hi))

theorem asker_has : asker.Has {} where
  tables := rfl
  elems := rfl
  datas := rfl
  globals := rfl
  regular := .inr ⟨Nat.zero_le _, fun _ hd => absurd hd List.not_mem_nil,
    fun _ ht => absurd ht List.not_mem_nil⟩

/-- The loaded function as the embedder sees it: two runs of it, one after the other, and whether the
semantics has a result. -/
def askTwice : Option (Bool × Option (Status × List Nat) × Option (Status × List Nat)) :=
  (loadWasm asker.payloads).toOption.bind fun m0 =>
    (verifyCuop m0).toOption.map fun m =>
      (m.code.all (fun i => i.op != .memoryGrow && i.op != .unreachable) && m.table == [] &&
          m.dataBlob == [] && m.funcs[1]? == some askMeta &&
          (((asker.instantiate {} oneHost).eval 2).call 1 [] (asker.initialStore {} ())).isSome,
        (runCpu m 1 [] 10 oneHost () 9).map seen,
        (runCpu m 1 [] 10 oneHost () 9).bind fun r =>
          (runCpu r.2.1 1 [] 10 oneHost r.2.2 9).map seen)

theorem askTwice_eq :
    askTwice = some (true, some (.ok, [100]), some (.ok, [100])) := by
  decide +kernel

/-- The function has been loaded and runs twice. -/
theorem ask_hosted : ∃ m r r', Hosted asker asker.payloads [] m m oneHost ∧
    ProperRequest asker m oneHost 10 () askRequest ∧
    ProperRequest asker r.2.1 oneHost 10 r.2.2 askRequest ∧
    runCpu m 1 [] 10 oneHost () 9 = some r ∧ runCpu r.2.1 1 [] 10 oneHost r.2.2 9 = some r' ∧
    seen r = (.ok, [100]) ∧ seen r' = (.ok, [100]) ∧
    (((asker.instantiate {} oneHost).eval 2).call 1 [] (asker.initialStore {} ())).isSome := by
  obtain ⟨m0, m, hm, hv, heval⟩ := loaded_eval askTwice_eq
  simp only [Prod.mk.injEq, Bool.and_eq_true, beq_iff_eq] at heval
  obtain ⟨⟨⟨⟨⟨hcode, htable⟩, hblob⟩, hf⟩, hsem⟩, hfirst, hsecond⟩ := heval
  have hall : ∀ i ∈ m.code, i.op ≠ .memoryGrow ∧ i.op ≠ .unreachable := by
    intro i hi
    simpa using List.all_eq_true.mp hcode i hi
  have ht := translates_plain askModule_valid ask_frames hm hv rfl hblob htable
    fun i hi => (hall i hi).2
  have hanswers : AnswersTyped asker m oneHost := by
    rintro fi ft h args mem n results hft hfi hr
    cases hr
    obtain rfl : fi = 0 := Nat.lt_one_iff.mp hfi
    cases hft
    rfl
  have hH : Hosted asker asker.payloads [] m m oneHost := ⟨ht, .fresh, keepsOff_one m, hanswers⟩
  obtain ⟨r, hr, hseen⟩ := Option.map_eq_some_iff.mp hfirst
  rw [hr] at hsecond
  obtain ⟨r', hr', hseen'⟩ := Option.map_eq_some_iff.mp hsecond
  have hdev : r.2.1.dev = m.dev := (hH.tail hr).kept.dev
  have hc : ProperRequest asker m oneHost 10 () askRequest := ask_proper hf fun i hi => (hall i hi).1
  have hc' : ProperRequest asker r.2.1 oneHost 10 r.2.2 askRequest := by
    refine ask_proper ?_ ?_
    · rw [show r.2.1.funcs = m.funcs from congrArg DevModule.funcs hdev]
      exact hf
    · rw [show r.2.1.code = m.code from congrArg DevModule.code hdev]
      exact fun i hi => (hall i hi).1
  exact ⟨m, r, r', hH, hc, hc', hr, hr', hseen, hseen', hsem⟩

/-- The function that asks: its run returns the result of the semantics, and the semantics has one. -/
theorem ask_adequate : ∃ m r, runCpu m 1 [] 10 oneHost () 9 = some r ∧ seen r = (.ok, [100]) ∧
    (Exhausted r ∨ ∃ n res, ((asker.instantiate {} oneHost).eval n).call 1 []
      (asker.initialStore {} ()) = some res ∧ Means res r) ∧
    ∃ res rounds r', ((asker.instantiate {} oneHost).eval 2).call 1 [] (asker.initialStore {} ()) =
        some res ∧ runCpu m 1 [] 10 oneHost () rounds = some r' ∧ (Exhausted r' ∨ Means res r') := by
  obtain ⟨m, r, -, hH, hc, -, hr, -, hseen, -, hsem⟩ := ask_hosted
  obtain ⟨-, hmeans, hcomplete⟩ := runCpu_adequate hH asker_has
    (hH.translates.realizes_initial asker_has ()) hc (by decide)
  obtain ⟨res, hres⟩ := Option.isSome_iff_exists.mp hsem
  obtain ⟨rounds, r', hr', hq⟩ := hcomplete 2 res hres
  exact ⟨m, r, hr, hseen, hmeans 9 r hr, res, rounds, r', hres, hr', hq⟩

/-- The answers to a sequence of invocations of a loaded module are those of the Wasm module, from the
store that it starts with. -/
theorem requests_serve {cs : List Request} {rs : List RunResult} (hH : Hosted M ps S.datas m0 m0 host)
    (hS : M.Has S) (hruns : Requests M host maxSteps m0 h cs rs) :
    Serves (M.instantiate S host) (M.initialStore S h) cs rs := by
  rw [← hH.translates.toInstance_eq hS]
  exact hH.serves hruns (hH.translates.realizes_initial hS h)

/-- Two calls of the function that asks. -/
theorem ask_serves : ∃ m r r', seen r = (.ok, [100]) ∧ seen r' = (.ok, [100]) ∧
    runCpu m 1 [] 10 oneHost () 9 = some r ∧ runCpu r.2.1 1 [] 10 oneHost r.2.2 9 = some r' ∧
    Serves (asker.instantiate {} oneHost) (asker.initialStore {} ()) [askRequest, askRequest]
      [r.1, r'.1] := by
  obtain ⟨m, r, r', hH, hc, hc', hr, hr', hseen, hseen', -⟩ := ask_hosted
  have hruns : Requests asker oneHost 10 m () [askRequest, askRequest] [r.1, r'.1] :=
    .cons hc hr (.cons hc' hr' .nil)
  exact ⟨m, r, r', hseen, hseen', hr, hr', requests_serve hH asker_has hruns⟩

end CuWasm
