import CuWasm.Proofs.InvocationProofs
import CuWasm.Proofs.TailCallProofs

/-!
# Runs with calls for tail calls

Two modules that differ only in how they call translate to the same tables, memories and globals. What
`run_cpu` returns for the module with calls is what it returns for the one with tail calls, where no run
meets a limit.
-/

namespace CuWasm

open Wasm Structured Translate Exit

section Untailed

variable {H : Type} {M M' : Module} {m0 m0' m m' : HostModule} {ps ps' : List (Parsed Payload)}
  {segs : List DataSegment} {host : HostFn H} {h : H} {s : Wasm.Store H} {c : Request} {n k fi : Nat}
  {q q' rounds : Nat} {args : List Nat} {r r' : Outgoing H} {res : Wasm.Result H}

/-- What two modules that differ only in code share, as far as their instances show it. -/
structure SameData (m m' : HostModule) : Prop where
  table : m'.table = m.table
  memMax : m'.memMax = m.memMax
  hostFnId : m'.hostFnId = m.hostFnId

theorem loaded_sameData (hU : M.Untailed M') (he : Encodes M ps) (he' : Encodes M' ps')
    (hm : loadWasm ps = .ok m) (hm' : loadWasm ps' = .ok m') : SameData m m' := by
  obtain ⟨s, u, m1, hs, hrest, hfin, rfl⟩ := loaded_rest he hm
  obtain ⟨s', u', m1', hs', hrest', hfin', rfl⟩ := loaded_rest he' hm'
  have hbefore : M'.before 0 = M.before 0 := by
    rw [hU.same]
    rfl
  rw [hbefore, hs] at hs'
  cases hs'
  have hsame := hrest'.trans hrest.symm
  simp only [TState.rest, TState.mk.injEq] at hsame
  obtain ⟨-, -, -, -, -, -, -, hmin, hmax, hmem, htab, -, hel, hids, -⟩ := hsame
  obtain ⟨fp, l, table, -, -, -, htable, -, rfl⟩ := finish_eq_ok.mp hfin
  obtain ⟨fp', l', table', -, -, -, htable', -, rfl⟩ := finish_eq_ok.mp hfin'
  rw [htab, hel, htable] at htable'
  refine ⟨(Except.ok.inj htable').symm, ?_, hids⟩
  simp only [TState.assemble, hmax, hmem]

theorem Translates.sameData (hU : M.Untailed M') (ht : Translates M ps segs m)
    (ht' : Translates M' ps' segs m') : SameData m m' := by
  obtain ⟨m0, hm, hv⟩ := ht.loads
  obtain ⟨m0', hm', hv'⟩ := ht'.loads
  obtain ⟨-, fs, rfl, -, -⟩ := verifyCuop_accepted hv
  obtain ⟨-, fs', rfl, -, -⟩ := verifyCuop_accepted hv'
  have := loaded_sameData hU ht.encodes ht'.encodes hm hm'
  exact ⟨this.table, this.memMax, this.hostFnId⟩

theorem untailed_toInstance (hU : M.Untailed M') (hd : SameData m m') (bs : List (List Byte))
    (host : HostFn H) :
    M'.toInstance m' bs host = (M.toInstance m bs host).withCode M'.code := by
  have htypes : M'.funcTypes = M.funcTypes := by
    rw [hU.same]
    rfl
  have htypeidx : M'.funcTypeidx = M.funcTypeidx := by
    rw [hU.same]
    rfl
  have himports : M'.imports = M.imports := by rw [hU.same]
  unfold Module.toInstance Wasm.Instance.withCode
  rw [htypes, htypeidx, himports, hd.table, hd.memMax, hd.hostFnId]

/-- Where the module with calls for tail calls has a result, so has the module with tail calls. -/
theorem untailed_result (hU : M.Untailed M') (hH : Hosted M ps segs m0 m host)
    (hH' : Hosted M' ps' segs m0' m' host) (hR : Realizes m h s) (hc : ProperRequest M m host q h c)
    (hres : ((M'.toInstance m' (segs.map DataSegment.bytes) host).eval n).call c.fi c.args s = some res) :
    ((M.toInstance m (segs.map DataSegment.bytes) host).eval n).call c.fi c.args s = some res := by
  rw [hH'.kept.toInstance, untailed_toInstance hU (hH.translates.sameData hU hH'.translates),
    ← hH.kept.toInstance] at hres
  obtain hw | hres :=
    (eval_matches (I := M.toInstance m (segs.map DataSegment.bytes) host) hU.code n).2 hres
  · exact absurd hw (hH.ne_wrong hR.toReflects hc)
  · exact hres

/-- Tail calls are calls with a return: where the run of the module with calls meets no limit, the module
with tail calls has a run, and all its runs do the same unless they meet a limit. -/
theorem tail_calls_are_calls (hU : M.Untailed M') (hH : Hosted M ps segs m0 m host)
    (hH' : Hosted M' ps' segs m0' m' host) (hR : Realizes m h s) (hR' : Realizes m' h s)
    (hc : ProperRequest M m host q h c) (hc' : ProperRequest M' m' host q' h c) (hq : 0 < q)
    (hr' : runCpu m' c.fi (slotsOf c.args) q' host h rounds = some r') (hlim : ¬ Exhausted r') :
    (∃ rounds r, runCpu m c.fi (slotsOf c.args) q host h rounds = some r) ∧
      ∀ rounds r, runCpu m c.fi (slotsOf c.args) q host h rounds = some r →
        Exhausted r ∨ ∃ res, Means res r ∧ Means res r' := by
  obtain hlim' | ⟨n, res, hres', hmeans'⟩ := runCpu_means hH' hR' hc' hr'
  · exact absurd hlim' hlim
  have hres := untailed_result hU hH hH' hR hc hres'
  constructor
  · obtain ⟨rounds, r, hr, -⟩ := runCpu_complete hH hR hc hq hres
    exact ⟨rounds, r, hr⟩
  · intro rounds r hr
    refine (runCpu_means hH hR hc hr).imp_right ?_
    rintro ⟨k, res1, hres1, hmeans⟩
    obtain rfl := eval_unique hres hres1
    exact ⟨_, hmeans, hmeans'⟩

end Untailed

/-- A function that answers, and one with the body `b`. -/
def relayModule (b : Body) : Module where
  types := [[.func ([], [.i32])]]
  funcs := [0, 0]
  code := [{ locals := [], body := .op (.const (.i32 7)) .nil }, { locals := [], body := b }]

/-- The answer by a tail call. -/
def relayTail : Body := .op (.returnCall 0) .nil

/-- The answer by a call with a return. -/
def relayCall : Body := .op (.call 0) (.op .return_ .nil)

theorem relay_untailed : (relayModule relayTail).Untailed (relayModule relayCall) where
  same := rfl
  code := .cons ⟨rfl, .op .nil⟩ (.cons ⟨rfl, .tail .nil⟩ .nil)

theorem relay_valid {b : Body}
    (hb : b.Valid ((relayModule b).ctx ([], [.i32]) { locals := [], body := b })) :
    (relayModule b).Valid := by
  have htypes : ∀ ti ∈ ([0, 0] : List Nat), ti < 1 := by decide
  refine ⟨htypes, rfl, fun k ft c hty hc => ?_⟩
  match k with
  | 0 =>
    cases hc
    cases hty
    exact .op (.const (.i32 7)) .nil
  | 1 =>
    cases hc
    cases hty
    exact hb
  | k + 2 => cases hc

theorem relayTail_valid : (relayModule relayTail).Valid := by
  refine relay_valid ?_
  have htype : ((relayModule relayTail).ctx ([], [.i32])
      { locals := [], body := relayTail }).types[0]? = some ([], [.i32]) := rfl
  exact .returnCall rfl htype rfl .nil

theorem relayCall_valid : (relayModule relayCall).Valid := by
  refine relay_valid ?_
  set C := (relayModule relayCall).ctx ([], [.i32]) { locals := [], body := relayCall } with hC
  have htype : C.types[0]? = some ([], [.i32]) := rfl
  have hnil : Typed C [[.i32]] false [.i32] .nil [.i32] := .nil
  have hret : Typed C [[.i32]] true ([.i32] ++ []) (.op .return_ .nil) [.i32] := .return_ hnil
  exact .op (.call rfl htype) hret

theorem relay_frames {b : Body} (hb : (relayModule b).frameSize 1 ([], [.i32])
    { locals := [], body := b } ≤ 65535) : (relayModule b).FramesFit 1 := by
  intro k ft c hty hc
  match k with
  | 0 =>
    cases hc
    cases hty
    exact Nat.le_of_ble_eq_true rfl
  | 1 =>
    cases hc
    cases hty
    exact hb
  | k + 2 => cases hc

/-- The call of the second function. -/
def relayRequest : Request := ⟨1, []⟩

/-- The loaded module, its globals, memory size and limit, and what its second function returns. -/
def relayRuns (b : Body) : Option (Bool × Option (Status × List Nat)) :=
  (loadWasm (relayModule b).payloads).toOption.bind fun m0 =>
    (verifyCuop m0).toOption.map fun m =>
      (m.code.all (fun i => i.op != .memoryGrow && i.op != .unreachable) && m.table == [] &&
          m.dataBlob == [] && m.globals == [] && m.memSize == 0 && m.dataLive == [] &&
          (m.funcs[1]?.map fun f => (f.nParams, f.nLocals)) == some (0, 0),
        (runCpu m 1 [] 10 oneHost () 9).map seen)

/-- The store of a module without globals, memory and data. -/
def emptyStore : Wasm.Store Unit where
  globals := []
  mem := fun _ => 0
  size := 0
  dropped := fun _ => true
  host := ()

theorem relay_hosted {b : Body} (hv : (relayModule b).Valid) (hfit : (relayModule b).FramesFit 1)
    (hruns : relayRuns b = some (true, some (.ok, [7]))) :
    ∃ m r, Hosted (relayModule b) (relayModule b).payloads [] m m oneHost ∧
      ProperRequest (relayModule b) m oneHost 10 () relayRequest ∧
      Realizes m () emptyStore ∧ runCpu m 1 [] 10 oneHost () 9 = some r ∧ seen r = (.ok, [7]) := by
  obtain ⟨m0, m, hm, hver, heval⟩ := loaded_eval hruns
  simp only [Prod.mk.injEq, Bool.and_eq_true, beq_iff_eq] at heval
  obtain ⟨⟨⟨⟨⟨⟨⟨hcode, htable⟩, hblob⟩, hglobals⟩, hsize⟩, hlive⟩, hf⟩, hrun⟩ := heval
  have hall : ∀ i ∈ m.code, i.op ≠ .memoryGrow ∧ i.op ≠ .unreachable := by
    intro i hi
    simpa using List.all_eq_true.mp hcode i hi
  have ht := translates_plain hv hfit hm hver rfl hblob htable fun i hi => (hall i hi).2
  obtain ⟨r, hr, hseen⟩ := Option.map_eq_some_iff.mp hrun
  have hstore : m.toStore () = emptyStore := by
    have hmem : bytes m.memory = fun _ => 0 := by
      funext c
      unfold bytes
      rw [loaded_zero hm hver ht.data (hsize ▸ Nat.zero_le c)]
      rfl
    unfold HostModule.toStore emptyStore
    rw [hglobals, hmem, hsize, hlive]
    rfl
  refine ⟨m, r, ⟨ht, .fresh, keepsOff_one m, fun fi ft h args mem n results hft hfi => ?_⟩,
    ⟨Nat.zero_le _, ⟨([], [.i32]), rfl, rfl⟩, fun e he => ?_, fun e _ => ?_⟩,
    hstore ▸ ht.realizes (), hr, hseen⟩
  · exact absurd hfi (Nat.not_lt_zero _)
  · rw [show m.funcs[1]? = some e from he] at hf
    simp only [Option.map_some, Option.some.injEq, Prod.mk.injEq] at hf
    rw [hf.1, hf.2]
    decide
  · rintro c c' - - - - k s - - ⟨i, hi, hop, -⟩
    exact absurd hop (hall i (List.mem_of_getElem? hi)).1

/-- The answer by a tail call and the answer by a call. -/
theorem relay_agrees : ∃ m m' r', runCpu m' 1 [] 10 oneHost () 9 = some r' ∧ seen r' = (.ok, [7]) ∧
    (∃ rounds r, runCpu m 1 [] 10 oneHost () rounds = some r) ∧
    ∀ rounds r, runCpu m 1 [] 10 oneHost () rounds = some r →
      Exhausted r ∨ ∃ res, Means res r ∧ Means res r' := by
  obtain ⟨m, r, hH, hc, hR, -, -⟩ := relay_hosted relayTail_valid
    (relay_frames (by decide)) (by decide +kernel)
  obtain ⟨m', r', hH', hc', hR', hr', hseen⟩ := relay_hosted relayCall_valid
    (relay_frames (by decide)) (by decide +kernel)
  have hlim : ¬ Exhausted r' := by
    unfold Exhausted
    rw [show r'.1.status = .ok from congrArg Prod.fst hseen]
    decide
  exact ⟨m, m', r', hr', hseen,
    tail_calls_are_calls relay_untailed hH hH' hR hR' hc hc' (by decide) hr' hlim⟩

end CuWasm
