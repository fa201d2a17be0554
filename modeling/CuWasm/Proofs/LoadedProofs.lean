import CuWasm.Invocations
import CuWasm.Proofs.CompiledProofs
import CuWasm.Proofs.GlobalProofs
import CuWasm.Proofs.SoundnessProofs
import CuWasm.Proofs.TrapProofs

/-!
# What a loaded module starts with, and what runs keep of it

The instance of a loaded module is sound and its store is realized. Runs change the globals, the memory
and the live flags of a module only, so that it stays compiled.
-/

namespace CuWasm

open Wasm Structured Translate Exit

/-! ## Lowered code has rules -/

namespace Structured

variable {env : LowerEnv} {L : List Label} {ghost : Bool} {st st' : State} {is : Items}

theorem operator_hasRule {o : Operator} (h : operator env L ghost o st = some (is, st')) :
    o.hasRule = true := by
  cases o with
  | refFunc | refNull | other => cases h
  | _ => rfl

/-- An operator without a rule is not lowered, not even in dead code. -/
theorem body_hasRules (b : Body) : ∀ {L ghost st is st'}, body env L ghost st b = some (is, st') →
    b.hasRules = true := by
  induction b with
  | nil => exact fun _ => rfl
  | op o rest ih =>
    intro L ghost st is st' h
    obtain ⟨is1, st1, is2, h1, h2, -⟩ := body_op_some.mp h
    rw [Body.hasRules, operator_hasRule h1, ih h2]
    rfl
  | block bt b rest ihb ih =>
    intro L ghost st is st' h
    obtain ⟨a, -, base, -, isb, stb, isr, h1, h2, -⟩ := body_block_some.mp h
    rw [Body.hasRules, ihb h1, ih h2]
    rfl
  | loop bt b rest ihb ih =>
    intro L ghost st is st' h
    obtain ⟨a, -, base, -, isb, stb, isr, h1, h2, -⟩ := body_loop_some.mp h
    rw [Body.hasRules, ihb h1, ih h2]
    rfl
  | ifThen bt b rest ihb ih =>
    intro L ghost st is st' h
    obtain ⟨a, -, st0, -, base, -, isb, stb, isr, h1, h2, -⟩ := body_ifThen_some.mp h
    rw [Body.hasRules, ihb h1, ih h2]
    rfl
  | ifElse bt b els rest ihb ihe ih =>
    intro L ghost st is st' h
    obtain ⟨a, -, st0, -, base, -, isb, stb, ise, ste, isr, h1, h2, h3, -⟩ := body_ifElse_some.mp h
    rw [Body.hasRules, ihb h1, ihe h2, ih h3]
    rfl

end Structured

/-! ## The instance of a loaded module -/

section Loaded

variable {H : Type} {M : Module} {m0 m : HostModule} {ps : List (Parsed Payload)}
  {segs : List DataSegment} {host : HostFn H}

/-- Payloads without content add nothing to what is gathered from the others. -/
theorem flatMap_trivial {α : Type} {g : Parsed Payload → List α}
    (hg : ∀ p, trivialPayload p = true → g p = []) (ps : List (Parsed Payload)) :
    (ps.filter fun p => !trivialPayload p).flatMap g = ps.flatMap g := by
  induction ps with
  | nil => rfl
  | cons p ps ih =>
    by_cases hp : trivialPayload p = true
    · rw [List.filter_cons_of_neg (by simp [hp]), ih, List.flatMap_cons, hg p hp, List.nil_append]
    · rw [List.filter_cons_of_pos (by simpa using hp), List.flatMap_cons, List.flatMap_cons, ih]

/-- What is gathered from the payloads is what the sections of the module hold. -/
theorem Wasm.Encodes.flatMap {α : Type} {g : Parsed Payload → List α} (h : Encodes M ps)
    (hg : ∀ p, trivialPayload p = true → g p = []) (hcode : ∀ c, g (Module.codeEntry c) = []) :
    ps.flatMap g = M.header.flatMap g ++ g (.ok (.dataSection (M.datas.map .ok))) := by
  rw [← flatMap_trivial hg ps, h, flatMap_trivial hg, Module.payloads, List.flatMap_append,
    List.flatMap_append, List.flatMap_map]
  have hnone : M.code.flatMap (fun c => g (Module.codeEntry c)) = [] :=
    List.flatMap_eq_nil_iff.mpr fun c _ => hcode c
  rw [hnone, List.append_nil, List.flatMap_singleton]

theorem Wasm.Encodes.datas (h : Encodes M ps) : dataItems ps = M.datas.map .ok := by
  refine (h.flatMap (fun p hp => ?_) fun _ => rfl).trans ?_
  · unfold trivialPayload at hp
    split at hp <;> first | rfl | cases hp
  · unfold Module.header
    split_ifs <;> rfl

theorem Translates.datas (h : Translates M ps segs m) : segs.length = M.datas.length := by
  have := congrArg List.length (h.data.symm.trans h.encodes.datas)
  rwa [List.length_map, List.length_map] at this

/-- The instance of a loaded module is one of a valid module with rules for its code. -/
theorem Translates.instantiates (h : Translates M ps segs m) (hans : AnswersTyped M m host) :
    (M.toInstance m (segs.map DataSegment.bytes) host).Instantiates M where
  types := rfl
  funcs := rfl
  datas := by
    show ((segs.map DataSegment.bytes).map _).length = _
    rw [List.length_map, List.length_map, h.datas]
  host := fun fi ft h args mem ys hft hfi hres => by
    simp only [Module.toInstance, hostAnswer] at hres
    split at hres
    · rename_i n results hrep
      cases hres
      rw [List.length_map, List.length_range]
      exact hans fi ft _ _ _ n results hft hfi hrep
    · cases hres
  func := fun fi ft hfi hft => by
    obtain ⟨c, g, env, hc, -, hF⟩ := h.compiled.func fi ft hfi hft
    obtain ⟨consts, is, st, hbody, -⟩ := hF.body
    refine ⟨c, hc, h.valid.body _ ft c ?_ hc, body_hasRules c.body hbody⟩
    obtain ⟨m0, hm, -⟩ := h.loads
    exact (Module.codeType_eq (loadWasm_translated h.encodes hm).imports hfi).trans hft

/-! ## The store of a loaded module -/

/-- Behind a memory that no segment exceeds there is nothing. -/
theorem initialByte_beyond {size c : Nat} (h : ∀ d ∈ segs, ¬ d.Exceeds size) (hc : size ≤ c) :
    initialByte segs c = 0 := by
  have hnone : segs.reverse.findSome? (·.byteAt c) = none := by
    refine List.findSome?_eq_none_iff.mpr fun d hd => ?_
    have hfits := h d (List.mem_reverse.mp hd)
    cases d with
    | passive bs => rfl
    | active offset bs =>
      have hend : offset.address + bs.length ≤ size := Nat.le_of_not_lt hfits
      simp only [DataSegment.byteAt]
      split_ifs
      · exact List.getElem?_eq_none (by omega)
      · rfl
  rw [initialByte, hnone]
  rfl

theorem translated_within (hdata : dataItems ps = segs.map fun d => .ok d.data)
    (h : translateWasm ps = .ok m) : ∀ d ∈ segs, ¬ d.Exceeds m.memSize := by
  obtain ⟨s, hs, hfin⟩ := Verify.bind_eq_ok h
  rw [translateWasm_data hdata] at hs
  cases hbase : each "parse" payload (withoutData ps) ({} : TState) with
  | error e =>
    rw [hbase] at hs
    cases hs
  | ok u =>
    rw [hbase] at hs
    cases hs
    obtain ⟨m0, l, table, -, hl, -, rfl⟩ := finish_parts.mp hfin
    rcases layoutData_segments m0.memSize segs laidOut_nil with ⟨d, -, -, e, he⟩ | ⟨hin, -⟩
    · rw [he] at hl
      cases hl
    · exact hin

theorem loaded_zero (hm : loadWasm ps = .ok m0) (hv : verifyCuop m0 = .ok m)
    (hdata : dataItems ps = segs.map fun d => .ok d.data) {c : Nat} (hc : m.memSize ≤ c) :
    m.memory c = 0 := by
  obtain ⟨-, fs, rfl, -, -⟩ := verifyCuop_accepted hv
  unfold loadWasm at hm
  obtain ⟨m1, hm1, hm⟩ := Verify.bind_eq_ok hm
  cases hm
  exact ((translated_layout hdata hm1).memory c).trans
    (initialByte_beyond (translated_within hdata hm1) hc)

theorem Translates.globals (h : Translates M ps segs m) : m.globals.length = M.globals.length := by
  obtain ⟨m0, hm, hv⟩ := h.loads
  obtain ⟨-, fs, rfl, -, -⟩ := verifyCuop_accepted hv
  exact (loaded_globals h.encodes hm).length_eq.symm

/-- A loaded module realizes the store that it says. -/
theorem Translates.realizes (h : Translates M ps segs m) (x : H) : Realizes m x (m.toStore x) := by
  obtain ⟨m0, hm, hv⟩ := h.loads
  have hsize := loaded_sizeOk hm hv
  refine ⟨⟨?_, rfl, fun d => ?_, rfl⟩, rfl, hsize.pages, hsize.le, fun c hc _ => ?_⟩
  · show m.globals = (m.globals.map BitVec.toNat).map (BitVec.ofNat 64)
    rw [List.map_map]
    exact (List.map_id'' (fun x => (BitVec.ofNat_toNat 64 x).trans x.setWidth_eq) m.globals).symm
  · show _ ↔ decide (m.dataLive.getD d 0 = 0) = true
    rw [decide_eq_true_iff]
  · exact loaded_zero hm hv h.data hc

end Loaded

/-! ## Modules across runs -/

section Kept

variable {H : Type} {M : Module} {segs : List (List Byte)} {m m1 m' : HostModule} {host : HostFn H}

theorem KeptModule.refl (m : HostModule) : KeptModule m m := ⟨rfl, rfl, rfl, le_rfl⟩

theorem KeptModule.trans (h : KeptModule m m1) (h' : KeptModule m1 m') : KeptModule m m' where
  same := by
    have := h'.same
    rw [h.same] at this
    exact this
  globals := h'.globals.trans h.globals
  dataLive := h'.dataLive.trans h.dataLive
  memSize := h.memSize.trans h'.memSize

theorem keptModule_withArrays (ar : Arrays) {size : Nat} (hsize : m.memSize ≤ size) :
    KeptModule m (m.withArrays ar size) :=
  ⟨rfl, by simp [HostModule.withArrays], by simp [HostModule.withArrays], hsize⟩

theorem cpuRuns_memSize {f : FuncMeta} {maxSteps : Nat} {c0 c : CpuState H}
    (hsize : SizeOk m.memMax m.memSize) (h0 : m.memSize ≤ c0.st.memSize)
    (h : CpuRuns m f host maxSteps c0 c) : m.memSize ≤ c.st.memSize := by
  induction h with
  | refl => exact h0
  | tail _ hround _ =>
    obtain ⟨c1, -, -, rfl⟩ := cpuRound_inr hround
    exact runOnce_grows hsize

/-- A run keeps all of the module that is not data. -/
theorem runCpu_kept {fi maxSteps rounds : Nat} {args : List Slot} {h h' : H} {res : RunResult}
    (hsize : SizeOk m.memMax m.memSize)
    (hr : runCpu m fi args maxSteps host h rounds = some (res, m', h')) : KeptModule m m' := by
  unfold runCpu at hr
  cases hf : m.funcs[fi]? with
  | none =>
    rw [hf] at hr
    cases hr
    exact .refl m
  | some f =>
    rw [hf] at hr
    simp only at hr
    split_ifs at hr
    · cases hr
      exact .refl m
    · obtain ⟨c, hc, hend⟩ := cpuLoop_runs .refl hr
      rcases cpuRound_inl hend with ⟨-, hcall⟩ | ⟨-, hfin⟩
      · unfold hostCall at hcall
        cases hrep : (c.ask host).reply with
        | error e =>
          simp only [hrep] at hcall
          cases hcall
          exact keptModule_withArrays _ le_rfl
        | ok p =>
          simp only [hrep] at hcall
          split at hcall
          · cases hcall
            exact keptModule_withArrays _ le_rfl
          · cases hcall
      · cases hfin
        exact keptModule_withArrays _ (cpuRuns_memSize hsize le_rfl hc)

theorem KeptModule.funcAt (h : KeptModule m m') {ft : FuncType} {c : Func} {g : FuncMeta} {env : LowerEnv}
    (hF : FuncAt M m ft c g env) : FuncAt M m' ft c g env := by
  rw [h.same]
  exact ⟨hF.types, hF.typeidx, hF.imports, hF.hostIds, hF.params, hF.results, hF.slots, hF.fewSlots,
    hF.locals, hF.scratch, hF.body⟩

theorem KeptModule.compiled (h : KeptModule m m') (hM : Compiled M m segs) : Compiled M m' segs := by
  have hs := hM.segments
  have hseg : DataSegments m'.cpuViews segs := by
    refine ⟨h.dataLive.trans hs.count, ?_, ?_, ?_⟩ <;> rw [h.same]
    · exact hs.lens
    · exact hs.fits
    · exact hs.bytes
  have hfunc : ∀ fi ft, M.imports.length ≤ fi → M.funcType fi = some ft →
      ∃ c g env, M.code[fi - M.imports.length]? = some c ∧ m'.funcs[fi]? = some g ∧
        FuncAt M m' ft c g env := by
    intro fi ft hfi hft
    obtain ⟨c, g, env, hc, hg, hF⟩ := hM.func fi ft hfi hft
    exact ⟨c, g, env, hc, by rw [h.same]; exact hg, h.funcAt hF⟩
  refine ⟨hM.small, hM.short, ?_, hseg, hM.fewSegs, ?_, hfunc, ?_, ?_⟩ <;> rw [h.same]
  · exact hM.hostCount
  · exact hM.memMax
  · exact hM.indirect
  · exact hM.table

theorem KeptModule.toInstance (h : KeptModule m m') (host : HostFn H) :
    M.toInstance m' segs host = M.toInstance m segs host := by
  rw [h.same]
  rfl

theorem KeptModule.keepsOff (h : KeptModule m m') (hoff : KeepsOff m host) : KeepsOff m' host :=
  fun x i args mem c hc => hoff x i args mem c (h.memSize.trans hc)

theorem RunsLeave.kept (h : RunsLeave m m') (hsize : SizeOk m.memMax m.memSize) : KeptModule m m' := by
  induction h with
  | fresh => exact .refl m
  | run hm hr ih => exact ih.trans (runCpu_kept (hm.sizeOk hsize) hr)

theorem KeptModule.dev (h : KeptModule m m') : m'.dev = m.dev := by
  rw [h.same]
  rfl

end Kept

section Plain

variable {M : Module} {ps : List (Parsed Payload)} {m0 m : HostModule}

/-- A module without trap instructions has no stubs: every function has been lowered. -/
theorem lowers_of_trapFree (he : Encodes M ps) (hm : loadWasm ps = .ok m0)
    (hno : ∀ i ∈ m0.code, i.op ≠ .unreachable) {k : Nat} (hk : k < M.code.length) : M.Lowers k := by
  have hc := List.getElem?_eq_getElem hk
  obtain ⟨s, ft, f, code', consts', hb, -, -, -, hty, -, hplaced, -, hpre, -⟩ :=
    (loadWasm_translated he hm).entry k _ hc
  cases hplaced with
  | lowered hlow => exact ⟨_, ft, s, f, code', consts', ⟨hc, hty, hb⟩, hlow⟩
  | stub _ _ hstub =>
    refine absurd rfl (hno { op := .unreachable } (hpre.subset ?_))
    rw [hstub]
    exact List.mem_append_right _ (.head _)

/-- A valid module without data, tables and trap instructions has been translated as a whole. -/
theorem translates_plain (hv : M.Valid) (hframes : M.FramesFit 1) (hm : loadWasm M.payloads = .ok m0)
    (hver : verifyCuop m0 = .ok m) (hdata : dataItems M.payloads = []) (hblob : m.dataBlob = [])
    (htable : m.table = []) (hno : ∀ i ∈ m.code, i.op ≠ .unreachable) :
    Translates M M.payloads [] m where
  valid := hv
  frames := hframes
  lowers k hk := by
    have hvf : Verified M m0 m := ⟨loadWasm_translated rfl hm, hv, hver⟩
    rw [hvf.typeFp.2.2.2.1] at hno
    exact lowers_of_trapFree rfl hm hno hk
  encodes := rfl
  data := hdata
  loads := ⟨m0, hm, hver⟩
  blob := by
    rw [hblob]
    exact Nat.zero_le _
  fewSegs := Nat.zero_le _
  table i fi h := by
    rw [htable] at h
    cases h

/-- A host that leaves the memory alone. -/
theorem keepsOff_one (m : HostModule) : KeepsOff m oneHost := fun _ _ _ _ _ _ => rfl

end Plain

end CuWasm
