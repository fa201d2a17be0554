import CuWasm.Proofs.BatchProofs

/-!
# Accepted code in the slices of a thread

A thread stays in its slices as long as every instruction it executes meets the conditions that
`verify_cuop` leaves open and finds a frame of the thread for the function it enters. `run_instance`
only tests the depth against `FRAME_CAP`, so calls that are deeper than `BENCH_FRAME_CAP` get into the
frames of the next thread (`deep_calls_escape`).
-/

namespace CuWasm

open Exit Wasm

section Slices

variable {m : HostModule} {maxSteps tid : Nat} {w w' : World}

/-- The frame discipline is a matter of the registers and of the frames in use. -/
theorem FrameInv.congr {v : Views} {f : FuncMeta} {gs : List FuncMeta} {s t : Mach}
    (hinv : FrameInv v m f gs s) (hregs : SameRegs s t)
    (hfr : ∀ k < s.csp, t.frames (v.frames.idx k) = s.frames (v.frames.idx k)) :
    FrameInv v m f gs t where
  pc := hregs.pc ▸ hinv.pc
  located := hregs.pc ▸ hinv.located
  sp := by rw [hregs.sp, hregs.fp, hregs.pc]; exact hinv.sp
  csp := hregs.csp.trans hinv.csp
  callers := by
    rw [hregs.fp]
    refine Callers.congr (fun k hk => hfr k ?_) hinv.callers
    rw [hinv.csp]
    omega
  small := hregs.sp ▸ hinv.small

/-- A thread that looks like one at work is at work. -/
theorem AtWork.congr (h : SameThread (m.batchViews tid) w w') (hw : AtWork m tid w) :
    AtWork m tid w' := by
  have hregs := h.regs
  refine ⟨hregs.memSize ▸ hw.size, fun n hph => ?_⟩
  obtain ⟨hsp, hcsp, f, gs, hinv⟩ := hw.frame n (h.phase ▸ hph)
  refine ⟨hregs.sp ▸ hsp, hregs.csp ▸ hcsp, f, gs, ?_⟩
  have hsame : SameRegs w.mach w'.mach :=
    ⟨hregs.pc, hregs.sp, hregs.fp, hregs.csp, hregs.fuel, hregs.memSize⟩
  refine hinv.congr hsame fun k hk => ?_
  have hcell := h.slices.frames k (Nat.lt_of_lt_of_le hk hcsp)
  simp only [Views.base, AoSView.idx, Nat.add_zero] at hcell
  exact hcell

/-- A disciplined thread at work can go on. -/
theorem AtWork.disciplined (hw : AtWork m tid w) (hd : m.Disciplined tid w) : CanGo m tid w := by
  intro n hph
  have hcsp := (hw.frame _ hph).2.1
  refine ⟨fun i hi => (hd n i hph hi).1 i hi, ?_, fun i hi => (hd n i hph hi).2.2⟩
  obtain ⟨h, -⟩ | ⟨⟨i, hi, he⟩, h, -⟩ := step_depths (m.batchViews tid) m.dev w.mach
  · exact h.trans hcsp
  · rw [h]
    exact (hd n i hph hi).2.1 he

/-- A thread that keeps to its slices changes nothing outside of them. -/
theorem HostModule.Private.outside (maxSteps : Nat) (hp : m.Private tid w) :
    SameOutside (m.batchViews tid) w.2 (Interleave.alone (threadStep m maxSteps) tid w).2 := by
  obtain ⟨-, s, hs⟩ := threadStep_same maxSteps hp SameThread.refl
  exact ⟨hs.stack.only, hs.frames.only, hs.globals.only, hs.mem.only, hs.live.only⟩

end Slices

/-- The threads of a batch are isolated. In every run in which each instruction of each thread meets the
conditions on it, each thread accesses and changes cells of its slices only, and gets to the state that it
gets to alone. -/
theorem batch_keeps_to_slices {ps : List (Parsed Payload)} {m0 m : HostModule}
    (hm : loadWasm ps = .ok m0) (hver : verifyCuop m0 = .ok m) {f : FuncMeta} (hf : f ∈ m.funcs)
    (hcode : 0 < f.codeLen) (hfit : f.nParams + f.nLocals ≤ BENCH_STACK_CAP) {args : List Slot}
    {maxSteps : Nat} {hs : Nat → GpuHostState} {sched : List Nat}
    (hsteps : ∀ pre tid, pre ++ [tid] <+: sched →
      m.Disciplined tid (m.among maxSteps f args hs pre tid)) :
    (∀ pre tid, pre ++ [tid] <+: sched →
      m.KeepsToSlices maxSteps tid (m.among maxSteps f args hs pre tid)) ∧
    ∀ tid, SameThread (m.batchViews tid) (m.alone maxSteps f args (hs tid) tid (sched.count tid))
      (m.among maxSteps f args hs sched tid) := by
  have haccepted := (verifyCuop_accepted hver).1
  have hloaded := loaded_sizeOk hm hver
  have hsize : SizeOk m.memSize m.memSize := ⟨hloaded.pages, le_rfl, hloaded.le.trans hloaded.small⟩
  have hamong (pre : List Nat) (tid : Nat) : m.among maxSteps f args hs pre tid =
      Interleave.world (Interleave.run (threadStep m maxSteps) pre
        (fun tid => batchThread m maxSteps f args (hs tid), m.batchArrays f args)) tid := by
    unfold HostModule.among
    rw [batchRun_eq]
    rfl
  obtain ⟨hgood, hall⟩ := (threads_separated m maxSteps).together (AtWork m)
    m.Disciplined (w := fun tid => (batchThread m maxSteps f args (hs tid), m.batchArrays f args))
    (b := (fun tid => batchThread m maxSteps f args (hs tid), m.batchArrays f args))
    (fun _ _ _ h hw => hw.congr h)
    (fun _ _ hw hd => ⟨hw.keeps haccepted (hw.disciplined hd),
      hw.step maxSteps haccepted hsize (hw.disciplined hd)⟩)
    (fun _ => .refl) (fun tid => AtWork.entry haccepted hf hcode hfit hsize maxSteps (hs tid)) sched
    (fun pre tid hp => hamong pre tid ▸ hsteps pre tid hp)
  refine ⟨fun pre tid hp => ?_, fun tid => ?_⟩
  · rw [hamong]
    exact ⟨hgood pre tid hp, (hgood pre tid hp).outside maxSteps⟩
  · rw [hamong]
    exact (hall tid).2

/-- A prefix of a list of four. -/
theorem prefix_four {a b c d : Nat} {pre : List Nat} {tid : Nat} (h : pre ++ [tid] <+: [a, b, c, d]) :
    (pre, tid) ∈ [([], a), ([a], b), ([a, b], c), ([a, b, c], d)] := by
  obtain ⟨rest, h⟩ := h
  match pre with
  | [] | [_] | [_, _] | [_, _, _] =>
    simp only [List.cons_append, List.nil_append, List.cons.injEq] at h
    simp [h]
  | _ :: _ :: _ :: _ :: _ => simp at h

/-- Code that only asks and returns is disciplined as long as there is a slot for the answer. -/
theorem ask_disciplined {m : HostModule} {tid : Nat} {w : World}
    (hcode : ∀ i ∈ m.code, i.op = .endFunc ∨ i.op = .callHost ∧ i.declared = (0, 1))
    (hsp : w.1.mach.sp < BENCH_STACK_CAP) : m.Disciplined tid w := by
  intro n i _ hi
  have hop := hcode i (List.mem_of_getElem? hi)
  refine ⟨fun j hj => ?_, ?_, fun h => .inr ?_⟩
  · have heq : m.code[w.1.mach.pc]? = some j := hj
    rw [hi] at heq
    cases heq
    obtain hop | ⟨hop, -⟩ := hop <;> simp only [hop]
  · rintro (h | ⟨h, -⟩) <;> obtain hop | ⟨hop, -⟩ := hop <;> rw [hop] at h <;> cases h
  · obtain hop | ⟨-, hdec⟩ := hop
    · rw [hop] at h
      cases h
    · rw [hdec]
      exact ⟨rfl, hsp⟩

/-- The loaded function that asks for the ledger sequence, in two threads that take turns: its code, the
stack pointers in front of the steps, and what the threads have got to. -/
def askTurns : Option (Bool × List (Option Status × Nat)) :=
  (loadWasm (askModule (.op (.call 0) .nil)).payloads).toOption.bind fun m0 =>
    (verifyCuop m0).toOption.map fun m =>
      (m.code.all (fun i => i.op == .endFunc || i.op == .callHost && i.declared == (0, 1)) &&
          m.funcs[1]? == some askMeta &&
          [([], 0), ([0], 1), ([0, 1], 1), ([0, 1, 1], 0)].all fun p =>
            (m.among 10 askMeta [] (fun _ => {}) p.1 p.2).1.mach.sp < BENCH_STACK_CAP,
        [0, 1].map fun tid => (m.among 10 askMeta [] (fun _ => {}) [0, 1, 1, 0] tid).outcome tid)

/-- Two threads ask for the ledger sequence in turns, each in its own slices. -/
theorem turns_keep_to_slices : ∃ m : HostModule,
    ((∀ pre tid, pre ++ [tid] <+: [0, 1, 1, 0] →
        m.KeepsToSlices 10 tid (m.among 10 askMeta [] (fun _ => {}) pre tid)) ∧
      ∀ tid, SameThread (m.batchViews tid) (m.alone 10 askMeta [] {} tid ([0, 1, 1, 0].count tid))
        (m.among 10 askMeta [] (fun _ => {}) [0, 1, 1, 0] tid)) ∧
    [0, 1].map (fun tid => (m.among 10 askMeta [] (fun _ => {}) [0, 1, 1, 0] tid).outcome tid) =
      [(some .ok, 25604), (some .ok, 25604)] := by
  have hload : askTurns = some (true, [(some .ok, 25604), (some .ok, 25604)]) := by decide +kernel
  obtain ⟨m0, m, hm, hver, heval⟩ := loaded_eval hload
  simp only [Prod.mk.injEq, Bool.and_eq_true, beq_iff_eq] at heval
  obtain ⟨⟨⟨hcode, hf⟩, hsp⟩, hout⟩ := heval
  refine ⟨m, batch_keeps_to_slices hm hver (List.mem_of_getElem? hf) (by decide) (by decide) ?_, hout⟩
  intro pre tid hp
  refine ask_disciplined (fun i hi => ?_) ?_
  · simpa using List.all_eq_true.mp hcode i hi
  · exact of_decide_eq_true (List.all_eq_true.mp hsp (pre, tid) (prefix_four hp))

/-- A function that calls itself. -/
def deepModule : Module where
  types := [[.func ([], [])]]
  funcs := [0]
  code := [{ locals := [], body := .op (.call 0) .nil }]

/-- The function. -/
def deepMeta : FuncMeta := ⟨0, 2, 0, 0, 0, 0⟩

theorem deepModule_valid : deepModule.Valid := by
  refine ⟨by decide, rfl, fun k ft c hty hc => ?_⟩
  match k with
  | 0 =>
    cases hc
    cases hty
    set C := deepModule.ctx ([], []) { locals := [], body := .op (.call 0) .nil }
    have hfunc : C.funcs[0]? = some 0 := rfl
    have htype : C.types[0]? = some ([], []) := rfl
    have hrest : Typed C [[]] true ([] ++ []) (.op (.call 0) .nil) [] := .op (.call hfunc htype) .nil
    exact hrest
  | k + 1 => cases hc

/-- The loaded function, the access of thread 0 after 63 calls, and the first frame of thread 1 before
and after one call more. -/
def deepCall : Option (Option FuncMeta × Bool × List Access × Nat × Nat) :=
  (loadWasm deepModule.payloads).toOption.bind fun m0 =>
    (verifyCuop m0).toOption.map fun m =>
      let w := m.among 1000 deepMeta [] (fun _ => {}) (List.replicate 63 0) 0
      (m.funcs[0]?, w.1.phase = .inl (936 + 1), (final (Run.step (m.batchViews 0) m.dev w.mach)).log,
        ((m.alone 1000 deepMeta [] {} 1 0).2.frames BENCH_FRAME_CAP).retPc,
        ((m.among 1000 deepMeta [] (fun _ => {}) (List.replicate 64 0) 1).2.frames BENCH_FRAME_CAP).retPc)

/-- The 64th call of thread 0 writes to the first frame of thread 1. -/
theorem deep_calls_escape : deepModule.Valid ∧ ∃ m0 m, loadWasm deepModule.payloads = .ok m0 ∧
    verifyCuop m0 = .ok m ∧ m.funcs[0]? = some deepMeta ∧
    ¬ m.KeepsToSlices 1000 0 (m.among 1000 deepMeta [] (fun _ => {}) (List.replicate 63 0) 0) ∧
    ¬ SameThread (m.batchViews 1) (m.alone 1000 deepMeta [] {} 1 0)
      (m.among 1000 deepMeta [] (fun _ => {}) (List.replicate 64 0) 1) := by
  have hload : deepCall = some (some deepMeta, true, [⟨.frames, 64, 1⟩], 0, 1) := by decide +kernel
  obtain ⟨m0, m, hm, hver, heval⟩ := loaded_eval hload
  simp only [Prod.mk.injEq, decide_eq_true_eq] at heval
  obtain ⟨hf, hphase, hlog, hbefore, hafter⟩ := heval
  refine ⟨deepModule_valid, m0, m, hm, hver, hf, fun hkeep => ?_, fun hsame => ?_⟩
  · refine hkeep.within.2 _ hphase ⟨⟨.frames, 64, 1⟩, ?_, fun hin => ?_⟩
    · rw [hlog]
      exact List.mem_singleton_self _
    · have hbase : (m.batchViews 0).base .frames = 0 := by
        simp [Views.base, AoSView.idx, HostModule.batchViews]
      have hown : 64 < BENCH_FRAME_CAP := hin 64 (by simp [hbase]) (by simp [hbase])
      exact absurd hown (by decide)
  · have hcell := hsame.slices.frames 0 (show 0 < BENCH_FRAME_CAP by decide)
    have hbase : (m.batchViews 1).base .frames + 0 = BENCH_FRAME_CAP := by
      simp [Views.base, AoSView.idx, HostModule.batchViews]
    rw [hbase] at hcell
    rw [hcell] at hafter
    rw [hbefore] at hafter
    cases hafter

end CuWasm
