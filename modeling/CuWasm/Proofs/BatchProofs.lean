import CuWasm.Batch
import CuWasm.Proofs.HostCallProofs
import CuWasm.Proofs.ImportProofs
import CuWasm.Proofs.WithinProofs

/-!
# The threads of a batch are isolated

A step of a thread depends on what the thread can see, and changes nothing else as long as it stays in
the slices of the thread. So the order of the threads does not matter (`batch_same`). A thread stays
in its slices as long as its calls are not deeper than its frames reach (`AtWork.step`):
`run_instance` tests the depth against `FRAME_CAP`, which is more than a thread has.
-/

namespace CuWasm

open Exit BlockMove Wasm Structured Translate

section Own

/-! ## What only a host call changes -/

/-- What `OP_CALL_HOST` writes for the host. -/
def Mach.request (s : Mach) : HostMailbox × Nat × Nat × Nat :=
  (s.mb, s.hostFn, s.hostNArgs, s.hostNResults)

/-- An instruction other than a host call leaves the request alone. -/
theorem exec_keeps_request {v : Views} {m : DevModule} {i : CuOp} (hop : i.op ≠ .callHost) :
    Keeps Mach.request (Run.exec v m i) :=
  Run.exec_keeps v m { request := fun h => absurd h hop }

/-- A step that does not suspend leaves the request alone. -/
theorem step_keeps_request {v : Views} {m : DevModule} {s : Mach}
    (h : ∀ t, Run.step v m s ≠ .error .hostcallPending t) :
    (final (Run.step v m s)).request = s.request := by
  cases hi : m.code[s.pc]? with
  | none =>
    rw [Run.step_apply, hi]
    rfl
  | some i =>
    rw [Run.final_step v m hi]
    by_cases hop : i.op = .callHost
    · have hx : Run.exec v m i (Run.fetched s) = Run.callHost v i.a i.b (Run.fetched s) := by
        simp only [Run.exec, hop]
      have hs := Run.step_apply v m s
      rw [hi] at hs
      simp only [hx, Run.callHost_apply] at hs ⊢
      split_ifs at hs ⊢ with h1 h2
      · rfl
      · rfl
      · exact absurd hs (h _)
    · exact exec_keeps_request hop _

/-! ## The depth of the calls -/

/-- The number of frames, and the greatest that has been recorded. -/
def Mach.depths (s : Mach) : Nat × Nat := (s.csp, s.peakCsp)

/-- No instruction but a call and a return changes the depth. -/
theorem exec_keeps_depths {v : Views} {m : DevModule} {i : CuOp}
    (hop : i.op ∉ [.call, .callIndirect, .ret, .endFunc]) : Keeps Mach.depths (Run.exec v m i) :=
  Run.exec_keeps v m { depth := fun h => absurd h hop }

/-- What an instruction does to the depth: it enters a function, and the peak follows, or it gets no
deeper. -/
def Deepens (s t : Mach) : Prop := t.csp = s.csp + 1 ∧ t.peakCsp = max s.peakCsp t.csp

theorem enter_depths (v : Views) (g : FuncMeta) (s : Mach) :
    (final (Run.enter v g s)).depths = s.depths ∨ Deepens s (final (Run.enter v g s)) := by
  have hkeep := Run.keeps_pushZeros v (f := Mach.depths) {} g.nLocals (Run.framed v g s)
  have hframed : (Run.framed v g s).depths = (s.csp + 1, max s.peakCsp (s.csp + 1)) := by
    simp only [Mach.depths, Run.framed, Prod.mk.injEq, true_and]
    split_ifs <;> omega
  rw [hframed] at hkeep
  rw [Run.enter_apply]
  split_ifs
  · exact .inl rfl
  · exact .inl rfl
  · right
    cases hx : Run.pushZeros v g.nLocals (Run.framed v g s) with
    | ok a w | error e w =>
      rw [hx] at hkeep
      simp only [Mach.depths, final_ok, final_error, Prod.mk.injEq] at hkeep
      obtain ⟨hcsp, hpeak⟩ := hkeep
      exact ⟨hcsp, hpeak.trans (by rw [← hcsp]; rfl)⟩

theorem leave_depths (v : Views) (s : Mach) :
    (final (Run.leave v s)).csp ≤ s.csp ∧ (final (Run.leave v s)).peakCsp = s.peakCsp := by
  rw [Run.leave_apply]
  simp only
  split_ifs
  · exact ⟨le_rfl, rfl⟩
  all_goals exact ⟨Nat.sub_le _ _, rfl⟩

/-- An instruction enters a function, or it gets no deeper and the peak stays. -/
theorem exec_depths (v : Views) (m : DevModule) (i : CuOp) (s : Mach) :
    let t := final (Run.exec v m i s)
    t.csp ≤ s.csp ∧ t.peakCsp = s.peakCsp ∨ Run.Enters v m i s ∧ Deepens s t := by
  intro t
  have hsame (h : t.depths = s.depths) : t.csp ≤ s.csp ∧ t.peakCsp = s.peakCsp :=
    ⟨(congrArg Prod.fst h).le, congrArg Prod.snd h⟩
  have henter {g : FuncMeta} {u : Mach} (hu : u.depths = s.depths) (ht : t = final (Run.enter v g u))
      (he : Run.Enters v m i s) : t.csp ≤ s.csp ∧ t.peakCsp = s.peakCsp ∨ Run.Enters v m i s ∧ Deepens s t := by
    have hcsp : u.csp = s.csp := congrArg Prod.fst hu
    have hpeak : u.peakCsp = s.peakCsp := congrArg Prod.snd hu
    obtain h | ⟨h1, h2⟩ := enter_depths v g u
    · exact .inl (hsame (ht ▸ h.trans hu))
    · rw [← ht, hcsp] at h1
      rw [← ht, hpeak] at h2
      exact .inr ⟨he, h1, h2⟩
  have ht : t = final (Run.exec v m i s) := rfl
  by_cases hop : i.op ∈ [.call, .callIndirect, .ret, .endFunc]
  · simp only [List.mem_cons, List.not_mem_nil, or_false] at hop
    rcases hop with hop | hop | hop | hop
    · simp only [Run.exec, hop] at ht
      cases hf : m.funcs[i.b]? with
      | none =>
        rw [hf] at ht
        exact .inl (hsame (congrArg Mach.depths ht))
      | some g =>
        rw [hf] at ht
        exact henter rfl ht (.inl hop)
    · simp only [Run.exec, hop, bind_apply, Run.pop_apply, Run.indirectCallee_apply] at ht
      cases hg : Run.indirectTarget m i.b (u32 (s.stack (v.stack.idx (dec32 s.sp)))).toNat with
      | none =>
        simp only [hg, final_error] at ht
        exact .inl (hsame (by rw [ht]; rfl))
      | some g =>
        simp only [hg] at ht
        refine henter ?_ ht (.inr ⟨hop, by rw [hg]; exact Option.some_ne_none g⟩)
        rfl
    all_goals
      simp only [Run.exec, hop] at ht
      rw [ht]
      exact .inl (leave_depths v s)
  · exact .inl (hsame (exec_keeps_depths hop s))

/-- The same of a step. -/
theorem step_depths (v : Views) (m : DevModule) (s : Mach) :
    let t := final (Run.step v m s)
    t.csp ≤ s.csp ∧ t.peakCsp = s.peakCsp ∨
      (∃ i, m.code[s.pc]? = some i ∧ Run.Enters v m i s) ∧ Deepens s t := by
  cases hi : m.code[s.pc]? with
  | none =>
    rw [Run.step_apply, hi]
    exact .inl ⟨le_rfl, rfl⟩
  | some i =>
    rw [Run.final_step v m hi]
    obtain h | ⟨he, hd⟩ := exec_depths v m i (Run.fetched s)
    · exact .inl h
    · exact .inr ⟨⟨i, rfl, he⟩, hd⟩

/-- Machines that have been as deep, and are as deep now. -/
theorem peak_same {s t s' t' : Mach} {A B : Prop} (hcsp : t.csp = s.csp) (hpeak : t.peakCsp = s.peakCsp)
    (hcsp' : t'.csp = s'.csp) (hs : s'.csp ≤ s.csp ∧ s'.peakCsp = s.peakCsp ∨ A ∧ Deepens s s')
    (ht : t'.csp ≤ t.csp ∧ t'.peakCsp = t.peakCsp ∨ B ∧ Deepens t t') : t'.peakCsp = s'.peakCsp := by
  obtain ⟨h1, h2⟩ | ⟨-, h1, h2⟩ := hs <;> obtain ⟨h3, h4⟩ | ⟨-, h3, h4⟩ := ht <;> omega

/-! ## The host -/

theorem objAlloc_slice {heap : GpuObjHeap} {tag : Byte} {mem mem' : Nat → Byte}
    {memSize ptr len : Nat} (h : ∀ j, j < memSize → mem' j = mem j) :
    objAlloc heap tag len (guestSlice mem' memSize ptr len) =
      objAlloc heap tag len (guestSlice mem memSize ptr len) := by
  unfold objAlloc guestSlice
  by_cases hin : ptr + len ≤ memSize
  · have hbytes : (fun i => if i < min len GPU_OBJ_BYTES then mem' (ptr + i) else 0) =
        fun i => if i < min len GPU_OBJ_BYTES then mem (ptr + i) else 0 := by
      funext i
      by_cases hi : i < min len GPU_OBJ_BYTES
      · rw [if_pos hi, if_pos hi, h _ (by omega)]
      · rw [if_neg hi, if_neg hi]
    simp only [if_pos hin, hbytes]
  · simp only [if_neg hin]

theorem vecElems_congr {old : Nat → Slot} {mem mem' : Nat → Byte} {memSize ptr n : Nat}
    (h : ∀ j, j < memSize → mem' j = mem j) :
    vecElems old mem' memSize ptr n = vecElems old mem memSize ptr n := by
  funext i
  unfold vecElems
  by_cases hin : i < min n GPU_VEC_ELEMS ∧ (ptr + i * 8) % 2 ^ 32 + 8 ≤ memSize
  · simp only [if_pos hin]
    exact memLoadLe_congr fun k hk => h _ (by omega)
  · simp only [if_neg hin]

/-- `gpu_host_dispatch` reads the memory of the guest and nothing behind it. -/
theorem gpuHostDispatch_congr {hs : GpuHostState} {mb : HostMailbox} {mem mem' : Nat → Byte}
    {memSize : Nat} (h : ∀ j, j < memSize → mem' j = mem j) :
    gpuHostDispatch hs mb mem' memSize = gpuHostDispatch hs mb mem memSize := by
  have hfn (fn : GpuFn) : gpuDispatch hs fn mb.args mem' memSize =
      gpuDispatch hs fn mb.args mem memSize := by
    cases fn with
    | strNewLm => simp only [gpuDispatch, objAlloc_slice h]
    | symNewLm => simp only [gpuDispatch, objAlloc_slice h]
    | vecNewLm => simp only [gpuDispatch, vecElems_congr h]
    | _ => rfl
  unfold gpuHostDispatch
  cases GpuFn.ofId mb.fnId with
  | none => rfl
  | some fn => simp only [hfn]

end Own

section Isolation

variable {m : HostModule} {maxSteps tid : Nat} {w w' : World}

/-! ## One instruction of one thread -/

theorem pushWhile_window {v : Views} (hcap : v.stack.cap = BENCH_STACK_CAP) {g0 : Nat → Slot}
    (results : Nat → Slot) (n : Nat) : ∀ (i sp : Nat) {f g : Nat → Slot},
    Window (v.own .stack) (v.base .stack) (v.base .stack) g0 f g →
      (pushWhile v results i n g sp).1 = (pushWhile v results i n f sp).1 ∧
        Window (v.own .stack) (v.base .stack) (v.base .stack) g0 (pushWhile v results i n f sp).2
          (pushWhile v results i n g sp).2 := by
  induction n with
  | zero => exact fun _ _ _ _ h => ⟨rfl, h⟩
  | succ n ih =>
    intro i sp f g h
    unfold pushWhile
    by_cases hsp : sp < BENCH_STACK_CAP
    · rw [if_pos hsp, if_pos hsp]
      exact ih (i + 1) (sp + 1) (h.update (j := sp) (show sp < v.stack.cap by omega) (results i))
    · rw [if_neg hsp, if_neg hsp]
      exact ⟨rfl, h⟩

theorem SameThread.refl {v : Views} : SameThread v w w :=
  ⟨rfl, rfl, rfl, rfl, fun _ _ => rfl, fun _ _ => rfl, fun _ _ => rfl, fun _ _ => rfl, fun _ _ => rfl⟩

theorem SameThread.symm {v : Views} (h : SameThread v w w') : SameThread v w' w :=
  ⟨h.phase.symm, h.hs.symm, h.vm.symm, h.mb.symm, fun j hj => (h.slices.stack j hj).symm,
    fun j hj => (h.slices.frames j hj).symm, fun j hj => (h.slices.globals j hj).symm,
    fun j hj => (h.slices.mem j hj).symm, fun j hj => (h.slices.live j hj).symm⟩

theorem SameThread.regs {v : Views} (h : SameThread v w w') : SameRegs w.1.mach w'.1.mach :=
  ⟨congrArg VmState.pc h.vm, congrArg VmState.sp h.vm, congrArg VmState.fp h.vm,
    congrArg VmState.csp h.vm, congrArg VmState.fuel h.vm, congrArg VmState.memSize h.vm⟩

/-- What the host gets to see. -/
theorem SameThread.request {v : Views} (h : SameThread v w w') : w'.1.mach.request = w.1.mach.request :=
  Prod.ext h.mb (Prod.ext (congrArg VmState.hostFn h.vm)
    (Prod.ext (congrArg VmState.hostNArgs h.vm) (congrArg VmState.hostNResults h.vm)))

/-- Machines with the same registers that have been as deep and have asked the host the same. -/
theorem SameRegs.save {s t : Mach} (h : SameRegs s t) (hpeak : t.peakCsp = s.peakCsp)
    (hreq : t.request = s.request) : t.save .running = s.save .running := by
  simp only [Mach.request, Prod.mk.injEq] at hreq
  simp only [Mach.save, h.pc, h.sp, h.fp, h.csp, h.fuel, h.memSize, hpeak, hreq]

theorem SameThread.alike {v : Views} (h : SameThread v w w') :
    Alike v.own v v w'.2 w.mach w'.mach where
  regs := ⟨h.regs.pc, h.regs.sp, h.regs.fp, h.regs.csp, h.regs.fuel, h.regs.memSize⟩
  stack := .start h.slices.stack
  frames := .start h.slices.frames
  globals := .start h.slices.globals
  mem := .start h.slices.mem
  live := .start h.slices.live

/-- Machines that look alike show the same slices. -/
theorem Alike.slices {v : Views} {ar : Arrays} {s t : Mach} (h : Alike v.own v v ar s t) :
    SameSlices v s.arrays t.arrays :=
  ⟨h.stack.agree, h.frames.agree, h.globals.agree, h.mem.agree, h.live.agree⟩

theorem views_fit (v : Views) : v.Fits v := ⟨le_rfl, rfl, rfl, rfl, rfl, rfl⟩

/-- The exit of a host call in two machines that look alike. -/
theorem batchExit_pending (maxSteps : Nat) (hs : GpuHostState) {ar : Arrays} {s t : Mach}
    (h : Alike (m.batchViews tid).own (m.batchViews tid) (m.batchViews tid) ar s t)
    (hreq : t.request = s.request) (hpeak : t.peakCsp = s.peakCsp) (hmem : s.memSize ≤ m.memSize) :
    let r := batchExit m maxSteps tid hs .hostcallPending s
    let r' := batchExit m maxSteps tid hs .hostcallPending t
    r'.phase = r.phase ∧ r'.hs = r.hs ∧ r'.mach.request = r.mach.request ∧
      r'.mach.peakCsp = r.mach.peakCsp ∧
      Alike (m.batchViews tid).own (m.batchViews tid) (m.batchViews tid) ar r.mach r'.mach := by
  have hmb : t.mb = s.mb := congrArg Prod.fst hreq
  have hdisp : gpuHostDispatch hs t.mb (fun i => t.mem ((m.batchViews tid).memory + i)) t.memSize =
      gpuHostDispatch hs s.mb (fun i => s.mem ((m.batchViews tid).memory + i)) s.memSize := by
    rw [hmb, h.regs.memSize]
    exact gpuHostDispatch_congr fun j hj => h.mem.agree j (Nat.lt_of_lt_of_le hj hmem)
  simp only [batchExit, if_true, hdisp]
  cases gpuHostDispatch hs s.mb (fun i => s.mem ((m.batchViews tid).memory + i)) s.memSize with
  | none => exact ⟨rfl, rfl, hreq, hpeak, h⟩
  | some p =>
    obtain ⟨hs1, mb1⟩ := p
    obtain ⟨hsp, hwin⟩ := pushWhile_window (v := m.batchViews tid) rfl mb1.results mb1.nResults 0 s.sp
      h.stack
    refine ⟨rfl, rfl, congrArg (Prod.mk mb1) (congrArg Prod.snd hreq), ?_,
      ⟨⟨h.regs.pc, ?_, h.regs.fp, h.regs.csp, h.regs.fuel, rfl⟩, ?_, h.frames,
      h.globals, h.mem, h.live⟩⟩
    · show (if t.csp > t.peakCsp then t.csp else t.peakCsp) =
        if s.csp > s.peakCsp then s.csp else s.peakCsp
      rw [h.regs.csp, hpeak]
    · show (pushWhile _ mb1.results 0 mb1.nResults t.stack t.sp).1 = _
      rw [h.regs.sp]
      exact hsp
    · show Window _ _ _ _ (pushWhile _ mb1.results 0 mb1.nResults s.stack s.sp).2
        (pushWhile _ mb1.results 0 mb1.nResults t.stack t.sp).2
      rw [h.regs.sp]
      exact hwin

/-- The mailboxes of two machines that suspend at a host call. -/
theorem pending_mb {own : Region → Nat → Prop} {v v' : Views} {ar : Arrays} {m : DevModule}
    {s t : Mach} (h : Alike own v v' ar s t) {u u' : Mach} (hmb : t.mb = s.mb)
    (hs : Run.step v m s = .error .hostcallPending u)
    (ht : Run.step v' m t = .error .hostcallPending u') (hin : ¬ Spoiled own v u) : u'.mb = u.mb := by
  have hcall := step_sameCall h hs ht hin
  obtain ⟨i, hi, -, rfl⟩ := Run.step_pending v m hs
  obtain ⟨i', hi', -, rfl⟩ := Run.step_pending v' m ht
  rw [h.regs.pc, hi] at hi'
  cases hi'
  have hargs : (Run.suspended v' i.a i.b (Run.fetched t)).mb.args =
      (Run.suspended v i.a i.b (Run.fetched s)).mb.args := by
    funext k
    by_cases hk : k < i.a &&& 0xff
    · exact hcall.args k hk
    · simp only [Run.suspended, if_neg hk]
      exact congrArg (HostMailbox.args · k) hmb
  show HostMailbox.mk _ _ _ _ _ = HostMailbox.mk _ _ _ _ _
  congr 1
  exact congrArg HostMailbox.results hmb

/-- What they ask the host for. -/
theorem pending_request {own : Region → Nat → Prop} {v v' : Views} {ar : Arrays} {m : DevModule}
    {s t : Mach} (h : Alike own v v' ar s t) {u u' : Mach} (hmb : t.mb = s.mb)
    (hs : Run.step v m s = .error .hostcallPending u)
    (ht : Run.step v' m t = .error .hostcallPending u') (hin : ¬ Spoiled own v u) :
    u'.request = u.request := by
  refine Prod.ext (pending_mb h hmb hs ht hin) ?_
  obtain ⟨i, hi, -, rfl⟩ := Run.step_pending v m hs
  obtain ⟨i', hi', -, rfl⟩ := Run.step_pending v' m ht
  rw [h.regs.pc, hi] at hi'
  cases hi'
  rfl

/-- One instruction of a thread on two sets of arrays that show it the same slices. -/
theorem threadStep_same (maxSteps : Nat) (hp : m.Private tid w)
    (h : SameThread (m.batchViews tid) w w') :
    SameThread (m.batchViews tid) (Interleave.alone (threadStep m maxSteps) tid w)
        (Interleave.alone (threadStep m maxSteps) tid w') ∧
      ∃ s, Alike (m.batchViews tid).own (m.batchViews tid) (m.batchViews tid) w'.2 s
        (World.mach (Interleave.alone (threadStep m maxSteps) tid w')) := by
  obtain ⟨t, ar⟩ := w
  obtain ⟨t', ar'⟩ := w'
  have halike := h.alike
  have hphase : t'.phase = t.phase := h.phase
  have hhs : t'.hs = t.hs := h.hs
  unfold Interleave.alone threadStep
  simp only [hphase, hhs]
  cases hph : t.phase with
  | inr st => exact ⟨⟨h.phase, h.hs, h.vm, h.mb, h.slices⟩, _, halike⟩
  | inl n =>
    cases n with
    | zero => exact ⟨⟨rfl, rfl, h.vm, h.mb, h.slices⟩, _, halike⟩
    | succ n =>
      have hclean := hp.2 n hph
      have hend := step_ends (views_fit (m.batchViews tid)) m.dev halike fun _ _ _ => Iff.rfl
      have hreq
          (hs : ∀ u, Run.step (m.batchViews tid) m.dev (t.mach.on ar) ≠ .error .hostcallPending u)
          (hs' : ∀ u, Run.step (m.batchViews tid) m.dev (t'.mach.on ar') ≠
            .error .hostcallPending u) :
          (final (Run.step (m.batchViews tid) m.dev (t'.mach.on ar'))).request =
            (final (Run.step (m.batchViews tid) m.dev (t.mach.on ar))).request :=
        (step_keeps_request hs').trans
          ((show t'.mach.request = t.mach.request from h.request).trans (step_keeps_request hs).symm)
      have hpeak : _ → (final (Run.step (m.batchViews tid) m.dev (t'.mach.on ar'))).peakCsp =
          (final (Run.step (m.batchViews tid) m.dev (t.mach.on ar))).peakCsp := fun hcsp =>
        peak_same h.regs.csp (congrArg VmState.peakCsp h.vm) hcsp
          (step_depths (m.batchViews tid) m.dev (t.mach.on ar))
          (step_depths (m.batchViews tid) m.dev (t'.mach.on ar'))
      simp only [World.mach] at hend hclean
      generalize hr : Run.step (m.batchViews tid) m.dev (t.mach.on ar) = r at hend hclean hreq hpeak ⊢
      generalize hr' : Run.step (m.batchViews tid) m.dev (t'.mach.on ar') = r' at hend hreq hpeak ⊢
      cases hend with
      | ok a h1 =>
        have hne (y : Mach) :
            ∀ x, (.ok () y : EStateM.Result Status Mach Unit) ≠ .error .hostcallPending x := by
          rintro x ⟨⟩
        have hreq1 := hreq (hne _) (hne _)
        exact ⟨⟨rfl, rfl, h1.regs.save (hpeak h1.regs.csp) hreq1, congrArg Prod.fst hreq1, h1.slices⟩,
          _, h1⟩
      | @error e u u' h1 =>
        by_cases he : e = .hostcallPending
        · subst he
          have hsize := hp.1
          obtain ⟨i, hi, -, hu⟩ := Run.step_pending _ m.dev hr
          have hmem : u.memSize ≤ m.memSize := by
            rw [hu]
            exact hsize
          obtain ⟨h2, h3, h4, h5, h6⟩ := batchExit_pending maxSteps t.hs h1
            (pending_request halike h.mb hr hr' hclean) (hpeak h1.regs.csp) hmem
          exact ⟨⟨h2, h3, h6.regs.save h5 h4, congrArg Prod.fst h4, h6.slices⟩, _, h6⟩
        · have hne (e' : Status) (y : Mach) (hee : e = e') :
              ∀ x, (.error e' y : EStateM.Result Status Mach Unit) ≠ .error .hostcallPending x := by
            rintro x ⟨⟩
            exact he hee
          have hexit (y : Mach) : batchExit m maxSteps tid t.hs e y = ⟨y, .inr e, t.hs⟩ := if_neg he
          have hreq1 := hreq (hne _ _ rfl) (hne _ _ rfl)
          simp only [hexit]
          exact ⟨⟨rfl, rfl, h1.regs.save (hpeak h1.regs.csp) hreq1, congrArg Prod.fst hreq1, h1.slices⟩,
            _, h1⟩
      | spoiled hb => exact absurd hb hclean
      | escaped he => exact absurd he.2 (lt_irrefl _)

end Isolation

section Schedule

variable {m : HostModule} {maxSteps : Nat}

/-! ## All threads -/

theorem slot_unique {l i j a b : Nat} (ha : a < l) (hb : b < l) (h : i * l + a = j * l + b) :
    i = j := by
  have hdiv (k c : Nat) (hc : c < l) : (k * l + c) / l = k := by
    rw [Nat.mul_comm, Nat.mul_add_div (by omega), Nat.div_eq_of_lt hc, Nat.add_zero]
  rw [← hdiv i a ha, h, hdiv j b hb]

theorem lt_sliceLen {j n : Nat} (h : j < n) : j < sliceLen n := by
  unfold sliceLen
  split_ifs
  · omega
  · exact h

/-- The slices of two threads have no cell in common. -/
theorem slices_disjoint {i j : Nat} (hij : i ≠ j) (r : Region) {a b : Nat}
    (ha : (m.batchViews i).own r a) (hb : (m.batchViews j).own r b) :
    (m.batchViews i).base r + a ≠ (m.batchViews j).base r + b := by
  intro h
  refine hij ?_
  cases r with
  | stack =>
    have heq : i * BENCH_STACK_CAP + a = j * BENCH_STACK_CAP + b := by
      simpa [Views.base, AoSView.idx, HostModule.batchViews] using h
    exact slot_unique ha hb heq
  | frames =>
    have heq : i * BENCH_FRAME_CAP + a = j * BENCH_FRAME_CAP + b := by
      simpa [Views.base, AoSView.idx, HostModule.batchViews] using h
    exact slot_unique ha hb heq
  | globals => exact slot_unique (lt_sliceLen ha) (lt_sliceLen hb) h
  | memory => exact slot_unique (lt_sliceLen ha) (lt_sliceLen hb) h
  | live => exact slot_unique (lt_sliceLen ha) (lt_sliceLen hb) h

/-- A thread keeps to its slices, and the others do not see its steps. -/
theorem threads_separated (m : HostModule) (maxSteps : Nat) :
    Interleave.Separated (threadStep m maxSteps) (fun tid => SameThread (m.batchViews tid))
      m.Private where
  refl tid w := .refl
  symm tid w w' h := h.symm
  own tid w w' hp h := (threadStep_same maxSteps hp h).1
  frame i j w u t t' x hij hp hj hi := by
    obtain ⟨-, s, hs⟩ := threadStep_same maxSteps hp hj
    have hout (r : Region) {a : Nat} (ha : (m.batchViews i).own r a) (b : Nat)
        (hb : (m.batchViews j).own r b) :
        (m.batchViews i).base r + a ≠ (m.batchViews j).base r + b := slices_disjoint hij r ha hb
    have hsl := hi.slices
    exact ⟨hi.phase, hi.hs, hi.vm, hi.mb,
      ⟨fun a ha => (hs.stack.only _ (hout .stack ha)).trans (hsl.stack a ha),
        fun a ha => (hs.frames.only _ (hout .frames ha)).trans (hsl.frames a ha),
        fun a ha => (hs.globals.only _ (hout .globals ha)).trans (hsl.globals a ha),
        fun a ha => (hs.mem.only _ (hout .memory ha)).trans (hsl.mem a ha),
        fun a ha => (hs.live.only _ (hout .live ha)).trans (hsl.live a ha)⟩⟩

theorem batchRun_eq (sched : List Nat) (b : (Nat → Thread) × Arrays) :
    batchRun m maxSteps sched b = Interleave.run (threadStep m maxSteps) sched b := by
  induction sched generalizing b with
  | nil => rfl
  | cons tid sched ih => exact ih _

/-- Threads that keep to their slices when they run alone get as far in any order of their
instructions. -/
theorem batch_same {f : FuncMeta} {args : List Slot} {hs : Nat → GpuHostState} {sched : List Nat}
    (hp : ∀ tid k, k < sched.count tid →
      m.Private tid (m.alone maxSteps f args (hs tid) tid k)) (tid : Nat) :
    SameThread (m.batchViews tid) (m.alone maxSteps f args (hs tid) tid (sched.count tid))
      (m.among maxSteps f args hs sched tid) := by
  unfold HostModule.among
  rw [batchRun_eq]
  exact (threads_separated m maxSteps).run sched
    (w := fun tid => (batchThread m maxSteps f args (hs tid), m.batchArrays f args))
    (fun _ => .refl) hp tid

end Schedule

section Alone

variable {M : Wasm.Module} {m0 m : HostModule} {maxSteps tid : Nat} {w : World}

/-! ## A thread with the arrays to itself -/

/-- A thread that runs obeys the frame discipline inside its slices. -/
structure AtWork (m : HostModule) (tid : Nat) (w : World) : Prop where
  size : SizeOk m.memSize w.1.mach.memSize
  frame : ∀ n, w.1.phase = .inl n → w.1.mach.sp ≤ BENCH_STACK_CAP ∧ w.1.mach.csp ≤ BENCH_FRAME_CAP ∧
    ∃ f gs, FrameInv (m.batchViews tid) m f gs w.mach

/-- What a host call about to be made needs for its answer: one declared result, and a slot for it. -/
def Slotted (w : World) (i : CuOp) : Prop :=
  i.op = .callHost → GpuFn.ofId i.b = none ∨
    i.declared.2 = 1 ∧ w.1.mach.sp - i.declared.1 < BENCH_STACK_CAP

/-- What the next instruction of a thread at work needs for the thread to stay at work. -/
def CanGo (m : HostModule) (tid : Nat) (w : World) : Prop :=
  ∀ n, w.1.phase = .inl (n + 1) → StepOk (m.batchViews tid) m w.mach ∧
    (final (Run.step (m.batchViews tid) m.dev w.mach)).csp ≤ BENCH_FRAME_CAP ∧
    ∀ i, m.code[w.1.mach.pc]? = some i → Slotted w i

theorem alone_zero (f : FuncMeta) (args : List Slot) (hs : GpuHostState) :
    m.alone maxSteps f args hs tid 0 = (batchThread m maxSteps f args hs, m.batchArrays f args) := rfl

theorem batchExit_csp (hs : GpuHostState) (e : Status) (s : Mach) :
    (batchExit m maxSteps tid hs e s).mach.csp = s.csp := by
  unfold batchExit
  split_ifs
  · simp only
    split <;> rfl
  · rfl

theorem alone_csp (n : Nat) (hph : w.1.phase = .inl (n + 1)) :
    (Interleave.alone (threadStep m maxSteps) tid w).1.mach.csp =
      (final (Run.step (m.batchViews tid) m.dev w.mach)).csp := by
  unfold Interleave.alone threadStep World.mach
  rw [hph]
  simp only
  cases Run.step (m.batchViews tid) m.dev (w.1.mach.on w.2) with
  | ok a s => rfl
  | error e s => exact batchExit_csp _ e s

/-- Code whose table holds no import satisfies `StepOk`. -/
theorem Verified.stepOk_table (h : Verified M m0 m) (htab : m.TableDefined) {v : Views} {f : FuncMeta}
    {gs : List FuncMeta} {s : Mach} (hinv : FrameInv v m f gs s) : StepOk v m s := by
  obtain ⟨hcode, fl, hfl, -⟩ := hinv.instr h.accepted
  obtain ⟨k, hk⟩ := List.mem_iff_getElem?.mp hinv.located.mem
  refine h.stepOk_of hinv (fun i g hi hop hg => ?_) fun i g hi hop hg => ?_
  · rw [hcode] at hi
    cases hi
    exact h.code_pos_of hg (h.callee hk hinv.located.code hfl.lt hop)
  · obtain ⟨fi, want, tidx, htable, hfun, -⟩ := Run.indirectTarget_some hg
    have hne : fi ≠ TABLE_NULL := by
      rintro rfl
      unfold Run.indirectTarget at hg
      rw [htable] at hg
      simp at hg
    exact h.code_pos_of hfun (htab _ fi htable hne)

/-- A host call that is answered has one result, and there is a slot for it. -/
theorem answer_slot {hs : GpuHostState} {u : Mach} {mem : Nat → Byte} {memSize : Nat}
    {p : GpuHostState × HostMailbox} (hslot : ∀ i, m.code[w.1.mach.pc]? = some i → Slotted w i)
    (hstep : Run.step (m.batchViews tid) m.dev w.mach = .error .hostcallPending u)
    (hd : gpuHostDispatch hs u.mb mem memSize = some p) :
    u.hostNResults = 1 ∧ u.sp < BENCH_STACK_CAP := by
  obtain ⟨i, hi, hop, hsusp⟩ := Run.step_pending _ m.dev hstep
  obtain ⟨husp, -, hfn, -⟩ := callHost_pending hi hop hstep
  have hid : GpuFn.ofId i.b ≠ none := by
    intro hno
    rw [← hfn] at hno
    rw [gpuHostDispatch_none.mpr hno] at hd
    cases hd
  obtain ⟨hone, hfree⟩ := (hslot i hi hop).resolve_left hid
  exact ⟨by rw [hsusp]; exact hone, husp.trans_lt hfree⟩

/-- The answer to a host call keeps the thread at work. -/
theorem AtWork.answer (hsize : SizeOk m.memSize m.memSize) {u : Mach} (hs : GpuHostState)
    {f : FuncMeta} {gs : List FuncMeta}
    (hstep : Run.step (m.batchViews tid) m.dev w.mach = .error .hostcallPending u)
    (hu : SizeOk m.memSize u.memSize) (ha : Awaits (m.batchViews tid) m f gs u)
    (hcsp : u.csp ≤ BENCH_FRAME_CAP) (hslot : ∀ i, m.code[w.1.mach.pc]? = some i → Slotted w i) :
    AtWork m tid (batchExit m maxSteps tid hs .hostcallPending u,
      (batchExit m maxSteps tid hs .hostcallPending u).mach.arrays) := by
  unfold batchExit
  simp only [if_true]
  cases hd : gpuHostDispatch hs u.mb (fun i => u.mem ((m.batchViews tid).memory + i)) u.memSize with
  | none => exact ⟨hu, fun n hn => by cases hn⟩
  | some p =>
    obtain ⟨hs1, mb1⟩ := p
    obtain ⟨hres, hroom⟩ := answer_slot hslot hstep hd
    have hpush : pushWhile (m.batchViews tid) mb1.results 0 mb1.nResults u.stack u.sp =
        (u.sp + 1, Function.update u.stack ((m.batchViews tid).stack.idx u.sp) (mb1.results 0)) := by
      rw [gpuHostDispatch_results hd, pushWhile_one, if_pos hroom]
    simp only [hpush]
    refine ⟨hsize, fun n _ => ⟨hroom, hcsp, f, gs, ha.resume
      ⟨rfl, rfl, rfl, rfl, by rw [hres]; rfl, .inr ?_, fun j hj => ?_⟩⟩⟩
    · show u.sp + 1 ≤ STACK_CAP
      exact Nat.le_trans hroom (by decide)
    · show Function.update u.stack _ _ _ = _
      refine Function.update_of_ne ?_ _ _
      simp only [AoSView.idx]
      omega

/-- A thread at work keeps to its slices with the next instruction. -/
theorem AtWork.keeps (hm : Accepted m) (hw : AtWork m tid w) (hgo : CanGo m tid w) :
    m.Private tid w := by
  refine ⟨hw.size.le, fun n hph => ?_⟩
  obtain ⟨hsp, hcsp, f, gs, hinv⟩ := hw.frame _ hph
  exact (step_within hm hinv hsp hw.size.le hcsp (hgo n hph).2.1).1.not_spoiled

/-- One instruction of a thread at work, which stays at work. -/
theorem AtWork.step (maxSteps : Nat) (hm : Accepted m) (hsize : SizeOk m.memSize m.memSize)
    (hw : AtWork m tid w) (hgo : CanGo m tid w) :
    AtWork m tid (Interleave.alone (threadStep m maxSteps) tid w) := by
  unfold Interleave.alone threadStep
  cases hph : w.1.phase with
  | inr st => exact hw
  | inl n =>
    cases n with
    | zero => exact ⟨hw.size, fun n hn => by cases hn⟩
    | succ n =>
      obtain ⟨hsp, hcsp, f, gs, hinv⟩ := hw.frame _ hph
      obtain ⟨hok, hfinal, hslot⟩ := hgo n hph
      have hcap := (step_within hm hinv hsp hw.size.le hcsp hfinal).2
      have hgrow := (step_memSize (v := m.batchViews tid) (m := m.dev) (s := w.mach) hw.size).1
      have hframe := step_frame hm hinv hok
      simp only
      generalize hr : Run.step (m.batchViews tid) m.dev w.mach = r at hgrow hframe hcap hfinal
      have hr' : Run.step (m.batchViews tid) m.dev (w.1.mach.on w.2) = r := hr
      rw [hr']
      cases r with
      | ok a s =>
        obtain ⟨f', gs', hinv'⟩ := (go_frame hm hinv hok (.step hr)).1
        exact ⟨hgrow, fun _ _ => ⟨hcap s rfl, hfinal, f', gs', hinv'⟩⟩
      | error e u =>
        by_cases he : e = .hostcallPending
        · subst he
          exact AtWork.answer hsize w.1.hs hr hgrow (hframe.2 rfl).2 hfinal hslot
        · unfold batchExit
          simp only [if_neg he]
          exact ⟨hgrow, fun n hn => by cases hn⟩

theorem roomy_depth {x : World} (hx : m.roomy x) : x.1.mach.csp ≤ BENCH_FRAME_CAP := by
  unfold HostModule.roomy at hx
  rw [Bool.and_eq_true] at hx
  exact of_decide_eq_true hx.1

/-- A thread that has room before and after the next instruction can go on. -/
theorem AtWork.canGo (h : Verified M m0 m) (htab : m.TableDefined) (hone : m.OneResult)
    (hw : AtWork m tid w) (hroom : m.roomy w)
    (hdeep : m.roomy (Interleave.alone (threadStep m maxSteps) tid w)) : CanGo m tid w := by
  intro n hph
  obtain ⟨hsp, -, f, gs, hinv⟩ := hw.frame _ hph
  refine ⟨h.stepOk_table htab hinv, (alone_csp n hph).symm.trans_le (roomy_depth hdeep),
    fun i hi hop => ?_⟩
  by_cases hid : GpuFn.ofId i.b = none
  · exact .inl hid
  · have hslot : 0 < i.declared.1 ∨ w.1.mach.sp < BENCH_STACK_CAP := by
      unfold HostModule.roomy at hroom
      rw [hph, hi, Bool.and_eq_true] at hroom
      simpa [hop] using hroom.2
    refine .inr ⟨hone i (List.mem_of_getElem? hi) hop hid, ?_⟩
    unfold BENCH_STACK_CAP at hsp hslot ⊢
    omega

/-- A thread at work stays at work as long as it can go on. -/
theorem AtWork.along (hm : Accepted m) (hsize : SizeOk m.memSize m.memSize) (hw : AtWork m tid w) {n : Nat}
    (hgo : ∀ j, j < n → AtWork m tid ((Interleave.alone (threadStep m maxSteps) tid)^[j] w) →
      CanGo m tid ((Interleave.alone (threadStep m maxSteps) tid)^[j] w)) (i : Nat) (hi : i ≤ n) :
    AtWork m tid ((Interleave.alone (threadStep m maxSteps) tid)^[i] w) := by
  induction i with
  | zero => exact hw
  | succ i ih =>
    have hw := ih (Nat.le_of_succ_le hi)
    rw [Function.iterate_succ_apply']
    exact hw.step maxSteps hm hsize (hgo i hi hw)

/-- A thread at work stays at work and in its slices as long as there is room. -/
theorem AtWork.iterate (h : Verified M m0 m) (htab : m.TableDefined) (hone : m.OneResult)
    (hsize : SizeOk m.memSize m.memSize) (hw : AtWork m tid w) {n : Nat}
    (hroom : ∀ j, j ≤ n → m.roomy ((Interleave.alone (threadStep m maxSteps) tid)^[j] w)) (i : Nat)
    (hi : i ≤ n) : AtWork m tid ((Interleave.alone (threadStep m maxSteps) tid)^[i] w) ∧
      (i < n → CanGo m tid ((Interleave.alone (threadStep m maxSteps) tid)^[i] w)) := by
  have hgo (i : Nat) (hi : i < n) (hw : AtWork m tid ((Interleave.alone (threadStep m maxSteps) tid)^[i] w)) :
      CanGo m tid ((Interleave.alone (threadStep m maxSteps) tid)^[i] w) := by
    have hdeep := hroom (i + 1) hi
    rw [Function.iterate_succ_apply'] at hdeep
    exact hw.canGo h htab hone (hroom i hi.le) hdeep
  have hwork := hw.along h.accepted hsize hgo i hi
  exact ⟨hwork, fun hlt => hgo i hlt hwork⟩

/-- The thread at the entry of a function. -/
theorem AtWork.entry (hm : Accepted m) {f : FuncMeta} (hf : f ∈ m.funcs) (hcode : 0 < f.codeLen)
    {args : List Slot} (hfit : f.nParams + f.nLocals ≤ BENCH_STACK_CAP)
    (hsize : SizeOk m.memSize m.memSize) (maxSteps : Nat) (hs : GpuHostState) :
    AtWork m tid (batchThread m maxSteps f args hs, m.batchArrays f args) := by
  have hframe : (m.batchArrays f args).frames ((m.batchViews tid).frames.idx 0) =
      ⟨0, 0, 0, f.nResults⟩ := by
    unfold HostModule.batchArrays HostModule.batchViews AoSView.idx
    simp
  have hentry : Entry (m.batchViews tid) f
      (World.mach (batchThread m maxSteps f args hs, m.batchArrays f args)) :=
    ⟨rfl, rfl, rfl, rfl, hframe⟩
  exact ⟨hsize, fun n _ => ⟨hfit, show 1 ≤ 64 by decide, f, [], hentry.frameInv hm hf hcode⟩⟩

/-- A thread with the arrays to itself keeps to its slices as long as there is room. -/
theorem alone_private (h : Verified M m0 m) (htab : m.TableDefined) (hone : m.OneResult)
    (hsize : SizeOk m.memSize m.memSize) {k : Nat} {f : FuncMeta} (hk : M.imports.length ≤ k)
    (hf : m.funcs[k]? = some f) {args : List Slot} (hfit : f.nParams + f.nLocals ≤ BENCH_STACK_CAP)
    (hs : GpuHostState) {n : Nat}
    (hroom : ∀ j, j ≤ n → m.roomy (m.alone maxSteps f args hs tid j)) {j : Nat} (hj : j < n) :
    m.Private tid (m.alone maxSteps f args hs tid j) :=
  let hw := (AtWork.entry h.accepted (List.mem_of_getElem? hf)
    (h.code_pos_of hf (h.nHostImports.trans_le hk)) hfit hsize maxSteps hs).iterate h htab hone hsize hroom j
    hj.le
  hw.1.keeps h.accepted (hw.2 hj)

end Alone

/-- The threads of a batch are isolated. Whatever the order of their instructions is, every thread gets
to the state that it gets to alone with as many instructions, as long as none is deeper in calls than
its frames reach. -/
theorem batch_isolated {M : Wasm.Module} {ps : List (Parsed Payload)} {m0 m : HostModule} (hv : M.Valid)
    (he : Encodes M ps) (hm : loadWasm ps = .ok m0) (hver : verifyCuop m0 = .ok m)
    (htab : m.TableDefined) (hone : m.OneResult) {k : Nat} {f : FuncMeta}
    (hk : M.imports.length ≤ k) (hf : m.funcs[k]? = some f)
    (hfit : f.nParams + f.nLocals ≤ BENCH_STACK_CAP) {args : List Slot} {maxSteps : Nat}
    {hs : Nat → GpuHostState} {sched : List Nat}
    (hroom : ∀ tid j, j ≤ sched.count tid → m.roomy (m.alone maxSteps f args (hs tid) tid j))
    (tid : Nat) :
    SameThread (m.batchViews tid) (m.alone maxSteps f args (hs tid) tid (sched.count tid))
      (m.among maxSteps f args hs sched tid) := by
  have hverified : Verified M m0 m := ⟨loadWasm_translated he hm, hv, hver⟩
  have hsize := loaded_sizeOk hm hver
  have hsize' : SizeOk m.memSize m.memSize := ⟨hsize.pages, le_rfl, hsize.le.trans hsize.small⟩
  exact batch_same (fun i j hj =>
    alone_private hverified htab hone hsize' hk hf hfit (hs i) (hroom i) hj) tid

/-- The status of a thread and its first stack slot. -/
def World.outcome (tid : Nat) (w : World) : Option Status × Nat :=
  (w.1.phase.getRight?, (w.2.stack (tid * BENCH_STACK_CAP)).toNat)

/-- The loaded function that asks for the ledger sequence, in two threads that take turns: whether there
is room all the time, and what the threads have got to. -/
def askThreads : Option (Bool × List (Option Status × Nat)) :=
  (loadWasm (askModule (.op (.call 0) .nil)).payloads).toOption.bind fun m0 =>
    (verifyCuop m0).toOption.map fun m =>
      (m.code.all (fun i => i.op != .callHost || i.declared.2 == 1) && m.table == [] &&
          m.funcs[1]? == some askMeta &&
          [0, 1].all fun tid => (List.range 3).all fun j => m.roomy (m.alone 10 askMeta [] {} tid j),
        [0, 1].map fun tid => (m.among 10 askMeta [] (fun _ => {}) [0, 1, 1, 0] tid).outcome tid)

/-- Two threads ask for the ledger sequence, and both get it. -/
theorem threads_ask : ∃ m : HostModule, (∀ tid, SameThread (m.batchViews tid)
      (m.alone 10 askMeta [] {} tid ([0, 1, 1, 0].count tid))
      (m.among 10 askMeta [] (fun _ => {}) [0, 1, 1, 0] tid)) ∧
    [0, 1].map (fun tid => (m.among 10 askMeta [] (fun _ => {}) [0, 1, 1, 0] tid).outcome tid) =
      [(some .ok, 25604), (some .ok, 25604)] := by
  have hload : askThreads = some (true, [(some .ok, 25604), (some .ok, 25604)]) := by decide +kernel
  obtain ⟨m0, m, hm, hver, heval⟩ := loaded_eval hload
  simp only [Prod.mk.injEq, Bool.and_eq_true, beq_iff_eq] at heval
  obtain ⟨⟨⟨⟨hcode, htable⟩, hf⟩, hroom⟩, hout⟩ := heval
  refine ⟨m, batch_isolated askModule_valid rfl hm hver ?_ ?_ le_rfl hf (by decide) ?_, hout⟩
  · intro i fi h
    rw [htable] at h
    cases h
  · intro i hi hop _
    have h := List.all_eq_true.mp hcode i hi
    simpa [hop] using h
  · have hat (tid j : Nat) (ht : tid < 2) (hj : j < 3) : m.roomy (m.alone 10 askMeta [] {} tid j) := by
      have h := List.all_eq_true.mp hroom tid (by simp; omega)
      exact List.all_eq_true.mp h j (List.mem_range.mpr hj)
    intro tid j hj
    obtain rfl | rfl | hne : tid = 0 ∨ tid = 1 ∨ 2 ≤ tid := by omega
    · exact hat 0 j (by decide) (Nat.lt_succ_of_le hj)
    · exact hat 1 j (by decide) (Nat.lt_succ_of_le hj)
    · -- the other threads have not run yet
      have hcount : [0, 1, 1, 0].count tid = 0 := by
        rw [List.count_eq_zero]
        simp
        omega
      obtain rfl : j = 0 := by omega
      have hfirst := hat 0 0 (by decide) (by decide)
      rw [alone_zero] at hfirst ⊢
      exact hfirst

end CuWasm
