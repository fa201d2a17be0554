import CuWasm.Proofs.ControlProofs
import CuWasm.Proofs.VerifyProofs

/-!
# The frame discipline is kept

For a module accepted by `verify_cuop`, an instruction that satisfies `StepOk` takes the frame
invariant to the frame invariant (`step_frame`), touches no stack slot below the frame base and leaves
the frames of the callers alone.
-/

namespace CuWasm

open Exit BlockMove Verify

section Located

variable {m : HostModule} {f : FuncMeta} {rel : Nat}

/-- The flow equations at a located position, with the instruction that stands there. -/
theorem Located.flowAt (hm : Accepted m) (h : Located m f rel) :
    (∃ fl, FlowAt m f (heights m f) ((f.maxStack : Int) - f.locals) rel fl ∧
      FlowCase m f (instrAt m f rel) (heights m f rel) fl) ∧
    m.code[f.codeOff + rel]? = some (instrAt m f rel) := by
  obtain ⟨fi, hfi⟩ := List.mem_iff_getElem?.mp h.mem
  obtain ⟨hlen, hcases⟩ := hm.func fi f hfi
  have hc := h.code
  obtain ⟨h0, _⟩ | ⟨_, st, hst, hmax, _⟩ := hcases
  · omega
  have hh : heights m f = st.height := by
    unfold heights
    rw [hst]
  have hcl := analyse_closed hc hst
  obtain ⟨fl, hfl⟩ := hcl.flowAt rel (by rw [← hh]; exact h.known)
  refine ⟨⟨fl, ?_, ?_⟩, ?_⟩
  · rw [hh, show (f.maxStack : Int) - f.locals = st.maxH by unfold FuncMeta.locals; omega]
    exact hfl
  · rw [hh]
    exact flow_cases (hh ▸ h.known) hfl.flow
  · have hlt := hfl.lt
    unfold instrAt
    rw [List.getD_eq_getElem?_getD, List.getElem?_eq_getElem (by omega)]
    rfl

/-- Every function with code can be entered. -/
theorem located_zero (hm : Accepted m) (hf : f ∈ m.funcs) (hc : 0 < f.codeLen) :
    Located m f 0 ∧ heights m f 0 = 0 := by
  obtain ⟨fi, hfi⟩ := List.mem_iff_getElem?.mp hf
  obtain ⟨_, hcases⟩ := hm.func fi f hfi
  obtain ⟨h0, _⟩ | ⟨_, st, hst, _, _⟩ := hcases
  · omega
  have hh : heights m f 0 = 0 := by
    unfold heights
    rw [hst]
    exact (analyse_closed hc hst).start
  exact ⟨⟨hf, hc, by rw [hh]⟩, hh⟩

end Located

section Frames

variable {v : Views} {m : HostModule} {f : FuncMeta} {gs : List FuncMeta} {s s' : Mach}

/-- What an instruction of the activation with frame base `s.fp` leaves alone. -/
structure Kept (v : Views) (s s' : Mach) : Prop where
  log : ∀ a ∈ s'.log, a.region = .stack → v.stack.idx s.fp ≤ a.start
  stack : ∀ j, j < s.fp → s'.stack (v.stack.idx j) = s.stack (v.stack.idx j)
  frames : 1 < s.csp → ∀ k, k < s.csp → s'.frames (v.frames.idx k) = s.frames (v.frames.idx k)

/-- Where an instruction takes the activation of `f` with callers `gs`. -/
inductive Moves (v : Views) (m : HostModule) (f : FuncMeta) (gs : List FuncMeta) (s s' : Mach) :
    Prop where
  | same (h : FrameInv v m f gs s') (hfp : s'.fp = s.fp)
  | tail (g : FuncMeta) (h : FrameInv v m g gs s') (hfp : s'.fp = s.fp)
      (hop : ∃ i, m.code[s.pc]? = some i ∧ i.op = .returnCall ∧ m.funcs[i.b]? = some g)
  | call (g : FuncMeta) (h : FrameInv v m g (f :: gs) s')
      (hst : ∀ j, j < s'.fp → s'.stack (v.stack.idx j) = s.stack (v.stack.idx j))
      (hfr : s'.frames (v.frames.idx s.csp) = ⟨s.pc + 1, s.fp, s'.fp, g.nResults⟩)
  | ret (g : FuncMeta) (gs' : List FuncMeta) (hgs : gs = g :: gs') (h : FrameInv v m g gs' s')
      (hpc : s'.pc = (s.frames (v.frames.idx (s.csp - 1))).retPc)
      (hfp : s'.fp = (s.frames (v.frames.idx (s.csp - 1))).fp)
      (hsp : s'.sp = (s.frames (v.frames.idx (s.csp - 1))).spBase +
        (s.frames (v.frames.idx (s.csp - 1))).nResults)
      (hres : f.nResults + s.fp + f.locals ≤ s.sp ∧ ∀ j, j < f.nResults →
        s'.stack (v.stack.idx (s.fp + j)) = s.stack (v.stack.idx (s.sp - f.nResults + j)))
      (hop : ∃ i, m.code[s.pc]? = some i ∧ (i.op = .ret ∨ i.op = .endFunc))

/-- The machine waiting for the results of a host call. -/
structure Awaits (v : Views) (m : HostModule) (f : FuncMeta) (gs : List FuncMeta) (s : Mach) :
    Prop where
  pc : f.codeOff ≤ s.pc
  located : Located m f (s.pc - f.codeOff)
  sp : (s.sp : Int) + s.hostNResults = s.fp + f.locals + heights m f (s.pc - f.codeOff)
  base : s.fp + f.locals ≤ s.sp
  csp : s.csp = gs.length + 1
  callers : Callers v m s.frames gs f s.fp
  small : s.sp < 2 ^ 31

/-- The outcome of an instruction. -/
def Outcome (v : Views) (m : HostModule) (f : FuncMeta) (gs : List FuncMeta) (s : Mach) :
    EStateM.Result Status Mach Unit → Prop
  | .ok _ s' => Kept v s s' ∧ (s'.sp ≤ STACK_CAP → Moves v m f gs s s')
  | .error e s' => Kept v s s' ∧ (e = .hostcallPending → s'.fp = s.fp ∧ Awaits v m f gs s')

theorem Callers.congr {fr fr' : Nat → Frame} {fp : Nat}
    (h : ∀ k, k ≤ gs.length → fr' (v.frames.idx k) = fr (v.frames.idx k))
    (hc : Callers v m fr gs f fp) : Callers v m fr' gs f fp := by
  induction gs generalizing f fp with
  | nil =>
    unfold Callers at hc ⊢
    rw [h 0 (by simp)]
    exact hc
  | cons g gs ih =>
    unfold Callers at hc ⊢
    rw [List.length_cons] at h
    rw [h (gs.length + 1) le_rfl]
    exact ⟨hc.1, hc.2.1, hc.2.2.1, ih (fun k hk => h k (by omega)) hc.2.2.2⟩

theorem Kept.of_log (s : Mach) {t : Mach} (hlog : t.log = []) (hs : t.stack = s.stack)
    (hf : t.frames = s.frames) : Kept v s t := by
  refine ⟨fun a ha => ?_, fun j _ => by rw [hs], fun _ k _ => by rw [hf]⟩
  rw [hlog] at ha
  cases ha

/-- Going on with the next instruction of the same activation. -/
theorem FrameInv.next (hinv : FrameInv v m f gs s) (hpc : s'.pc = s.pc + 1) (hfp : s'.fp = s.fp)
    (hcsp : s'.csp = s.csp) (hfr : s'.frames = s.frames)
    (hloc : Located m f (s.pc - f.codeOff + 1))
    (hsp : (s'.sp : Int) = s.fp + f.locals + heights m f (s.pc - f.codeOff + 1))
    (hcap : s'.sp ≤ STACK_CAP) : FrameInv v m f gs s' := by
  have hpc0 := hinv.pc
  have hrel : s'.pc - f.codeOff = s.pc - f.codeOff + 1 := by omega
  refine ⟨by omega, by rw [hrel]; exact hloc, by rw [hrel, hfp]; exact hsp,
    by rw [hcsp, hinv.csp], by rw [hfr, hfp]; exact hinv.callers, ?_⟩
  unfold STACK_CAP at hcap
  omega

/-- Going on at a branch target of the same activation. -/
theorem FrameInv.jump {t : Nat} (hinv : FrameInv v m f gs s) (hpc : s'.pc = t)
    (hfp : s'.fp = s.fp) (hcsp : s'.csp = s.csp) (hfr : s'.frames = s.frames) (ht : f.codeOff ≤ t)
    (hloc : Located m f (t - f.codeOff))
    (hsp : (s'.sp : Int) = s.fp + f.locals + heights m f (t - f.codeOff))
    (hcap : s'.sp ≤ STACK_CAP) : FrameInv v m f gs s' := by
  refine ⟨by omega, by rw [hpc]; exact hloc, by rw [hpc, hfp]; exact hsp,
    by rw [hcsp, hinv.csp], by rw [hfr, hfp]; exact hinv.callers, ?_⟩
  unfold STACK_CAP at hcap
  omega

variable (hm : Accepted m) (hinv : FrameInv v m f gs s)

include hm hinv

/-- The instruction about to be fetched and what the analysis decided about it. -/
theorem FrameInv.instr :
    m.code[s.pc]? = some (instrAt m f (s.pc - f.codeOff)) ∧
    ∃ fl, FlowAt m f (heights m f) ((f.maxStack : Int) - f.locals) (s.pc - f.codeOff) fl ∧
      FlowCase m f (instrAt m f (s.pc - f.codeOff)) (heights m f (s.pc - f.codeOff)) fl := by
  obtain ⟨hfl, hcode⟩ := hinv.located.flowAt hm
  have hpc := hinv.pc
  rw [show f.codeOff + (s.pc - f.codeOff) = s.pc by omega] at hcode
  exact ⟨hcode, hfl⟩

omit hm in
theorem FrameInv.located_of {r : Nat} {h : Int} (hh : 0 ≤ h) (hr : heights m f r = h) :
    Located m f r :=
  ⟨hinv.located.mem, hinv.located.code, by rw [hr]; exact hh⟩

omit hm in
/-- A plain instruction. -/
theorem frame_plain {p q : Nat} {i : CuOp} (he : effect i = some (p, q))
    (hp : (p : Int) ≤ heights m f (s.pc - f.codeOff))
    (hnext : heights m f (s.pc - f.codeOff + 1) = heights m f (s.pc - f.codeOff) - p + q) :
    Outcome v m f gs s (Run.exec v m.dev i (Run.fetched s)) := by
  have hsp := hinv.sp
  have hspec := spec_exec (v := v) (s := Run.fetched s) m.dev he (by simp only [Run.fetched]; omega)
    (Run.fetched s) ⟨PlainFrame.refl v i p _, rfl, rfl⟩
  have hkept : ∀ t, PlainFrame v i p (Run.fetched s) t → Kept v s t := by
    intro t ht
    refine ⟨fun a ha hr => ?_, fun j hj => ?_, fun _ k _ => by rw [ht.frames]; rfl⟩
    · rcases ht.log a ha with h | h
      · cases h
      · unfold PlainAccess at h
        simp only [hr, Run.fetched] at h
        obtain ⟨j, hj, _, h⟩ := h
        rw [hj]
        unfold AoSView.idx
        obtain ⟨h, _⟩ | ⟨k, _, rfl⟩ := h <;> omega
    · exact ht.below j (by simp only [Run.fetched]; omega)
        fun k _ => by simp only [Run.fetched]; omega
  cases hx : Run.exec v m.dev i (Run.fetched s) with
  | ok a t =>
    obtain ⟨hf, ht⟩ := hspec.1 a t hx
    refine ⟨hkept t hf, fun hcap => .same ?_ (by rw [hf.fp]; rfl)⟩
    refine hinv.next (by rw [hf.pc]; rfl) (by rw [hf.fp]; rfl) (by rw [hf.csp]; rfl)
      (by rw [hf.frames]; rfl) (hinv.located_of (by omega) hnext) ?_ hcap
    simp only [Run.fetched] at ht
    rw [hnext]
    omega
  | error e t =>
    obtain ⟨hf, he⟩ := hspec.2 e t hx
    refine ⟨hkept t hf, ?_⟩
    rintro rfl
    exact he.elim

omit hm in
/-- `OP_UNWIND`. -/
theorem frame_unwind {a b : Nat} (h0 : 0 ≤ toI32 b - f.nParams - f.nLocals)
    (h1 : toI32 b - f.nParams - f.nLocals ≤ heights m f (s.pc - f.codeOff))
    (hok : a ≤ b % 2 ^ 32 ∨ s.sp = (s.fp + b) % 2 ^ 32 ∨ (s.fp + b) % 2 ^ 32 < a ∨
      STACK_CAP < (s.fp + b) % 2 ^ 32)
    (hnext : heights m f (s.pc - f.codeOff + 1) = toI32 b - f.nParams - f.nLocals) :
    Outcome v m f gs s (Run.unwind v a b (Run.fetched s)) := by
  have hsp := hinv.sp
  have hsmall := hinv.small
  have hb : toI32 b = (b % 2 ^ 32 : Nat) := toI32_of_nonneg (by omega)
  have hloc : (f.locals : Int) = f.nParams + f.nLocals := by unfold FuncMeta.locals; omega
  have hdest : (s.fp + b) % 2 ^ 32 = s.fp + b % 2 ^ 32 := by omega
  rw [Run.unwind_apply]
  rw [hdest] at hok
  simp only [Run.fetched, hdest]
  split_ifs with hc hne
  · exact ⟨Kept.of_log s rfl rfl rfl, fun h => by cases h⟩
  · refine ⟨⟨fun x hx _ => ?_, fun j hj => ?_, fun _ _ _ => rfl⟩, fun hcap => ?_⟩
    · simp only [List.mem_cons, List.not_mem_nil, or_false] at hx
      rcases hx with rfl | rfl <;> simp only [AoSView.idx] <;> omega
    · exact blockMove_of_not_mem _ (.inl (by simp only [AoSView.idx]; omega))
    · exact .same (hinv.next rfl rfl rfl rfl (hinv.located_of (by omega) hnext)
        (by simp only; omega) hcap) rfl
  · -- the operands are where they belong
    rw [not_not.mp hne, blockMove_self]
    exact ⟨⟨fun x hx => (by cases hx), fun _ _ => rfl, fun _ _ _ => rfl⟩, fun hcap =>
      .same (hinv.next rfl rfl rfl rfl (hinv.located_of (by omega) hnext)
        (by simp only; omega) hcap) rfl⟩

omit hm in
/-- `OP_BR`. -/
theorem frame_br {b : Nat} (hb : f.codeOff ≤ b)
    (htgt : heights m f (b - f.codeOff) = heights m f (s.pc - f.codeOff)) :
    Outcome v m f gs s (Run.br b (Run.fetched s)) := by
  have hsp := hinv.sp
  have hk := hinv.located.known
  rw [Run.br_apply]
  split_ifs
  · exact ⟨Kept.of_log s rfl rfl rfl, fun h => by cases h⟩
  · refine ⟨Kept.of_log s rfl rfl rfl, fun hcap => .same ?_ rfl⟩
    exact hinv.jump rfl rfl rfl rfl hb (hinv.located_of hk htgt) (by rw [htgt]; exact hsp) hcap
  · refine ⟨Kept.of_log s rfl rfl rfl, fun hcap => .same ?_ rfl⟩
    exact hinv.jump rfl rfl rfl rfl hb (hinv.located_of hk htgt) (by rw [htgt]; exact hsp) hcap

omit hm in
/-- `OP_BR_IF_NOT`. -/
theorem frame_brIfNot {i : CuOp} (hop : i.op = .brIfNot) (hb : f.codeOff ≤ i.b)
    (h1 : 1 ≤ heights m f (s.pc - f.codeOff))
    (htgt : heights m f (i.b - f.codeOff) = heights m f (s.pc - f.codeOff) - 1)
    (hnext : heights m f (s.pc - f.codeOff + 1) = heights m f (s.pc - f.codeOff) - 1) :
    Outcome v m f gs s (Run.exec v m.dev i (Run.fetched s)) := by
  have hsp := hinv.sp
  have hdec : dec32 s.sp = s.sp - 1 := dec32_of_pos (by omega)
  simp only [Run.exec, hop, bind_apply, Run.pop_apply, Run.fetched, ite_run, modify_apply, pure_apply,
    hdec]
  have hkept : ∀ pc, Kept v s { s with
      pc := pc, sp := s.sp - 1, log := [⟨.stack, v.stack.idx (s.sp - 1), 1⟩] } := by
    refine fun pc => ⟨fun x hx _ => ?_, fun _ _ => rfl, fun _ _ _ => rfl⟩
    rw [List.mem_singleton.mp hx]
    simp only [AoSView.idx]
    omega
  split_ifs
  · refine ⟨hkept _, fun hcap => .same ?_ rfl⟩
    exact hinv.jump rfl rfl rfl rfl hb (hinv.located_of (by omega) htgt)
      (by rw [htgt]; simp only; omega) hcap
  · refine ⟨hkept _, fun hcap => .same ?_ rfl⟩
    exact hinv.next rfl rfl rfl rfl (hinv.located_of (by omega) hnext)
      (by rw [hnext]; simp only; omega) hcap

/-- Entering a callee from the machine `t` whose operands are the arguments. -/
theorem frame_enter {g : FuncMeta} {t : Mach} (np : Nat) (hg : g ∈ m.funcs) (hgc : 0 < g.codeLen)
    (hsite : CallSite m f (s.pc - f.codeOff) np g.nResults) (hpc : t.pc = s.pc + 1)
    (hfp : t.fp = s.fp) (hcsp : t.csp = s.csp) (hfr : t.frames = s.frames) (hst : t.stack = s.stack)
    (hlog : Kept v s t) (hle : s.fp + g.nParams ≤ t.sp)
    (hsp : (t.sp : Int) - g.nParams = s.fp + f.locals + heights m f (s.pc - f.codeOff) - np) :
    Outcome v m f gs s (Run.enter v g t) := by
  have hpc0 := hinv.pc
  have hkept : ∀ n pc, Kept v s { Run.zeroed v n (Run.framed v g t) with pc := pc } := by
    intro n pc
    refine ⟨fun x hx hr => ?_, fun j hj => ?_, fun _ k hk => ?_⟩
    · simp only [Run.zeroed, Run.framed, List.mem_append, List.mem_map, List.mem_cons] at hx
      rcases hx with ⟨k, _, rfl⟩ | rfl | hx
      · simp only [AoSView.idx]
        omega
      · cases hr
      · exact hlog.log x hx hr
    · simp only [Run.zeroed, Run.framed, fillAsc_apply, AoSView.idx]
      rw [if_neg (by omega), hst]
    · simp only [Run.zeroed, Run.framed]
      rw [Function.update_of_ne (by rw [ne_eq, AoSView.idx_inj]; omega), hfr]
  rw [Run.enter_apply]
  split_ifs with h1 h2
  · exact ⟨hlog, fun h => by cases h⟩
  · exact ⟨hlog, fun h => by cases h⟩
  · rw [Run.pushZeros_apply]
    split_ifs with h3
    · refine ⟨hkept _ _, fun hcap => .call g ?_ ?_ ?_⟩
      · obtain ⟨hloc, hz⟩ := located_zero hm hg hgc
        refine ⟨le_rfl, by simpa using hloc, ?_, ?_, ?_, ?_⟩
        · simp only [Run.zeroed, Run.framed, Nat.sub_self, hz, FuncMeta.locals]
          omega
        · simp only [Run.zeroed, Run.framed, List.length_cons]
          rw [hcsp, hinv.csp]
        · unfold Callers
          simp only [Run.zeroed, Run.framed, hcsp, hinv.csp, Function.update_self, Run.callFrame]
          refine ⟨trivial, trivial, ⟨s.pc - f.codeOff, np, by omega, hsite, ?_⟩, ?_⟩
          · rw [hfp]
            omega
          · rw [hfp]
            refine Callers.congr (fun k hk => ?_) hinv.callers
            rw [Function.update_of_ne (by rw [ne_eq, AoSView.idx_inj]; omega), hfr]
        · unfold STACK_CAP at hcap
          omega
      · intro j hj
        simp only [Run.zeroed, Run.framed, fillAsc_apply] at hj ⊢
        rw [if_neg (by simp only [AoSView.idx]; omega), hst]
      · simp only [Run.zeroed, Run.framed, hcsp, Function.update_self, Run.callFrame, hpc, hfp]
    · exact ⟨hkept _ _, fun h => by cases h⟩

omit hm in
/-- `OP_RETURN` and `OP_END_FUNC`. -/
theorem frame_leave (hres : (f.nResults : Int) ≤ heights m f (s.pc - f.codeOff))
    (hop : ∃ i, m.code[s.pc]? = some i ∧ (i.op = .ret ∨ i.op = .endFunc)) :
    Outcome v m f gs s (Run.leave v (Run.fetched s)) := by
  have hsp := hinv.sp
  have hcsp := hinv.csp
  have hcall := hinv.callers
  have hfr : (s.frames (v.frames.idx (s.csp - 1))).spBase = s.fp ∧
      (s.frames (v.frames.idx (s.csp - 1))).nResults = f.nResults := by
    rw [hcsp]
    cases gs with
    | nil => exact hcall
    | cons g gs => exact ⟨hcall.1, hcall.2.1⟩
  have h0 : ¬ (Run.fetched s).csp = 0 := by simp only [Run.fetched]; omega
  have h1 : ¬ (Run.fetched s).sp <
      ((Run.fetched s).frames (v.frames.idx ((Run.fetched s).csp - 1))).nResults := by
    simp only [Run.fetched]
    omega
  rw [Run.leave_apply]
  simp only [if_neg h0, if_neg h1]
  have hlog : ∀ x ∈ [(⟨.stack, v.stack.idx (s.frames (v.frames.idx (s.csp - 1))).spBase,
        (s.frames (v.frames.idx (s.csp - 1))).nResults⟩ : Access),
      ⟨.stack, v.stack.idx (s.sp - (s.frames (v.frames.idx (s.csp - 1))).nResults),
        (s.frames (v.frames.idx (s.csp - 1))).nResults⟩,
      ⟨.frames, v.frames.idx (s.csp - 1), 1⟩], x.region = .stack → v.stack.idx s.fp ≤ x.start := by
    intro x hx hr
    simp only [List.mem_cons, List.not_mem_nil, or_false] at hx
    rcases hx with rfl | rfl | rfl
    · exact v.stack.idx_le.mpr (by omega)
    · exact v.stack.idx_le.mpr (by omega)
    · cases hr
  have hstack : ∀ j, j < s.fp →
      blockMove s.stack (v.stack.idx (s.frames (v.frames.idx (s.csp - 1))).spBase)
        (v.stack.idx (s.sp - (s.frames (v.frames.idx (s.csp - 1))).nResults))
        (s.frames (v.frames.idx (s.csp - 1))).nResults (v.stack.idx j) = s.stack (v.stack.idx j) :=
    fun j hj => blockMove_of_not_mem _ (.inl (v.stack.idx_lt.mpr (by omega)))
  have hmove : ∀ j, j < f.nResults →
      blockMove s.stack (v.stack.idx (s.frames (v.frames.idx (s.csp - 1))).spBase)
        (v.stack.idx (s.sp - (s.frames (v.frames.idx (s.csp - 1))).nResults))
        (s.frames (v.frames.idx (s.csp - 1))).nResults (v.stack.idx (s.fp + j)) =
      s.stack (v.stack.idx (s.sp - f.nResults + j)) := by
    intro j hj
    rw [hfr.1, hfr.2]
    simp only [AoSView.idx, ← Nat.add_assoc]
    exact blockMove_of_mem _ hj
  cases gs with
  | nil =>
    rw [if_pos (show (Run.fetched s).csp = 1 from hcsp)]
    exact ⟨⟨hlog, hstack, fun _ _ _ => rfl⟩, fun h => by cases h⟩
  | cons g gs' =>
    rw [List.length_cons] at hcsp
    rw [if_neg (show ¬ (Run.fetched s).csp = 1 by simp only [Run.fetched]; omega)]
    refine ⟨⟨hlog, hstack, fun _ _ _ => rfl⟩,
      fun hcap => .ret g gs' rfl ?_ rfl rfl rfl ⟨by omega, hmove⟩ hop⟩
    simp only [Run.fetched] at hcap ⊢
    obtain ⟨h1, h2, ⟨rel, np, hret, hsite, hfp⟩, hrest⟩ := hcall
    rw [hcsp, Nat.add_sub_cancel] at *
    have hnext := hsite.next
    have hen := hsite.enough
    have hrel : g.codeOff + rel + 1 - g.codeOff = rel + 1 := by omega
    refine ⟨?_, ?_, ?_, rfl, hrest, ?_⟩
    · simp only
      omega
    · simp only [hret, hrel]
      exact ⟨hsite.located.mem, hsite.located.code, by rw [hnext]; omega⟩
    · simp only [hret, hrel, hnext]
      omega
    · simp only
      unfold STACK_CAP at hcap
      omega

/-- `OP_RETURN_CALL`. -/
theorem frame_returnCall {g : FuncMeta} (hg : g ∈ m.funcs) (hgc : 0 < g.codeLen)
    (hp : (g.nParams : Int) ≤ heights m f (s.pc - f.codeOff))
    (hres : 1 < s.csp → g.nResults = (s.frames (v.frames.idx (s.csp - 1))).nResults)
    (hop : ∃ i, m.code[s.pc]? = some i ∧ i.op = .returnCall ∧ m.funcs[i.b]? = some g) :
    Outcome v m f gs s (Run.returnCall v g (Run.fetched s)) := by
  have hsp := hinv.sp
  have hcsp := hinv.csp
  have hcall := hinv.callers
  have hlog : ∀ n, ∀ x ∈ (Run.zeroed v n (Run.rebased v g (Run.fetched s))).log,
      x.region = .stack → v.stack.idx s.fp ≤ x.start := by
    intro n x hx _
    simp only [Run.zeroed, Run.rebased, Run.fetched, List.mem_append, List.mem_map, List.mem_cons,
      List.not_mem_nil, or_false] at hx
    rcases hx with ⟨k, _, rfl⟩ | rfl | rfl <;> simp only [AoSView.idx] <;> omega
  have hstack : ∀ n j, j < s.fp →
      (Run.zeroed v n (Run.rebased v g (Run.fetched s))).stack (v.stack.idx j) =
        s.stack (v.stack.idx j) := by
    intro n j hj
    simp only [Run.zeroed, Run.rebased, Run.fetched, fillAsc_apply]
    rw [if_neg (by simp only [AoSView.idx]; omega)]
    exact blockMove_of_not_mem _ (.inl (by simp only [AoSView.idx]; omega))
  rw [Run.returnCall_apply]
  rw [if_neg (by simp only [Run.fetched]; omega), Run.pushZeros_apply]
  split_ifs with h3
  · have hpos : (Run.fetched s).csp > 0 := by simp only [Run.fetched]; omega
    simp only [Run.retargeted, if_pos hpos]
    refine ⟨⟨fun x hx hr => ?_, hstack _, fun hk k hlt => ?_⟩, fun hcap => .tail g ?_ rfl hop⟩
    · simp only [List.mem_cons] at hx
      rcases hx with rfl | rfl | hx
      · cases hr
      · cases hr
      · exact hlog _ x hx hr
    · simp only [Run.zeroed, Run.rebased, Run.fetched]
      by_cases hk' : k = s.csp - 1
      · rw [hk', Function.update_self, hres hk]
      · rw [Function.update_of_ne (by rw [ne_eq, AoSView.idx_inj]; exact hk')]
    · obtain ⟨hloc, hz⟩ := located_zero hm hg hgc
      refine ⟨le_rfl, by simpa using hloc, ?_, hcsp, ?_, ?_⟩
      · simp only [Run.zeroed, Run.rebased, Run.fetched, Nat.sub_self, hz, FuncMeta.locals]
        omega
      · simp only [Run.zeroed, Run.rebased, Run.fetched, hcsp, Nat.add_sub_cancel]
        rw [hcsp, Nat.add_sub_cancel] at hres
        cases gs with
        | nil =>
          unfold Callers at hcall ⊢
          simp only [List.length_nil, Function.update_self]
          exact ⟨hcall.1, trivial⟩
        | cons g0 gs0 =>
          unfold Callers at hcall ⊢
          simp only [List.length_cons, Function.update_self] at hres ⊢
          obtain ⟨h1, h2, ⟨rel, np, hret, hsite, hfp⟩, hrest⟩ := hcall
          refine ⟨h1, trivial, ⟨rel, np, hret, ?_, hfp⟩, ?_⟩
          · rw [hres (by omega), h2]
            exact hsite
          · refine Callers.congr (fun k hk => ?_) hrest
            rw [Function.update_of_ne (by rw [ne_eq, AoSView.idx_inj]; omega)]
      · unfold STACK_CAP at hcap
        omega
  · exact ⟨⟨hlog _, hstack _, fun _ _ _ => rfl⟩, fun h => by cases h⟩

omit hm in
/-- `OP_CALL_HOST`. -/
theorem frame_callHost {a b : Nat}
    (hp : ((a &&& 0xff : Nat) : Int) ≤ heights m f (s.pc - f.codeOff))
    (hnext : heights m f (s.pc - f.codeOff + 1) = heights m f (s.pc - f.codeOff) -
      ((a &&& 0xff : Nat) : Int) + (((a >>> 8) &&& 0xff : Nat) : Int)) :
    Outcome v m f gs s (Run.callHost v a b (Run.fetched s)) := by
  have hsp := hinv.sp
  have hpc := hinv.pc
  have hsmall := hinv.small
  rw [Run.callHost_apply]
  split_ifs
  · exact ⟨Kept.of_log s rfl rfl rfl, fun h => by cases h⟩
  · exact ⟨Kept.of_log s rfl rfl rfl, fun h => by cases h⟩
  · refine ⟨⟨fun x hx _ => ?_, fun _ _ => rfl, fun _ _ _ => rfl⟩, fun _ => ⟨rfl, ?_⟩⟩
    · simp only [Run.suspended, Run.fetched, List.mem_singleton] at hx
      rw [hx]
      simp only [AoSView.idx]
      omega
    · have hrel : s.pc + 1 - f.codeOff = s.pc - f.codeOff + 1 := by omega
      refine ⟨?_, ?_, ?_, ?_, hinv.csp, hinv.callers, ?_⟩
      · simp only [Run.suspended, Run.fetched]
        omega
      · simp only [Run.suspended, Run.fetched, hrel]
        exact hinv.located_of (by omega) hnext
      · simp only [Run.suspended, Run.fetched, hrel, hnext]
        omega
      · simp only [Run.suspended, Run.fetched]
        omega
      · simp only [Run.suspended, Run.fetched]
        omega

/-- One instruction of the machine before the test behind the `switch`. -/
theorem frame_exec (hok : StepOk v m s) :
    Outcome v m f gs s
      (Run.exec v m.dev (instrAt m f (s.pc - f.codeOff)) (Run.fetched s)) := by
  obtain ⟨hcode, fl, hfl, hcase⟩ := hinv.instr hm
  have hok := hok _ hcode
  have hk := hinv.located.known
  have hsp := hinv.sp
  have hpos : 0 < f.codeLen := hinv.located.code
  generalize hi : instrAt m f (s.pc - f.codeOff) = i at *
  cases hcase with
  | plain he hp => exact frame_plain hinv he hp (hfl.fall rfl).2
  | unwind hop h0 h1 =>
    simp only [hop] at hok
    simp only [Run.exec, hop]
    exact frame_unwind hinv h0 h1 hok (hfl.fall rfl).2
  | br hop h1 h2 =>
    simp only [Run.exec, hop]
    exact frame_br hinv h1 (hfl.target _ rfl).2
  | brIfNot hop h0 h1 h2 =>
    exact frame_brIfNot hinv hop h1 h0 (hfl.target _ rfl).2 (hfl.fall rfl).2
  | @call g hop hg hp =>
    simp only [hop] at hok
    have hfun : m.dev.funcs[i.b]? = some g := hg
    simp only [Run.exec, hop, hfun]
    refine frame_enter hm hinv _ (List.mem_of_getElem? hg) (hok g hg)
      ⟨hinv.located, hp, (hfl.fall rfl).2, .inl ⟨g, by rw [hi]; exact hop, by rw [hi]; exact hg,
        rfl, rfl⟩⟩ rfl rfl rfl rfl rfl (Kept.of_log s rfl rfl rfl) ?_ ?_
    · simp only [Run.fetched]
      omega
    · simp only [Run.fetched]
      omega
  | @returnCall g hop hg hp =>
    simp only [hop] at hok
    have hfun : m.dev.funcs[i.b]? = some g := hg
    simp only [Run.exec, hop, hfun]
    exact frame_returnCall hm hinv (List.mem_of_getElem? hg) (hok g hg).1 hp (hok g hg).2
      ⟨i, hcode, hop, hg⟩
  | leave hop hp =>
    rcases hop with hop | hop
    · simp only [Run.exec, hop]
      exact frame_leave hinv hp ⟨i, hcode, .inl hop⟩
    · simp only [Run.exec, hop]
      exact frame_leave hinv hp ⟨i, hcode, .inr hop⟩
  | unreachable hop =>
    simp only [Run.exec, hop, throw_apply]
    exact ⟨Kept.of_log s rfl rfl rfl, fun h => by cases h⟩
  | callHost hop hp =>
    simp only [Run.exec, hop]
    exact frame_callHost hinv hp (hfl.fall rfl).2
  | @callIndirect fpv hop hfp hp =>
    simp only [hop] at hok
    have hdec : dec32 (Run.fetched s).sp = s.sp - 1 :=
      dec32_of_pos (show 0 < (Run.fetched s).sp by simp only [Run.fetched]; omega)
    simp only [Run.exec, hop, bind_apply, Run.pop_apply, hdec, Run.indirectCallee_apply]
    have hkept : Kept v s { Run.fetched s with
        sp := s.sp - 1, log := [⟨.stack, v.stack.idx (s.sp - 1), 1⟩] } := by
      refine ⟨fun x hx _ => ?_, fun _ _ => rfl, fun _ _ _ => rfl⟩
      rw [List.mem_singleton.mp hx]
      exact v.stack.idx_le.mpr (by omega)
    cases ht : Run.indirectTarget m.dev i.b
        (u32 ((Run.fetched s).stack (v.stack.idx (s.sp - 1)))).toNat with
    | none => exact ⟨hkept, fun h => by cases h⟩
    | some g =>
      obtain ⟨hgc, hnp, hnr⟩ := hok g fpv ht hfp
      have hnext := (hfl.fall rfl).2
      refine frame_enter hm hinv (1 + (fpv &&& 0xff)) (Run.indirectTarget_mem ht) hgc
        ⟨hinv.located, by push_cast; exact hp, by rw [hnr, hnext]; push_cast; rfl,
          .inr ⟨fpv, by rw [hi]; exact hop, by rw [hi]; exact hfp, rfl, hnr⟩⟩
        rfl rfl rfl rfl rfl hkept ?_ ?_
      · simp only
        omega
      · simp only
        push_cast
        omega

/-- An instruction that satisfies `StepOk` keeps the frame discipline. -/
theorem step_frame (hok : StepOk v m s) :
    match Run.step v m.dev s with
    | .ok _ s' => Kept v s s' ∧ s'.sp ≤ STACK_CAP ∧ Moves v m f gs s s'
    | .error e s' => Kept v s s' ∧ (e = .hostcallPending → s'.fp = s.fp ∧ Awaits v m f gs s') := by
  have hcode : m.dev.code[s.pc]? = some (instrAt m f (s.pc - f.codeOff)) := (hinv.instr hm).1
  have hout := frame_exec hm hinv hok
  rw [Run.step_apply, hcode]
  simp only
  cases hx : Run.exec v m.dev (instrAt m f (s.pc - f.codeOff)) (Run.fetched s) with
  | error e t =>
    rw [hx] at hout
    exact hout
  | ok a t =>
    rw [hx] at hout
    obtain ⟨hkept, hmoves⟩ := hout
    simp only
    split_ifs with hcap
    · exact ⟨hkept, fun h => by cases h⟩
    · exact ⟨hkept, by omega, hmoves (by omega)⟩

omit hm in
/-- Re-entering `run_instance` keeps the frame invariant. -/
theorem FrameInv.reenter (h : Resumes v 0 s s') : FrameInv v m f gs s' := by
  have hsp := h.sp
  refine ⟨?_, ?_, ?_, ?_, ?_, ?_⟩
  · rw [h.pc]
    exact hinv.pc
  · rw [h.pc]
    exact hinv.located
  · rw [h.pc, h.fp, hsp]
    exact hinv.sp
  · rw [h.csp]
    exact hinv.csp
  · rw [h.frames, h.fp]
    exact hinv.callers
  · rw [hsp]
    exact hinv.small

omit hm hinv in
/-- The results of a host call restore the frame invariant. -/
theorem Awaits.resume (ha : Awaits v m f gs s) (h : Resumes v s.hostNResults s s') :
    FrameInv v m f gs s' := by
  have hsp := h.sp
  have hfits := h.fits
  have hsmall := ha.small
  have hsp' := ha.sp
  refine ⟨?_, ?_, ?_, ?_, ?_, ?_⟩
  · rw [h.pc]
    exact ha.pc
  · rw [h.pc]
    exact ha.located
  · rw [h.pc, h.fp, hsp]
    push_cast
    exact hsp'
  · rw [h.csp]
    exact ha.csp
  · rw [h.frames, h.fp]
    exact ha.callers
  · unfold STACK_CAP at hfits
    omega

/-- What one step of a run does to the activation of `f`. -/
theorem go_frame (hok : StepOk v m s) (hg : Go v m Declared s s') :
    (∃ f' gs', FrameInv v m f' gs' s') ∧
    (∀ j, j < s.fp → s'.stack (v.stack.idx j) = s.stack (v.stack.idx j)) ∧
    (1 < s.csp → ∀ k, k < s.csp → s'.frames (v.frames.idx k) = s.frames (v.frames.idx k)) := by
  have hstep := step_frame hm hinv hok
  cases hg with
  | step h =>
    rw [h] at hstep
    obtain ⟨hk, _, hmv⟩ := hstep
    refine ⟨?_, hk.stack, hk.frames⟩
    cases hmv with
    | same h _ => exact ⟨f, gs, h⟩
    | tail g h _ _ => exact ⟨g, gs, h⟩
    | call g h _ _ => exact ⟨g, f :: gs, h⟩
    | ret g gs' _ h _ _ _ _ _ => exact ⟨g, gs', h⟩
  | reenter h =>
    have hsp := hinv.sp
    have hkn := hinv.located.known
    exact ⟨⟨f, gs, hinv.reenter h⟩, fun j hj => h.stack j (by omega), fun _ k _ => by rw [h.frames]⟩
  | @host t _ _ h hn h' =>
    subst hn
    rw [h] at hstep
    obtain ⟨hk, haw⟩ := hstep
    obtain ⟨hfp, haw⟩ := haw rfl
    refine ⟨⟨f, gs, haw.resume h'⟩, fun j hj => ?_, fun h1 k hlt => ?_⟩
    · have hbase := haw.base
      rw [h'.stack j (by omega), hk.stack j hj]
    · rw [h'.frames, hk.frames h1 k hlt]

omit hinv in
/-- The frame invariant holds at the entry of every function with code. -/
theorem Entry.frameInv (hf : f ∈ m.funcs) (hc : 0 < f.codeLen) (he : Entry v f s) :
    FrameInv v m f [] s := by
  obtain ⟨hloc, hz⟩ := located_zero hm hf hc
  have hrel : s.pc - f.codeOff = 0 := by rw [he.pc]; omega
  refine ⟨by rw [he.pc], by rw [hrel]; exact hloc, ?_, by rw [he.csp]; rfl, ?_, ?_⟩
  · rw [hrel, hz, he.sp, he.fp]
    omega
  · unfold Callers
    rw [he.frame, he.fp]
    exact ⟨rfl, rfl⟩
  · obtain ⟨fi, hfi⟩ := List.mem_iff_getElem?.mp hf
    obtain ⟨_, h | ⟨_, st, hst, hmax, hle⟩⟩ := hm.func fi f hfi
    · omega
    · obtain ⟨fl, hfl⟩ := (analyse_closed hc hst).flowAt 0 (by rw [(analyse_closed hc hst).start])
      have h0 : 0 ≤ st.maxH := (analyse_closed hc hst).start ▸ hfl.le
      rw [he.sp]
      unfold FuncMeta.locals
      omega

omit hinv in
/-- The frame invariant holds along every run whose steps satisfy `StepOk`. -/
theorem Runs.frameInv {s0 : Mach} (hr : Runs v m (StepOk v m) s0 s)
    (h0 : ∃ f gs, FrameInv v m f gs s0) : ∃ f gs, FrameInv v m f gs s := by
  induction hr with
  | refl => exact h0
  | tail _ hstep ih =>
    obtain ⟨f, gs, hinv⟩ := ih
    exact (go_frame hm hinv hstep.1 hstep.2).1

omit hm hinv in
theorem Callers.base_le {fr : Nat → Frame} {fp k : Nat} (hc : Callers v m fr gs f fp)
    (hk : k ≤ gs.length) : (fr (v.frames.idx k)).spBase ≤ fp := by
  induction gs generalizing f fp with
  | nil =>
    rw [show k = 0 by simpa using hk]
    exact hc.1.le
  | cons g gs ih =>
    obtain ⟨h1, _, ⟨rel, np, _, hsite, hfp⟩, hrest⟩ := hc
    have hen := hsite.enough
    rw [List.length_cons] at hk
    by_cases hk' : k = gs.length + 1
    · rw [hk']
      exact h1.le
    · have := ih hrest (by omega)
      omega

omit hm in
/-- The frame bases of the suspended activations lie below the current one. -/
theorem FrameInv.base_le {k : Nat} (hk : k < s.csp) : (s.frames (v.frames.idx k)).spBase ≤ s.fp :=
  hinv.callers.base_le (by have := hinv.csp; omega)

omit hinv in
/-- While the callee entered in `t` is running, the frames up to the one saved for it and the stack
below its base do not change. -/
theorem above_keeps {t u : Mach} {k : Nat} (hk : 0 < k) (ht : k < t.csp)
    (hinv : ∃ f gs, FrameInv v m f gs t)
    (hrun : Relation.ReflTransGen (fun x y => GoWhen v m (StepOk v m) x y ∧ k < y.csp) t u) :
    (∃ f gs, FrameInv v m f gs u) ∧ k < u.csp ∧
      (∀ i, i ≤ k → u.frames (v.frames.idx i) = t.frames (v.frames.idx i)) ∧
      ∀ j, j < (t.frames (v.frames.idx k)).spBase →
        u.stack (v.stack.idx j) = t.stack (v.stack.idx j) := by
  induction hrun with
  | refl => exact ⟨hinv, ht, fun _ _ => rfl, fun _ _ => rfl⟩
  | @tail x y _ hxy ih =>
    obtain ⟨⟨f, gs, hx⟩, hkx, hfr, hst⟩ := ih
    obtain ⟨hy, hst', hfr'⟩ := go_frame hm hx hxy.1.1 hxy.1.2
    refine ⟨hy, hxy.2, fun i hi => ?_, fun j hj => ?_⟩
    · rw [hfr' (by omega) i (by omega), hfr i hi]
    · have hbase := hx.base_le hkx
      rw [hfr k le_rfl] at hbase
      rw [hst' j (by omega), hst j hj]

/-- A step to a deeper frame stack enters a callee whose arguments and results are those that the
analysis of the caller assumes. -/
theorem call_enters {t : Mach} (hok : StepOk v m s) (hst : Run.step v m.dev s = .ok () t)
    (hcsp : s.csp < t.csp) : ∃ g np, FrameInv v m g (f :: gs) t ∧
      CallSite m f (s.pc - f.codeOff) np g.nResults ∧ t.fp + np = s.sp ∧
      (∀ j, j < t.fp → t.stack (v.stack.idx j) = s.stack (v.stack.idx j)) ∧
      t.frames (v.frames.idx s.csp) = ⟨s.pc + 1, s.fp, t.fp, g.nResults⟩ := by
  have hstep := step_frame hm hinv hok
  rw [hst] at hstep
  obtain ⟨-, -, hmv⟩ := hstep
  have h1 := hinv.csp
  cases hmv with
  | same h _ => have := h.csp; omega
  | tail g h _ _ => have := h.csp; omega
  | ret g gs' hgs h _ _ _ _ _ =>
    have := h.csp
    rw [hgs, List.length_cons] at h1
    omega
  | call g h hstack hfr =>
    obtain ⟨-, -, ⟨rel, np, hrp, hsite, hb⟩, -⟩ := h.callers
    rw [← h1, hfr] at hrp hb
    have hpc := hinv.pc
    have hsp := hinv.sp
    simp only at hrp hb
    have hrel : s.pc - f.codeOff = rel := by omega
    rw [hrel] at hsp
    exact ⟨g, np, h, by rw [hrel]; exact hsite, by omega, hstack, hfr⟩

/-- What `OP_RETURN` and `OP_END_FUNC` do to the activation of `f`: the frame on top says where the
run goes on, and the results move down to the frame base. -/
structure Leaves (v : Views) (m : HostModule) (f : FuncMeta) (s w : Mach) : Prop where
  instr : ∃ i, m.code[s.pc]? = some i ∧ (i.op = .ret ∨ i.op = .endFunc)
  base : (s.frames (v.frames.idx (s.csp - 1))).spBase = s.fp
  nResults : (s.frames (v.frames.idx (s.csp - 1))).nResults = f.nResults
  enough : f.nResults + s.fp + f.locals ≤ s.sp
  pc : w.pc = (s.frames (v.frames.idx (s.csp - 1))).retPc
  fp : w.fp = (s.frames (v.frames.idx (s.csp - 1))).fp
  csp : w.csp + 1 = s.csp
  pos : 0 < w.csp
  sp : w.sp = s.fp + f.nResults
  results : ∀ j, j < f.nResults →
    w.stack (v.stack.idx (s.fp + j)) = s.stack (v.stack.idx (s.sp - f.nResults + j))
  kept : Kept v s w

/-- A step to a shallower frame stack is a return. -/
theorem return_leaves {w : Mach} (hok : StepOk v m s) (hst : Run.step v m.dev s = .ok () w)
    (hcsp : w.csp < s.csp) : Leaves v m f s w := by
  have hstep := step_frame hm hinv hok
  rw [hst] at hstep
  obtain ⟨hk, -, hmv⟩ := hstep
  have hcs := hinv.csp
  cases hmv with
  | same h _ => have := h.csp; omega
  | tail g h _ _ => have := h.csp; omega
  | call g h _ _ =>
    have := h.csp
    rw [List.length_cons] at this
    omega
  | ret g gs' hgs h hpc hfp hsp hres hop =>
    have hcw := h.csp
    have hcallers := hinv.callers
    have htop : (s.frames (v.frames.idx (s.csp - 1))).spBase = s.fp ∧
        (s.frames (v.frames.idx (s.csp - 1))).nResults = f.nResults := by
      rw [hcs, hgs]
      rw [hgs] at hcallers
      exact ⟨hcallers.1, hcallers.2.1⟩
    rw [hgs, List.length_cons] at hcs
    rw [htop.1, htop.2] at hsp
    exact ⟨hop, htop.1, htop.2, hres.1, hpc, hfp, by omega, by omega, hsp, hres.2, hk⟩

omit hinv in
/-- A call that returns gives its caller what the caller's analysis assumed. -/
theorem call_returned {t u w : Mach} (hinv : FrameInv v m f gs s) (hok : StepOk v m s)
    (hst : Run.step v m.dev s = .ok () t) (hcsp : t.csp = s.csp + 1)
    (hrun : Relation.ReflTransGen (fun x y => GoWhen v m (StepOk v m) x y ∧ s.csp < y.csp) t u)
    (hoku : StepOk v m u) (huw : Run.step v m.dev u = .ok () w) (hw : w.csp = s.csp) :
    Returned v m s t w := by
  have hpos : 0 < s.csp := by rw [hinv.csp]; omega
  obtain ⟨g, np, ht, hsite, hargs, hts, hfr⟩ := call_enters hm hinv hok hst (by omega)
  obtain ⟨⟨fu, gsu, hu⟩, hku, hfru, hsu⟩ := above_keeps hm hpos (by omega) ⟨g, _, ht⟩ hrun
  have hl := return_leaves hm hu hoku huw (by omega)
  have hcw := hl.csp
  have htop : u.frames (v.frames.idx (u.csp - 1)) = ⟨s.pc + 1, s.fp, t.fp, g.nResults⟩ := by
    rw [show u.csp - 1 = s.csp by omega, hfru _ le_rfl, hfr]
  have hbase := hl.base
  have hres := hl.nResults
  have hsp := hl.sp
  rw [htop] at hbase hres
  rw [hfr] at hsu
  simp only at hbase hres hsu
  refine ⟨by rw [hl.pc, htop], by rw [hl.fp, htop], fun j hj => ?_, f, np, g.nResults, hinv.pc, hsite,
    hargs, by omega⟩
  rw [hl.kept.stack j (by omega), hsu j hj, hts j hj]

end Frames

end CuWasm
