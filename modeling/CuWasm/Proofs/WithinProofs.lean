import CuWasm.Proofs.AlikeProofs
import CuWasm.Proofs.CapProofs

/-!
# No access beyond the views

The stack, the frames, the globals, the memory and the live flags behind the views have each their
length. An activation that obeys the frame discipline stays inside all of them, and keeps its stack
pointer inside the capacity, as long as the frames are deep enough for its calls (`step_within`).
`run_instance` itself tests the call depth against `FRAME_CAP`, whatever the view holds.
-/

namespace CuWasm

open Exit BlockMove Verify

/-- All accesses of the current instruction stay behind the views. -/
def Mach.Within (v : Views) (s : Mach) : Prop := ∀ a ∈ s.log, a.In v.own v

theorem Mach.Within.not_spoiled {v : Views} {s : Mach} (h : s.Within v) : ¬ Spoiled v.own v s := by
  rintro ⟨a, ha, hout⟩
  exact hout (h a ha)

section Step

variable {v : Views} {m : HostModule} {f : FuncMeta} {gs : List FuncMeta} {s : Mach}

theorem stack_in {j n : Nat} (h : j + n ≤ v.stack.cap) :
    (⟨.stack, v.stack.idx j, n⟩ : Access).In v.own v := by
  have hin : (⟨.stack, v.base .stack + j, n⟩ : Access).In v.own v :=
    Access.in_iff.mpr fun k hk => show j + k < v.stack.cap by omega
  exact hin

theorem frame_in {j : Nat} (h : j < v.frames.cap) :
    (⟨.frames, v.frames.idx j, 1⟩ : Access).In v.own v := by
  have hin : (⟨.frames, v.base .frames + j, 1⟩ : Access).In v.own v :=
    Access.in_iff.mpr fun k hk => show j + k < v.frames.cap by omega
  exact hin

theorem Mach.Within.of_log {t : Mach} (hlog : t.log = []) : t.Within v := by
  intro a ha
  rw [hlog] at ha
  cases ha

theorem Mach.Within.cons {t : Mach} {a : Access} {l : List Access} (hlog : t.log = a :: l)
    (ha : a.In v.own v) (hl : ∀ b ∈ l, b.In v.own v) : t.Within v := by
  intro b hb
  rw [hlog] at hb
  rcases List.mem_cons.mp hb with rfl | hb
  · exact ha
  · exact hl b hb

theorem Mach.Within.one {t : Mach} {a : Access} (hlog : t.log = [a]) (ha : a.In v.own v) :
    t.Within v :=
  Mach.Within.cons hlog ha fun _ hb => by cases hb

/-- Pushing zeros, whether they fit or not. -/
theorem within_pushZeros (n : Nat) {t : Mach} (ht : t.Within v) (hsp : t.sp ≤ v.stack.cap) :
    (final (Run.pushZeros v n t)).Within v ∧
      ∀ w, Run.pushZeros v n t = .ok () w → w.sp ≤ v.stack.cap := by
  have hzero (k : Nat) (hk : t.sp + k ≤ v.stack.cap) : (Run.zeroed v k t).Within v := by
    intro a ha
    simp only [Run.zeroed, List.mem_append, List.mem_map, List.mem_reverse, List.mem_range] at ha
    rcases ha with ⟨j, hj, rfl⟩ | ha
    · exact stack_in (by omega)
    · exact ht a ha
  rw [Run.pushZeros_apply]
  split_ifs with h
  · refine ⟨hzero n (by omega), fun w hw => ?_⟩
    cases hw
    show t.sp + n ≤ v.stack.cap
    omega
  · exact ⟨hzero _ (by omega), fun w hw => by cases hw⟩

/-- Entering a callee, when there is a frame left for it. -/
theorem within_enter (g : FuncMeta) {t : Mach} (ht : t.Within v) (hsp : t.sp ≤ v.stack.cap)
    (hdepth : (final (Run.enter v g t)).csp ≤ v.frames.cap) :
    (final (Run.enter v g t)).Within v ∧
      ∀ w, Run.enter v g t = .ok () w → w.sp ≤ v.stack.cap := by
  have hkeep : (final (Run.pushZeros v g.nLocals (Run.framed v g t))).csp = t.csp + 1 :=
    Run.keeps_pushZeros v (f := fun s : Mach => s.csp) {} g.nLocals _
  rw [Run.enter_apply] at hdepth ⊢
  split_ifs at hdepth ⊢
  · exact ⟨ht, fun w hw => by cases hw⟩
  · exact ⟨ht, fun w hw => by cases hw⟩
  · have hroom : t.csp < v.frames.cap := by
      cases hx : Run.pushZeros v g.nLocals (Run.framed v g t) with
      | ok a w =>
        rw [hx] at hdepth hkeep
        simp only [final_ok] at hdepth hkeep
        omega
      | error e w =>
        rw [hx] at hdepth hkeep
        simp only [final_error] at hdepth hkeep
        omega
    have hframed : (Run.framed v g t).Within v := Mach.Within.cons rfl (frame_in hroom) ht
    obtain ⟨hz, hzsp⟩ := within_pushZeros g.nLocals hframed hsp
    cases hx : Run.pushZeros v g.nLocals (Run.framed v g t) with
    | ok a w =>
      rw [hx] at hz
      refine ⟨hz, fun u hu => ?_⟩
      cases hu
      exact hzsp w hx
    | error e w =>
      rw [hx] at hz
      exact ⟨hz, fun u hu => by cases hu⟩

/-- `OP_RETURN_CALL`. -/
theorem within_returnCall {g : FuncMeta} {t : Mach} (ht : t.Within v) (hsp : t.sp ≤ v.stack.cap)
    (hfp : t.fp + g.nParams ≤ t.sp) (hcsp : t.csp ≤ v.frames.cap) :
    (final (Run.returnCall v g t)).Within v ∧
      ∀ w, Run.returnCall v g t = .ok () w → w.sp ≤ v.stack.cap := by
  rw [Run.returnCall_apply]
  split_ifs with h
  · exact ⟨ht, fun w hw => by cases hw⟩
  · have hrebased : (Run.rebased v g t).Within v := by
      refine Mach.Within.cons rfl (stack_in (by omega)) fun b hb => ?_
      rcases List.mem_cons.mp hb with rfl | hb
      · exact stack_in (by omega)
      · exact ht b hb
    have hbase : (Run.rebased v g t).sp ≤ v.stack.cap := by
      show t.fp + g.nParams ≤ v.stack.cap
      omega
    obtain ⟨hz, hzsp⟩ := within_pushZeros g.nLocals hrebased hbase
    cases hx : Run.pushZeros v g.nLocals (Run.rebased v g t) with
    | ok a w =>
      rw [hx] at hz
      simp only [final_ok] at hz ⊢
      have hsame : (Run.retargeted v g t.csp w).sp = w.sp := by
        unfold Run.retargeted
        split_ifs <;> rfl
      refine ⟨?_, fun u hu => ?_⟩
      · unfold Run.retargeted
        split_ifs with hpos
        · refine Mach.Within.cons rfl (frame_in (by omega)) fun b hb => ?_
          rcases List.mem_cons.mp hb with rfl | hb
          · exact frame_in (by omega)
          · exact hz b hb
        · exact hz
      · cases hu
        exact hsame.trans_le (hzsp w hx)
    | error e w =>
      rw [hx] at hz
      exact ⟨hz, fun u hu => by cases hu⟩

/-- A plain instruction whose local lies below the stack pointer. -/
theorem within_plain {i : CuOp} {p : Nat} {t : Mach} (hlog : s.log = []) (hsp : s.sp ≤ v.stack.cap)
    (hmem : s.memSize ≤ v.memMax) (hlocal : ∀ k, localOf i = some k → s.fp + k < s.sp)
    (ht : PlainFrame v i p s t) : t.Within v := by
  intro a ha
  rcases ht.log a ha with h | h
  · rw [hlog] at h
    cases h
  · obtain ⟨r, start, n⟩ := a
    unfold PlainAccess at h
    cases r with
    | stack =>
      obtain ⟨j, rfl, rfl, h⟩ := h
      refine stack_in ?_
      rcases h with ⟨-, h | ⟨h, -⟩⟩ | ⟨k, hk, rfl⟩
      · omega
      · omega
      · have := hlocal k hk
        omega
    | frames => exact h.elim
    | globals =>
      intro j hj1 hj2
      simp only [Views.base] at h hj1 hj2
      show j < v.nGlobals
      omega
    | memory =>
      intro j hj1 hj2
      simp only [Views.base] at h hj1 hj2
      show j < v.memMax
      omega
    | live =>
      intro j hj1 hj2
      simp only [Views.base] at h hj1 hj2
      show j < v.nData
      omega

/-- A plain instruction that makes the stack grow has found room. -/
theorem plain_room {m : DevModule} {i : CuOp} {p q : Nat} {t : Mach} (he : effect i = some (p, q))
    (hlt : p < q) (h : Run.exec v m i s = .ok () t) : s.sp < v.stack.cap := by
  have hpush {x : Run Slot} {s : Mach} (h : Run.push v x s = .ok () t) : s.sp < v.stack.cap := by
    rw [Run.push_apply] at h
    split_ifs at h with hc
    omega
  unfold effect at he
  unfold Run.exec at h
  cases hop : i.op <;> simp only [hop, Option.some.injEq, Prod.mk.injEq, reduceCtorEq] at he h <;>
    obtain ⟨rfl, rfl⟩ := he
  all_goals try omega
  · exact hpush h
  · exact hpush h
  · unfold Run.globalGet at h
    simp only [ite_run, bind_apply, throw_apply] at h
    split_ifs at h
    exact hpush h
  · exact hpush h

variable (hm : Accepted m) (hinv : FrameInv v m f gs s) (hsp : s.sp ≤ v.stack.cap)
  (hmem : s.memSize ≤ v.memMax) (hcsp : s.csp ≤ v.frames.cap)

include hm hinv hsp hmem hcsp

/-- The instruction about to be fetched stays behind the views. -/
theorem exec_within
    (hdepth : (final (Run.exec v m.dev (instrAt m f (s.pc - f.codeOff)) (Run.fetched s))).csp ≤
      v.frames.cap) :
    (final (Run.exec v m.dev (instrAt m f (s.pc - f.codeOff)) (Run.fetched s))).Within v ∧
      ∀ t, Run.exec v m.dev (instrAt m f (s.pc - f.codeOff)) (Run.fetched s) = .ok () t →
        t.sp ≤ v.stack.cap := by
  obtain ⟨hcode, fl, hfl, hcase⟩ := hinv.instr hm
  have hk := hinv.located.known
  have hheight := hinv.sp
  have hidx := hfl.index
  have hlocals : f.locals = f.nParams + f.nLocals := rfl
  have hfsp : (Run.fetched s).sp = s.sp := rfl
  have hfetched : (Run.fetched s).Within v := Mach.Within.of_log rfl
  generalize instrAt m f (s.pc - f.codeOff) = i at *
  cases hcase with
  | @plain p q he hp =>
    have hspec := spec_exec (v := v) (s := Run.fetched s) m.dev he
      (by simp only [Run.fetched]; omega) (Run.fetched s) ⟨PlainFrame.refl v i p _, rfl, rfl⟩
    have hlocal (k : Nat) (hloc : localOf i = some k) : (Run.fetched s).fp + k < (Run.fetched s).sp := by
      have := local_lt hidx hloc
      simp only [Run.fetched]
      omega
    refine ⟨?_, fun t hx => ?_⟩
    · cases hx : Run.exec v m.dev i (Run.fetched s) with
      | ok a t =>
        exact within_plain (s := Run.fetched s) rfl hsp hmem hlocal (hspec.1 a t hx).1
      | error e t =>
        exact within_plain (s := Run.fetched s) rfl hsp hmem hlocal (hspec.2 e t hx).1
    · have htsp := (hspec.1 () t hx).2
      by_cases hlt : p < q
      · have := plain_room he hlt hx
        have hp0 : p = 0 ∧ q = 1 := by
          unfold effect at he
          split at he <;> simp only [Option.some.injEq, Prod.mk.injEq, reduceCtorEq] at he <;> omega
        omega
      · omega
  | unwind hop h0 h1 =>
    have hdest := toI32_of_nonneg (b := i.b) (by omega)
    simp only [Run.exec, hop, Run.unwind_apply]
    split_ifs with h2 h3
    · exact ⟨hfetched, fun t hx => by cases hx⟩
    all_goals
      have hle : ((Run.fetched s).fp + i.b) % 2 ^ 32 ≤ s.sp := by
        have hfp : (Run.fetched s).fp = s.fp := rfl
        rw [hfp]
        have := hinv.small
        omega
    · refine ⟨Mach.Within.cons rfl (stack_in ?_) fun b hb => ?_, fun t hx => ?_⟩
      · omega
      · rw [List.mem_singleton.mp hb]
        exact stack_in (by omega)
      · cases hx
        exact hle.trans hsp
    · refine ⟨Mach.Within.of_log rfl, fun t hx => ?_⟩
      cases hx
      exact hle.trans hsp
  | br hop h1 h2 =>
    simp only [Run.exec, hop, Run.br_apply]
    split_ifs
    · exact ⟨Mach.Within.of_log rfl, fun t hx => by cases hx⟩
    all_goals
      refine ⟨Mach.Within.of_log rfl, fun t hx => ?_⟩
      cases hx
      exact hsp
  | brIfNot hop h0 h1 h2 =>
    have hdec : dec32 s.sp = s.sp - 1 := dec32_of_pos (by omega)
    simp only [Run.exec, hop, bind_apply, Run.pop_apply, Run.fetched, ite_run, modify_apply,
      pure_apply, hdec]
    split_ifs
    all_goals
      refine ⟨Mach.Within.one rfl (stack_in (by omega)), fun t hx => ?_⟩
      cases hx
      show s.sp - 1 ≤ v.stack.cap
      omega
  | @call g hop hg hp =>
    have hfun : m.dev.funcs[i.b]? = some g := hg
    simp only [Run.exec, hop, hfun] at hdepth ⊢
    exact within_enter g hfetched hsp hdepth
  | @returnCall g hop hg hp =>
    have hfun : m.dev.funcs[i.b]? = some g := hg
    simp only [Run.exec, hop, hfun]
    exact within_returnCall hfetched hsp (by simp only [Run.fetched]; omega) hcsp
  | leave hop hp =>
    have hexec : Run.exec v m.dev i (Run.fetched s) = Run.leave v (Run.fetched s) := by
      rcases hop with hop | hop <;> simp only [Run.exec, hop]
    have hdeep := hinv.csp
    have hcall := hinv.callers
    have hfr : (s.frames (v.frames.idx (s.csp - 1))).spBase = s.fp ∧
        (s.frames (v.frames.idx (s.csp - 1))).nResults = f.nResults := by
      rw [hdeep]
      cases gs with
      | nil => exact hcall
      | cons g gs => exact ⟨hcall.1, hcall.2.1⟩
    have hlog (t : Mach) (ht : t.log =
        [⟨.stack, v.stack.idx (s.frames (v.frames.idx (s.csp - 1))).spBase,
            (s.frames (v.frames.idx (s.csp - 1))).nResults⟩,
          ⟨.stack, v.stack.idx (s.sp - (s.frames (v.frames.idx (s.csp - 1))).nResults),
            (s.frames (v.frames.idx (s.csp - 1))).nResults⟩,
          ⟨.frames, v.frames.idx (s.csp - 1), 1⟩]) : t.Within v := by
      refine Mach.Within.cons ht (stack_in (by omega)) fun b hb => ?_
      rcases List.mem_cons.mp hb with rfl | hb
      · exact stack_in (by omega)
      · rw [List.mem_singleton.mp hb]
        exact frame_in (by omega)
    rw [hexec, Run.leave_apply]
    simp only
    split_ifs
    · exact ⟨hfetched, fun t hx => by cases hx⟩
    · refine ⟨Mach.Within.one rfl (frame_in ?_), fun t hx => by cases hx⟩
      simp only [Run.fetched]
      omega
    · exact ⟨hlog _ rfl, fun t hx => by cases hx⟩
    · refine ⟨hlog _ rfl, fun t hx => ?_⟩
      cases hx
      show (s.frames (v.frames.idx (s.csp - 1))).spBase +
        (s.frames (v.frames.idx (s.csp - 1))).nResults ≤ v.stack.cap
      omega
  | unreachable hop =>
    simp only [Run.exec, hop, throw_apply]
    exact ⟨hfetched, fun t hx => by cases hx⟩
  | callHost hop hp =>
    simp only [Run.exec, hop, Run.callHost_apply]
    split_ifs with h1 h2
    · exact ⟨hfetched, fun t hx => by cases hx⟩
    · exact ⟨hfetched, fun t hx => by cases hx⟩
    · refine ⟨Mach.Within.one rfl (stack_in ?_), fun t hx => by cases hx⟩
      omega
  | @callIndirect fpv hop hfp hp =>
    have hdec : dec32 (Run.fetched s).sp = s.sp - 1 :=
      dec32_of_pos (show 0 < (Run.fetched s).sp by simp only [Run.fetched]; omega)
    have hpop : ({ Run.fetched s with
        sp := s.sp - 1, log := ⟨.stack, v.stack.idx (s.sp - 1), 1⟩ :: (Run.fetched s).log } :
        Mach).Within v := Mach.Within.one rfl (stack_in (by omega))
    simp only [Run.exec, hop, bind_apply, Run.pop_apply, hdec, Run.indirectCallee_apply] at hdepth ⊢
    cases htgt : Run.indirectTarget m.dev i.b
        (u32 ((Run.fetched s).stack (v.stack.idx (s.sp - 1)))).toNat with
    | none => exact ⟨hpop, fun t hx => by cases hx⟩
    | some g =>
      rw [htgt] at hdepth
      exact within_enter g hpop (show s.sp - 1 ≤ v.stack.cap by omega) hdepth

/-- Fetching and executing an instruction stays behind the views, and a machine that goes on has its
stack pointer inside the capacity. -/
theorem step_within (hdepth : (final (Run.step v m.dev s)).csp ≤ v.frames.cap) :
    (final (Run.step v m.dev s)).Within v ∧
      ∀ t, Run.step v m.dev s = .ok () t → t.sp ≤ v.stack.cap := by
  have hcode : m.dev.code[s.pc]? = some (instrAt m f (s.pc - f.codeOff)) := (hinv.instr hm).1
  rw [Run.final_step v m.dev hcode] at hdepth ⊢
  obtain ⟨h1, h2⟩ := exec_within hm hinv hsp hmem hcsp hdepth
  refine ⟨h1, fun t ht => ?_⟩
  obtain ⟨i, hi, hx⟩ := Run.step_ok v m.dev ht
  rw [hcode] at hi
  cases hi
  exact h2 t hx

end Step

end CuWasm
