import CuWasm.Proofs.HostCallProofs
import CuWasm.Proofs.TransferProofs

/-!
# Calls and returns

A call makes an activation whose first locals are the arguments; a return takes it down and puts the
results in the place of the arguments; a tail call turns the activation into one of its callee.
-/

namespace CuWasm

open Exit Run Wasm Structured BlockMove

/-- The activation `B` of `g` was entered from `A`, which goes on at `pc` with the operands `xs` and the
locals `ls`; `k` of the locals of `g` are locals of Wasm. -/
structure Entered (A B : Activation) (g : FuncMeta) (pc k : Nat) (xs ls : List Nat) : Prop where
  fp : B.fp = A.fp + A.slots + xs.length
  csp : B.csp = A.csp + 1
  slots : B.slots = g.nParams + g.nLocals
  nLocals : B.nLocals = g.nParams + k
  frame : B.frames A.csp = ⟨pc, A.fp, B.fp, g.nResults⟩
  frames : ∀ j < A.csp, B.frames j = A.frames j
  below : ∀ j < A.fp, B.stack j = A.stack j
  locals : ∀ j a, ls[j]? = some a → B.stack (A.fp + j) = BitVec.ofNat 64 a
  operands : ∀ j a, xs[j]? = some a → B.stack (B.fp - (j + 1)) = BitVec.ofNat 64 a

/-- A tail call of `g` has turned the activation `A` into `B`. -/
structure Became (A B : Activation) (g : FuncMeta) (k : Nat) : Prop where
  fp : B.fp = A.fp
  csp : B.csp = A.csp
  slots : B.slots = g.nParams + g.nLocals
  nLocals : B.nLocals = g.nParams + k
  frame : B.frames (A.csp - 1) = { A.frames (A.csp - 1) with nResults := g.nResults }
  frames : ∀ j < A.csp - 1, B.frames j = A.frames j
  below : ∀ j < A.fp, B.stack j = A.stack j

section Calls

variable {H : Type} {m : HostModule} {e : FuncMeta} {host : HostFn H} {A B : Activation}
  {g : FuncMeta} {pc a b k n fi : Nat} {u xs ys ls : List Nat} {s : Wasm.Store H} {x : Flat H} {t : Mach}
  {P : Flat H → Prop} {Q : Outgoing H → Flat H → Prop}

/-- Pushing zeros meets the capacity or succeeds. -/
theorem pushZeros_cases (v : Views) (n : Nat) (t : Mach) :
    (∃ st w, pushZeros v n t = .error st w ∧ st.isLimit = true) ∨
      pushZeros v n t = .ok () (zeroed v n t) ∧ (n = 0 ∨ t.sp + n ≤ v.stack.cap) := by
  rw [pushZeros_apply]
  split_ifs with hc
  · exact .inr ⟨rfl, hc⟩
  · exact .inl ⟨_, _, rfl, rfl⟩

/-- The activation that a call makes in front of `t`. -/
def Activation.callee (A : Activation) (g : FuncMeta) (n k : Nat) (t : Mach) : Activation where
  fp := A.fp + A.slots + n
  csp := A.csp + 1
  slots := g.nParams + g.nLocals
  nLocals := g.nParams + k
  frames := t.frames
  stack := t.stack

/-- A call meets a limit or enters its callee. -/
theorem InFrame.enter (h : InFrame m A pc (u ++ xs) ls s x) (hlen : u.length = g.nParams)
    (hk : k ≤ g.nLocals) :
    (∃ st t, Run.enter m.cpuViews g x.mach = .error st t ∧ st.isLimit = true) ∨
      ∃ t B, Run.enter m.cpuViews g x.mach = .ok () t ∧ Entered A B g pc k xs ls ∧
        InFrame m B g.codeOff [] (u.reverse ++ List.replicate k 0) s ⟨t, x.host⟩ := by
  have hsp := h.sp
  have hfit := h.fits
  have hcount := h.count
  have hroom := h.room
  rw [List.length_append] at hsp
  have he := enter_apply m.cpuViews g x.mach
  by_cases hdepth : x.mach.csp ≥ FRAME_CAP
  · rw [if_pos hdepth] at he
    exact .inl ⟨_, _, he, rfl⟩
  rw [if_neg hdepth, if_neg (by omega)] at he
  obtain ⟨st, w, hw, hst⟩ | ⟨hw, hcap⟩ := pushZeros_cases m.cpuViews g.nLocals (framed m.cpuViews g x.mach)
  · rw [hw] at he
    exact .inl ⟨_, _, he, hst⟩
  rw [hw] at he
  have hfr : (framed m.cpuViews g x.mach).frames =
      Function.update x.mach.frames A.csp (callFrame g x.mach) := by
    show Function.update x.mach.frames (m.cpuViews.frames.idx x.mach.csp) _ = _
    rw [cpuViews_frames_idx, h.csp]
  have hstack : ∀ j, (zeroed m.cpuViews g.nLocals (framed m.cpuViews g x.mach)).stack j =
      if x.mach.sp ≤ j ∧ j < x.mach.sp + g.nLocals then 0 else x.mach.stack j := fun j => by
    show fillAsc x.mach.stack (m.cpuViews.stack.idx x.mach.sp) (fun _ => 0) g.nLocals j = _
    rw [cpuViews_stack_idx, fillAsc_apply]
  have hbase : x.mach.sp - g.nParams = A.fp + A.slots + xs.length := by omega
  refine .inr ⟨_, A.callee g xs.length k (zeroed m.cpuViews g.nLocals (framed m.cpuViews g x.mach)), he,
    ⟨rfl, rfl, rfl, rfl, ?_, fun j hj => ?_, fun j hj => ?_, fun j a hj => ?_, fun j a hj => ?_⟩,
    rfl, hbase, congrArg (· + 1) h.csp, ?_, ?_, ?_, ?_, fun j a hj => ?_, fun j a hj => ?_,
    fun _ _ => rfl, fun _ _ => rfl, h.store.congr rfl rfl rfl rfl rfl⟩
  · show (framed m.cpuViews g x.mach).frames A.csp = _
    rw [hfr, Function.update_self, callFrame, h.pc, h.fp, hbase]
    rfl
  · show (framed m.cpuViews g x.mach).frames j = _
    rw [hfr, Function.update_of_ne (Nat.ne_of_lt hj)]
    exact h.frames j hj
  · refine (hstack j).trans ?_
    rw [if_neg (by omega)]
    exact h.below j hj
  · have hlt := (List.getElem?_eq_some_iff.mp hj).1
    refine (hstack (A.fp + j)).trans ?_
    rw [if_neg (by omega)]
    exact h.locals j a hj
  · have hlt := (List.getElem?_eq_some_iff.mp hj).1
    refine (hstack (A.fp + A.slots + xs.length - (j + 1))).trans ?_
    rw [if_neg (by omega), ← h.operands (u.length + j) a (by
      rw [List.getElem?_append_right (by omega), ← hj]
      congr 1
      omega)]
    congr 1
    omega
  · show x.mach.sp + g.nLocals = A.fp + A.slots + xs.length + (g.nParams + g.nLocals) + 0
    omega
  · show x.mach.sp + g.nLocals ≤ STACK_CAP
    obtain h0 | h0 := hcap
    · omega
    · exact h0
  · show _ = g.nParams + k
    rw [List.length_append, List.length_reverse, List.length_replicate, hlen]
  · show g.nParams + k ≤ g.nParams + g.nLocals
    omega
  · refine (hstack (A.fp + A.slots + xs.length + j)).trans ?_
    by_cases hz : j < u.length
    · rw [List.getElem?_append_left (by rwa [List.length_reverse]), List.getElem?_reverse hz] at hj
      rw [if_neg (by omega), ← h.operands (u.length - 1 - j) a (by
        rw [List.getElem?_append_left (by omega), hj])]
      congr 1
      omega
    · rw [List.getElem?_append_right (by rw [List.length_reverse]; omega)] at hj
      rw [List.getElem?_replicate, List.length_reverse] at hj
      split_ifs at hj with hlt
      cases hj
      rw [if_pos (by omega)]
      rfl
  · cases hj

/-- An instruction that enters `g` once it is executed up to `t`. -/
theorem InFrame.enters {i : CuOp} (hx : x.mach.pc = a) (hi : m.code[a]? = some i)
    (he : Run.exec m.cpuViews m.dev i (fetched x.mach) = Run.enter m.cpuViews g t)
    (h : InFrame m A pc (u ++ xs) ls s ⟨t, x.host⟩) (hlen : u.length = g.nParams)
    (hk : k ≤ g.nLocals) :
    (∃ r, hosted m e host x = .error r x ∧ Exhausted r) ∨
      ∃ y B, hosted m e host x = .ok () y ∧ Entered A B g pc k xs ls ∧
        InFrame m B g.codeOff [] (u.reverse ++ List.replicate k 0) s y := by
  obtain ⟨st, w, hw, hst⟩ | ⟨w, B, hw, hE, hB⟩ := h.enter hlen hk
  · refine .inl ⟨_, hosted_exit (step_of_exec_error (hx ▸ hi) (he.trans hw)) ?_, hst⟩
    rintro rfl
    cases hst
  · exact .inr ⟨_, B, hosted_ok (step_of_exec (hx ▸ hi) (he.trans hw) hB.fits), hE, hB⟩

theorem InFrame.call (h : InFrame m A pc (u ++ xs) ls s x) (hi : m.code[pc]? = some ⟨.call, 0, fi⟩)
    (hg : m.funcs[fi]? = some g) (hlen : u.length = g.nParams) (hk : k ≤ g.nLocals) :
    (∃ r, hosted m e host x = .error r x ∧ Exhausted r) ∨
      ∃ y B, hosted m e host x = .ok () y ∧ Entered A B g (pc + 1) k xs ls ∧
        InFrame m B g.codeOff [] (u.reverse ++ List.replicate k 0) s y := by
  have hg' : m.dev.funcs[fi]? = some g := hg
  refine InFrame.enters (t := fetched x.mach) h.pc hi ?_ (InFrame.popped (u := []) h (.refl _)) hlen hk
  simp only [Run.exec, hg']

theorem InFrame.callIndirect (h : InFrame m A pc (a :: (u ++ xs)) ls s x)
    (hi : m.code[pc]? = some ⟨.callIndirect, 0, b⟩)
    (hg : indirectTarget m.dev b (a % 2 ^ 32) = some g) (hlen : u.length = g.nParams)
    (hk : k ≤ g.nLocals) :
    (∃ r, hosted m e host x = .error r x ∧ Exhausted r) ∨
      ∃ y B, hosted m e host x = .ok () y ∧ Entered A B g (pc + 1) k xs ls ∧
        InFrame m B g.codeOff [] (u.reverse ++ List.replicate k 0) s y := by
  obtain ⟨t, et, pt, ht⟩ := h.pop
  refine InFrame.enters (t := t) h.pc hi ?_ ht hlen hk
  have hidx : (u32 (BitVec.ofNat 64 a)).toNat = a % 2 ^ 32 := by
    rw [← operand_i32, operand_i32_ofNat]
  simp only [Run.exec]
  rw [bind_ok et, bind_apply, indirectCallee_apply, hidx, hg]

/-- An indirect call without a callee traps. -/
theorem InFrame.callIndirect_trap (h : InFrame m A pc (a :: xs) ls s x)
    (hi : m.code[pc]? = some ⟨.callIndirect, 0, b⟩)
    (hg : indirectTarget m.dev b (a % 2 ^ 32) = none) (hQ : ∀ r y, Means (.trap .table s) r → Q r y) :
    Eventually (hosted m e host) P Q x := by
  obtain ⟨t, et, pt, ht⟩ := h.pop
  have hidx : (u32 (BitVec.ofNat 64 a)).toNat = a % 2 ^ 32 := by
    rw [← operand_i32, operand_i32_ofNat]
  refine h.traps (f := .table) (t := t) hi ?_ pt.others hQ
  simp only [Run.exec]
  rw [bind_ok et, bind_apply, indirectCallee_apply, hidx, hg]
  rfl

/-- A return puts the results in the place of the arguments. -/
theorem AtReturn.leave (hE : Entered A B g pc k xs ls) (hcsp : 0 < A.csp)
    (hcount : ls.length = A.nLocals) (hroom : A.nLocals ≤ A.slots) (h : AtReturn m B ys s x) :
    Eventually (hosted m e host) (InFrame m A pc (ys.reverse ++ xs) ls s) Q x := by
  obtain ⟨i, hi, hop⟩ := h.instr
  have hfp := hE.fp
  have henough := h.enough
  have hfit := h.fits
  have hdepth : x.mach.csp = A.csp + 1 := h.csp.trans hE.csp
  have htop : x.mach.frames A.csp = ⟨pc, A.fp, B.fp, ys.length⟩ := by
    have := h.top
    rw [hE.csp, Nat.add_sub_cancel, hE.frame] at this
    exact this
  have hexec : Run.exec m.cpuViews m.dev i (fetched x.mach) = Run.leave m.cpuViews (fetched x.mach) := by
    obtain hop | hop := hop <;> simp only [Run.exec, hop]
  have hdepth' : (fetched x.mach).csp = A.csp + 1 := hdepth
  have htop' : (fetched x.mach).frames A.csp = ⟨pc, A.fp, B.fp, ys.length⟩ := htop
  have hsp' : (fetched x.mach).sp = x.mach.sp := rfl
  have he := leave_apply m.cpuViews (fetched x.mach)
  simp only [hdepth', Nat.add_sub_cancel, cpuViews_frames_idx, cpuViews_stack_idx, htop', hsp'] at he
  rw [if_neg (by omega), if_neg (by omega), if_neg (by omega)] at he
  have hcell : ∀ j < B.fp, blockMove x.mach.stack B.fp (x.mach.sp - ys.length) ys.length j =
      B.stack j := fun j hj => (blockMove_of_not_mem _ (.inl hj)).trans (h.below j hj)
  refine eventually_of_exec hi (hexec.trans he) (by show B.fp + ys.length ≤ _; omega)
    ⟨rfl, rfl, rfl, ?_, ?_, hcount, hroom, fun j a hj => ?_, fun j a hj => ?_, fun j hj => ?_,
      fun j hj => ?_, h.store.congr rfl rfl rfl rfl rfl⟩
  · show B.fp + ys.length = _
    rw [List.length_append, List.length_reverse]
    omega
  · show B.fp + ys.length ≤ _
    omega
  · have hlt := (List.getElem?_eq_some_iff.mp hj).1
    exact (hcell _ (by omega)).trans (hE.locals j a hj)
  · show blockMove x.mach.stack B.fp (x.mach.sp - ys.length) ys.length (B.fp + ys.length - (j + 1)) = _
    by_cases hz : j < ys.length
    · rw [List.getElem?_append_left (by rwa [List.length_reverse]), List.getElem?_reverse hz] at hj
      rw [show B.fp + ys.length - (j + 1) = B.fp + (ys.length - 1 - j) by omega,
        blockMove_of_mem _ (by omega)]
      exact h.results _ a hj
    · rw [List.getElem?_append_right (by rw [List.length_reverse]; omega), List.length_reverse] at hj
      have hlt := (List.getElem?_eq_some_iff.mp hj).1
      rw [show B.fp + ys.length - (j + 1) = B.fp - (j - ys.length + 1) by omega, hcell _ (by omega)]
      exact hE.operands _ a hj
  · exact (hcell j (by omega)).trans (hE.below j hj)
  · have := h.frames j (by rw [hE.csp]; omega)
    exact this.trans (hE.frames j hj)

/-- What the callee of a tail call returns is returned from the activation of the caller. -/
theorem Became.atReturn (hB : Became A B g k) (h : AtReturn m B ys s x) : AtReturn m A ys s x where
  instr := h.instr
  csp := h.csp.trans hB.csp
  top := by
    have := h.top
    rwa [hB.csp, hB.frame] at this
  enough := hB.fp ▸ h.enough
  fits := h.fits
  results := h.results
  below := fun j hj => (h.below j (hB.fp ▸ hj)).trans (hB.below j hj)
  frames := fun j hj => (h.frames j (hB.csp ▸ hj)).trans (hB.frames j hj)
  store := h.store

/-- The activation that a tail call makes of `A`. -/
def Activation.successor (A : Activation) (g : FuncMeta) (k : Nat) (t : Mach) : Activation where
  fp := A.fp
  csp := A.csp
  slots := g.nParams + g.nLocals
  nLocals := g.nParams + k
  frames := t.frames
  stack := t.stack

/-- A tail call meets a limit or replaces the activation. -/
theorem InFrame.returnCall (h : InFrame m A pc (u ++ xs) ls s x) (hcsp : 0 < A.csp)
    (hi : m.code[pc]? = some ⟨.returnCall, 0, fi⟩) (hg : m.funcs[fi]? = some g)
    (hlen : u.length = g.nParams) (hk : k ≤ g.nLocals) :
    (∃ r, hosted m e host x = .error r x ∧ Exhausted r) ∨
      ∃ y B, hosted m e host x = .ok () y ∧ Became A B g k ∧
        InFrame m B g.codeOff [] (u.reverse ++ List.replicate k 0) s y := by
  have hsp := h.sp
  have hfit := h.fits
  rw [List.length_append] at hsp
  have hg' : m.dev.funcs[fi]? = some g := hg
  have hexec : Run.exec m.cpuViews m.dev ⟨.returnCall, 0, fi⟩ (fetched x.mach) =
      Run.returnCall m.cpuViews g (fetched x.mach) := by
    simp only [Run.exec, hg']
  have he := returnCall_apply m.cpuViews g (fetched x.mach)
  have hsp' : (fetched x.mach).sp = x.mach.sp := rfl
  rw [if_neg (by omega)] at he
  obtain ⟨st, w, hw, hst⟩ | ⟨hw, hcap⟩ :=
    pushZeros_cases m.cpuViews g.nLocals (rebased m.cpuViews g (fetched x.mach))
  · rw [hw] at he
    refine .inl ⟨_, hosted_exit (step_of_exec_error (h.pc ▸ hi) (hexec.trans he)) ?_, hst⟩
    rintro rfl
    cases hst
  rw [hw] at he
  set t := zeroed m.cpuViews g.nLocals (rebased m.cpuViews g (fetched x.mach)) with ht
  have hdepth : (fetched x.mach).csp = A.csp := h.csp
  have hret : retargeted m.cpuViews g (fetched x.mach).csp t =
      { t with
        frames := Function.update t.frames (A.csp - 1) { t.frames (A.csp - 1) with nResults := g.nResults }
        log := ⟨.frames, A.csp - 1, 1⟩ :: ⟨.frames, A.csp - 1, 1⟩ :: t.log } := by
    unfold retargeted
    rw [hdepth, if_pos hcsp, cpuViews_frames_idx]
  simp only [hret] at he
  have hfr : ∀ j < A.csp, t.frames j = A.frames j := fun j hj => h.frames j hj
  have hstack : ∀ j, t.stack j =
      if A.fp + g.nParams ≤ j ∧ j < A.fp + g.nParams + g.nLocals then 0
      else blockMove x.mach.stack A.fp (x.mach.sp - g.nParams) g.nParams j := fun j => by
    show fillAsc (blockMove x.mach.stack (m.cpuViews.stack.idx x.mach.fp)
      (m.cpuViews.stack.idx (x.mach.sp - g.nParams)) g.nParams)
      (m.cpuViews.stack.idx (x.mach.fp + g.nParams)) (fun _ => 0) g.nLocals j = _
    rw [cpuViews_stack_idx, cpuViews_stack_idx, cpuViews_stack_idx, fillAsc_apply, h.fp]
  have hsize : t.sp = A.fp + g.nParams + g.nLocals := by
    show x.mach.fp + g.nParams + g.nLocals = _
    rw [h.fp]
  have hcap' : t.sp ≤ STACK_CAP := by
    obtain h0 | h0 := hcap
    · omega
    · have : t.sp ≤ m.cpuViews.stack.cap := h0
      exact this
  refine .inr ⟨_, A.successor g k { t with
      frames := Function.update t.frames (A.csp - 1)
        { t.frames (A.csp - 1) with nResults := g.nResults } },
    hosted_ok (step_of_exec (h.pc ▸ hi) (hexec.trans he) hcap'),
    ⟨rfl, rfl, rfl, rfl, ?_, fun j hj => ?_, fun j hj => ?_⟩,
    rfl, h.fp, h.csp, ?_, hcap', ?_, ?_, fun j a hj => ?_, fun j a hj => ?_, fun _ _ => rfl,
    fun _ _ => rfl, h.store.congr rfl rfl rfl rfl rfl⟩
  · show Function.update t.frames (A.csp - 1) _ (A.csp - 1) = _
    rw [Function.update_self, hfr _ (by omega)]
  · show Function.update t.frames (A.csp - 1) _ j = _
    rw [Function.update_of_ne (by omega)]
    exact hfr j (by omega)
  · refine (hstack j).trans ?_
    rw [if_neg (by omega), blockMove_of_not_mem _ (.inl hj)]
    exact h.below j hj
  · show t.sp = A.fp + (g.nParams + g.nLocals) + 0
    omega
  · show _ = g.nParams + k
    rw [List.length_append, List.length_reverse, List.length_replicate, hlen]
  · show g.nParams + k ≤ g.nParams + g.nLocals
    omega
  · refine (hstack (A.fp + j)).trans ?_
    by_cases hz : j < u.length
    · rw [List.getElem?_append_left (by rwa [List.length_reverse]), List.getElem?_reverse hz] at hj
      rw [if_neg (by omega), blockMove_of_mem _ (by omega), ← h.operands (u.length - 1 - j) a (by
        rw [List.getElem?_append_left (by omega), hj])]
      congr 1
      omega
    · rw [List.getElem?_append_right (by rw [List.length_reverse]; omega)] at hj
      rw [List.getElem?_replicate, List.length_reverse] at hj
      split_ifs at hj with hlt
      cases hj
      rw [if_pos (by omega)]
      rfl
  · cases hj

end Calls

/-! ## Host calls -/

section Host

variable {H : Type} {m : HostModule} {e : FuncMeta} {host : HostFn H} {A : Activation}
  {pc a b fi : Nat} {u xs ls : List Nat} {s : Wasm.Store H} {x : Flat H}

theorem ofNat_bytes (mem : Nat → Byte) : (fun c => BitVec.ofNat 8 (bytes mem c)) = mem := by
  funext c
  simp [bytes]

/-- The arguments in the mailbox. -/
theorem InFrame.mailbox (h : InFrame m A pc (u ++ xs) ls s x) :
    ((List.range u.length).map fun j => if j < u.length then
        x.mach.stack (x.mach.sp - u.length + j) else x.mach.mb.args j) =
      u.reverse.map (BitVec.ofNat 64) := by
  have htop := h.onTop
  refine List.ext_getElem? fun j => ?_
  rw [List.getElem?_map]
  by_cases hj : j < u.length
  · have hget : (u.reverse.map (BitVec.ofNat 64))[j]? =
        some ((u.reverse.map (BitVec.ofNat 64)).getD j 0) := by
      rw [List.getD_eq_getElem?_getD, List.getElem?_eq_getElem (by simpa using hj)]
      rfl
    have hslot := htop.operands j _ hget
    rw [cpuViews_stack_idx, List.length_map, List.length_reverse] at hslot
    rw [List.getElem?_range hj, hget, ← hslot, Option.map_some, if_pos hj]
    rfl
  · rw [List.getElem?_eq_none (by rw [List.length_range]; omega),
      List.getElem?_eq_none (by rw [List.length_map, List.length_reverse]; omega)]
    rfl

/-- The store after the host has answered. -/
def answered (s : Wasm.Store H) (out : HostReply H) : Wasm.Store H :=
  { s with mem := bytes out.memory, host := out.host }

theorem HoldsStore.answered (hoff : KeepsOff m host) (h : HoldsStore m s x) {i : Nat}
    {args : List Slot} {y : Flat H} (hg : y.mach.globals = x.mach.globals)
    (hm : y.mach.mem = (host s.host i args x.mach.mem).memory)
    (hs : y.mach.memSize = x.mach.memSize) (hl : y.mach.live = x.mach.live)
    (hh : y.host = (host s.host i args x.mach.mem).host) :
    HoldsStore m (answered s (host s.host i args x.mach.mem)) y where
  count := h.count
  globals := hg ▸ h.globals
  mem := by rw [hm]; rfl
  size := hs.trans h.size
  grown := h.grown
  live := hl ▸ h.live
  beyond := h.beyond
  host := hh
  zero := ⟨hs ▸ h.zero.pages, hs ▸ h.zero.le, fun c h1 h2 => by
    have hgrown := h.grown
    have hsize := h.size
    rw [hs] at h1
    rw [hm, cpuViews_memory, Nat.zero_add, hoff _ _ _ _ _ (by omega)]
    have := h.zero.zero c h1 h2
    rwa [cpuViews_memory, Nat.zero_add] at this⟩

/-- A host call ends the run where the host refuses, and else pushes what the host has answered. -/
theorem InFrame.callHost (hoff : KeepsOff m host) (h : InFrame m A pc (u ++ xs) ls s x)
    (hi : m.code[pc]? = some ⟨.callHost, a, b⟩) (ha : a &&& 0xff = u.length) (hle : u.length ≤ 16) :
    let out := host s.host b (u.reverse.map (BitVec.ofNat 64)) x.mach.mem
    match out.reply with
    | .error _ => ∃ r, hosted m e host x = .error r x ∧ Means (.refused (answered s out)) r
    | .ok (n, results) => (∃ r, hosted m e host x = .error r x ∧ Exhausted r) ∨
        ∃ y, hosted m e host x = .ok () y ∧
          InFrame m A (pc + 1) (((List.range n).map fun j => (results j).toNat).reverse ++ xs) ls
            (answered s out) y := by
  intro out
  have hsp := h.sp
  have hfit := h.fits
  rw [List.length_append] at hsp
  have hsp' : (fetched x.mach).sp = x.mach.sp := rfl
  have hexec : Run.exec m.cpuViews m.dev ⟨.callHost, a, b⟩ (fetched x.mach) =
      .error .hostcallPending (suspended m.cpuViews a b (fetched x.mach)) := by
    have he := callHost_apply m.cpuViews a b (fetched x.mach)
    rw [ha, if_neg (by omega), if_neg (by omega)] at he
    exact he
  have hstep := step_of_exec_error (h.pc ▸ hi) hexec
  set t := suspended m.cpuViews a b (fetched x.mach) with ht
  have hmail : (List.range t.mb.nArgs).map t.mb.args = u.reverse.map (BitVec.ofNat 64) := by
    rw [← h.mailbox]
    show (List.range (a &&& 0xff)).map (fun j => if j < a &&& 0xff then
      x.mach.stack (m.cpuViews.stack.idx (x.mach.sp - (a &&& 0xff) + j)) else x.mach.mb.args j) = _
    rw [ha]
    simp only [cpuViews_stack_idx]
  have hask : (Flat.left ⟨t, x.host⟩ .hostcallPending).ask host = out := by
    show host x.host b ((List.range t.mb.nArgs).map t.mb.args) x.mach.mem = _
    rw [hmail, h.store.host]
  cases hr : out.reply with
  | error err =>
    have hrun : hosted m e host x = .error ({ status := .unsupportedOp, error := err, peakCsp := t.peakCsp },
        m.withArrays { t.arrays with mem := out.memory } m.memSize, out.host) x := by
      simp only [hosted, flatStep, hstep, hostCall, hask, hr]
      rfl
    exact ⟨_, hrun, rfl, (h.store.answered (y := ⟨{ t with mem := out.memory }, out.host⟩) hoff rfl rfl rfl
      rfl rfl).reflects m.memSize⟩
  | ok p =>
    obtain ⟨n, results⟩ := p
    have hsize : t.sp = x.mach.sp - u.length := by rw [← ha]; rfl
    by_cases hn : n = 0 ∨ (Flat.left ⟨t, x.host⟩ .hostcallPending).st.sp + n ≤ STACK_CAP
    · have hrun : hosted m e host x = .ok () (Flat.answered ⟨t, x.host⟩
          { st := { t.save .hostcallPending with sp := t.sp + n, status := .running }
            mb := { t.mb with nResults := n, results := results }
            ar := { t.arrays with mem := out.memory, stack := withResults results 0 n t.sp t.stack }
            host := out.host }) := by
        simp only [hosted, flatStep, hstep, hostCall, hask, hr, pushResults_eq, if_pos hn]
        rfl
      have hfit' : t.sp + n ≤ STACK_CAP := by
        obtain hn | hn := hn
        · omega
        · exact hn
      refine .inr ⟨_, hrun, h.replace rfl ?_ (fun j v hj => ?_) (fun j hj => ?_) hfit'
        (h.store.answered hoff rfl rfl rfl rfl rfl)⟩
      · show t.sp + n = _
        rw [List.length_reverse, List.length_map, List.length_range, hsize]
      · have hlt := (List.getElem?_eq_some_iff.mp hj).1
        rw [List.length_reverse, List.length_map, List.length_range] at hlt
        rw [List.getElem?_reverse (by simpa using hlt), List.length_map, List.length_range,
          List.getElem?_map, List.getElem?_range (by omega)] at hj
        cases hj
        show withResults results 0 n t.sp t.stack (t.sp + n - (j + 1)) = _
        rw [withResults, if_pos (by omega), BitVec.ofNat_toNat, BitVec.setWidth_eq]
        congr 1
        omega
      · show withResults results 0 n t.sp t.stack j = _
        rw [withResults, if_neg (by omega)]
        rfl
    · have hrun : hosted m e host x = .error ({ status := .trapStackOverflow },
          m.withArrays { t.arrays with mem := out.memory } m.memSize, out.host) x := by
        simp only [hosted, flatStep, hstep, hostCall, hask, hr, pushResults_eq, if_neg hn]
        rfl
      exact .inl ⟨_, hrun, rfl⟩

end Host

end CuWasm
