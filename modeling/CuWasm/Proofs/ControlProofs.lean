import CuWasm.Frames
import CuWasm.Proofs.PlainProofs

/-!
# Control instructions

The opcodes that transfer control, move blocks of the stack or leave the run, each as an equation
for its result.
-/

namespace CuWasm

open Exit BlockMove

namespace Run

variable (v : Views)

@[simp] theorem touch_apply (r : Region) (start count : Nat) (s : Mach) :
    touch r start count s = .ok () { s with log := ⟨r, start, count⟩ :: s.log } := rfl

@[simp] theorem stackMove_apply (dst src n : Nat) (s : Mach) :
    stackMove v dst src n s = .ok ()
      { s with
        stack := blockMove s.stack (v.stack.idx dst) (v.stack.idx src) n
        log := ⟨.stack, v.stack.idx dst, n⟩ :: ⟨.stack, v.stack.idx src, n⟩ :: s.log } := by
  rw [AoSView.idx_eq _ dst, AoSView.idx_eq _ src, ← move_eq_blockMove]
  rfl

@[simp] theorem frameGet_apply (i : Nat) (s : Mach) :
    frameGet v i s = .ok (s.frames (v.frames.idx i))
      { s with log := ⟨.frames, v.frames.idx i, 1⟩ :: s.log } := rfl

@[simp] theorem frameSet_apply (i : Nat) (fr : Frame) (s : Mach) :
    frameSet v i fr s = .ok ()
      { s with
        frames := Function.update s.frames (v.frames.idx i) fr
        log := ⟨.frames, v.frames.idx i, 1⟩ :: s.log } := rfl

/-- The machine after `n` zeros have been pushed. -/
def zeroed (n : Nat) (s : Mach) : Mach :=
  { s with
    sp := s.sp + n
    stack := fillAsc s.stack (v.stack.idx s.sp) (fun _ => 0) n
    log := (List.range n).reverse.map (fun k => ⟨.stack, v.stack.idx (s.sp + k), 1⟩) ++ s.log }

theorem zeroed_succ (n : Nat) (s : Mach) : zeroed v (n + 1) s = zeroed v n (zeroed v 1 s) := by
  unfold zeroed
  simp only [Mach.mk.injEq, true_and]
  refine ⟨by omega, ?_, ?_⟩
  · funext i
    simp only [fillAsc_apply, AoSView.idx]
    split_ifs <;> first | rfl | omega
  · rw [List.range_succ_eq_map, List.reverse_cons, List.map_append, List.append_assoc,
      ← List.map_reverse, List.map_map]
    congr 1
    exact List.map_congr_left fun k _ => by
      simp only [Function.comp_apply, Nat.succ_eq_add_one]
      rw [Nat.add_right_comm, Nat.add_assoc]

theorem push_zero_apply (s : Mach) :
    push v (pure 0) s =
      if s.sp ≥ v.stack.cap then .error .trapStackOverflow s else .ok () (zeroed v 1 s) := by
  rw [push_apply]
  split_ifs
  · rfl
  · simp only [pure_apply, zeroed, fillAsc]
    rfl

/-- Pushing zeros succeeds when they fit, and stops at the capacity otherwise. -/
theorem pushZeros_apply (n : Nat) (s : Mach) :
    pushZeros v n s =
      if n = 0 ∨ s.sp + n ≤ v.stack.cap then .ok () (zeroed v n s)
      else .error .trapStackOverflow (zeroed v (v.stack.cap - s.sp) s) := by
  induction n generalizing s with
  | zero => rfl
  | succ n ih =>
    rw [pushZeros, bind_apply, push_zero_apply]
    by_cases h : s.sp ≥ v.stack.cap
    · rw [if_pos h, if_neg (by omega), show v.stack.cap - s.sp = 0 by omega]
      rfl
    · rw [if_neg h]
      simp only
      rw [ih, ← zeroed_succ]
      have hsp : (zeroed v 1 s).sp = s.sp + 1 := rfl
      by_cases hn : s.sp + (n + 1) ≤ v.stack.cap
      · rw [if_pos (by omega), if_pos (by omega)]
      · by_cases h0 : n = 0
        · omega
        · rw [if_neg (by omega), if_neg (by omega), hsp,
            show v.stack.cap - s.sp = (v.stack.cap - (s.sp + 1)) + 1 by omega, ← zeroed_succ]

theorem unwind_apply (a b : Nat) (s : Mach) :
    unwind v a b s =
      if a > s.sp ∨ (s.fp + b) % 2 ^ 32 < a ∨ (s.fp + b) % 2 ^ 32 > STACK_CAP then
        .error .trapStackOverflow s
      else .ok ()
        { s with
          sp := (s.fp + b) % 2 ^ 32
          stack := blockMove s.stack (v.stack.idx ((s.fp + b) % 2 ^ 32 - a))
            (v.stack.idx (s.sp - a)) a
          log := if (s.fp + b) % 2 ^ 32 - a ≠ s.sp - a then
              ⟨.stack, v.stack.idx ((s.fp + b) % 2 ^ 32 - a), a⟩ ::
                ⟨.stack, v.stack.idx (s.sp - a), a⟩ :: s.log
            else s.log } := by
  simp only [unwind, bind_apply, get_apply, ite_run, throw_apply]
  generalize (s.fp + b) % 2 ^ 32 = dest
  by_cases h1 : a > s.sp
  · simp only [h1, true_or, if_true]
  · simp only [h1, false_or, if_false]
    by_cases h2 : dest < a ∨ dest > STACK_CAP
    · simp only [if_pos h2]
    · simp only [if_neg h2]
      by_cases h3 : dest - a = s.sp - a
      · simp only [h3, ne_eq, not_true_eq_false, if_false, blockMove_self]
        rfl
      · simp only [ne_eq, h3, not_false_eq_true, if_true, stackMove_apply]
        rfl

theorem br_apply (b : Nat) (s : Mach) :
    br b s =
      if b ≤ s.pc then
        if s.fuel - FUEL_BACKEDGE ≤ 0 then
          .error .outOfFuel { s with fuel := s.fuel - FUEL_BACKEDGE }
        else .ok () { s with fuel := s.fuel - FUEL_BACKEDGE, pc := b }
      else .ok () { s with pc := b } := by
  simp only [br, bind_apply, get_apply, ite_run, throw_apply]
  by_cases h : b ≤ s.pc
  · rw [if_pos h, if_pos h]
    rfl
  · rw [if_neg h, if_neg h]
    rfl

/-- The frame a call saves. -/
def callFrame (f : FuncMeta) (s : Mach) : Frame := ⟨s.pc, s.fp, s.sp - f.nParams, f.nResults⟩

/-- The machine once a call has saved the caller's registers. -/
def framed (f : FuncMeta) (s : Mach) : Mach :=
  { s with
    csp := s.csp + 1
    peakCsp := if s.csp + 1 > s.peakCsp then s.csp + 1 else s.peakCsp
    fp := s.sp - f.nParams
    frames := Function.update s.frames (v.frames.idx s.csp) (callFrame f s)
    log := ⟨.frames, v.frames.idx s.csp, 1⟩ :: s.log }

theorem enter_apply (f : FuncMeta) (s : Mach) :
    enter v f s =
      if s.csp ≥ FRAME_CAP then .error .trapCallDepth s
      else if s.sp < f.nParams then .error .trapStackOverflow s
      else match pushZeros v f.nLocals (framed v f s) with
        | .ok _ t => .ok () { t with pc := f.codeOff }
        | .error e t => .error e t := by
  simp only [enter, bind_apply, get_apply, ite_run, throw_apply, frameSet_apply, modify_apply]
  by_cases h1 : s.csp ≥ FRAME_CAP
  · simp only [if_pos h1]
  · simp only [if_neg h1]
    by_cases h2 : s.sp < f.nParams
    · simp only [if_pos h2]
    · simp only [if_neg h2]
      simp only [framed, callFrame]
      generalize pushZeros v f.nLocals _ = r
      cases r <;> rfl

theorem leave_apply (s : Mach) :
    leave v s =
      if s.csp = 0 then .error .trapUnreachable s
      else
        let fr := s.frames (v.frames.idx (s.csp - 1))
        let s1 := { s with csp := s.csp - 1, log := ⟨.frames, v.frames.idx (s.csp - 1), 1⟩ :: s.log }
        if s.sp < fr.nResults then .error .trapStackOverflow s1
        else
          let s2 := { s1 with
            sp := fr.spBase + fr.nResults
            fp := fr.fp
            stack := blockMove s.stack (v.stack.idx fr.spBase) (v.stack.idx (s.sp - fr.nResults))
              fr.nResults
            log := ⟨.stack, v.stack.idx fr.spBase, fr.nResults⟩ ::
              ⟨.stack, v.stack.idx (s.sp - fr.nResults), fr.nResults⟩ :: s1.log }
          if s.csp = 1 then .error .ok s2 else .ok () { s2 with pc := fr.retPc } := by
  simp only [leave, bind_apply, get_apply, ite_run, throw_apply, modify_apply, frameGet_apply,
    stackMove_apply]
  by_cases h1 : s.csp = 0
  · simp only [if_pos h1]
  · simp only [if_neg h1]
    by_cases h2 : s.sp < (s.frames (v.frames.idx (s.csp - 1))).nResults
    · simp only [if_pos h2]
    · simp only [if_neg h2]
      by_cases h3 : s.csp = 1
      · rw [if_pos h3, if_pos (by omega)]
      · rw [if_neg h3, if_neg (by omega)]

/-- The machine once a tail call has moved its arguments to the frame base. -/
def rebased (f : FuncMeta) (s : Mach) : Mach :=
  { s with
    sp := s.fp + f.nParams
    stack := blockMove s.stack (v.stack.idx s.fp) (v.stack.idx (s.sp - f.nParams)) f.nParams
    log := ⟨.stack, v.stack.idx s.fp, f.nParams⟩ ::
      ⟨.stack, v.stack.idx (s.sp - f.nParams), f.nParams⟩ :: s.log }

/-- The frame of the current activation with the result count of the tail callee. -/
def retargeted (f : FuncMeta) (csp : Nat) (s : Mach) : Mach :=
  if csp > 0 then
    { s with
      frames := Function.update s.frames (v.frames.idx (csp - 1))
        { s.frames (v.frames.idx (csp - 1)) with nResults := f.nResults }
      log := ⟨.frames, v.frames.idx (csp - 1), 1⟩ :: ⟨.frames, v.frames.idx (csp - 1), 1⟩ :: s.log }
  else s

theorem returnCall_apply (f : FuncMeta) (s : Mach) :
    returnCall v f s =
      if s.sp < f.nParams then .error .trapStackOverflow s
      else match pushZeros v f.nLocals (rebased v f s) with
        | .ok _ t => .ok () { retargeted v f s.csp t with pc := f.codeOff }
        | .error e t => .error e t := by
  simp only [returnCall, bind_apply, get_apply, ite_run, throw_apply, stackMove_apply, modify_apply]
  by_cases h1 : s.sp < f.nParams
  · simp only [if_pos h1]
  · simp only [if_neg h1, rebased]
    generalize pushZeros v f.nLocals _ = r
    cases r with
    | error e t => rfl
    | ok a t =>
      by_cases h2 : s.csp > 0
      · simp only [if_pos h2, retargeted, frameGet_apply, frameSet_apply]
      · simp only [if_neg h2, retargeted]

/-- The machine suspended at a host call. -/
def suspended (a b : Nat) (s : Mach) : Mach :=
  { s with
    sp := s.sp - (a &&& 0xff)
    hostFn := b
    hostNArgs := a &&& 0xff
    hostNResults := (a >>> 8) &&& 0xff
    mb := { s.mb with
      fnId := b, nArgs := a &&& 0xff, nResults := (a >>> 8) &&& 0xff
      args := fun i => if i < a &&& 0xff then s.stack (v.stack.idx (s.sp - (a &&& 0xff) + i))
        else s.mb.args i }
    log := ⟨.stack, v.stack.idx (s.sp - (a &&& 0xff)), a &&& 0xff⟩ :: s.log }

theorem callHost_apply (a b : Nat) (s : Mach) :
    callHost v a b s =
      if a &&& 0xff > 16 then .error .unsupportedOp s
      else if s.sp < a &&& 0xff then .error .trapStackOverflow s
      else .error .hostcallPending (suspended v a b s) := by
  simp only [callHost, bind_apply, get_apply, ite_run, throw_apply, touch_apply, modify_apply]
  split_ifs <;> rfl

theorem indirectCallee_apply (m : DevModule) (b idx : Nat) (s : Mach) :
    indirectCallee m b idx s =
      match indirectTarget m b idx with
      | none => .error .trapIndirectCall s
      | some f => .ok f s := by
  unfold indirectCallee indirectTarget
  cases m.table[idx]? with
  | none => rfl
  | some fi =>
    simp only [ite_run]
    by_cases h : fi = TABLE_NULL
    · simp only [if_pos h]
      rfl
    · simp only [if_neg h]
      cases m.funcs[fi]? with
      | none => rfl
      | some f =>
        cases m.typeFp[b]? with
        | none => rfl
        | some want =>
          cases m.funcTypeidx[fi]? with
          | none => rfl
          | some tidx =>
            simp only [ite_run]
            by_cases h2 : m.typeFp[tidx]? = some want
            · simp only [h2, ne_eq, not_true_eq_false, if_false, if_true]
              rfl
            · simp only [h2, ne_eq, not_false_eq_true, if_false, if_true]
              rfl

/-- What it takes for an indirect call to find its callee. -/
theorem indirectTarget_some {m : DevModule} {b idx : Nat} {g : FuncMeta}
    (h : indirectTarget m b idx = some g) : ∃ fi want tidx, m.table[idx]? = some fi ∧
      m.funcs[fi]? = some g ∧ m.typeFp[b]? = some want ∧ m.funcTypeidx[fi]? = some tidx ∧
      m.typeFp[tidx]? = some want := by
  unfold indirectTarget at h
  split at h
  · cases h
  · rename_i fi htab
    split_ifs at h
    split at h
    · rename_i f want tidx hf hwant htidx
      split_ifs at h with heq
      cases h
      exact ⟨fi, want, tidx, htab, hf, hwant, htidx, heq⟩
    · cases h

theorem indirectTarget_mem {m : DevModule} {b idx : Nat} {g : FuncMeta}
    (h : indirectTarget m b idx = some g) : g ∈ m.funcs := by
  obtain ⟨fi, want, tidx, -, hf, -⟩ := indirectTarget_some h
  exact List.mem_of_getElem? hf

/-- The machine once an instruction has been fetched. -/
def fetched (s : Mach) : Mach := { s with log := [], pc := s.pc + 1 }

/-- One round of the instruction loop. -/
theorem step_apply (m : DevModule) (s : Mach) :
    step v m s =
      match m.code[s.pc]? with
      | none => .error .trapUnreachable { s with log := [] }
      | some i =>
        match exec v m i (fetched s) with
        | .ok _ t => if t.sp > STACK_CAP then .error .trapStackOverflow t else .ok () t
        | .error e t => .error e t := by
  simp only [step, bind_apply, modify_apply, get_apply]
  cases m.code[s.pc]? with
  | none => rfl
  | some i =>
    simp only [bind_apply, modify_apply, fetched]
    generalize exec v m i _ = r
    cases r with
    | error e t => rfl
    | ok a t => simp only [get_apply, ite_run, throw_apply, pure_apply]

end Run

end CuWasm
