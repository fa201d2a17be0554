import CuWasm.Garbage
import CuWasm.Proofs.AlikeProofs
import CuWasm.Proofs.FinishProofs
import CuWasm.Proofs.IndirectProofs

/-!
# Stack garbage is never observed

Every instruction of an activation that obeys the frame discipline reads below the stack pointer only
and leaves no slot below the new stack pointer that it has not written or that was not below the old
one. Two runs that start with different garbage above the stack pointer therefore go alike.
-/

namespace CuWasm

open Exit BlockMove Verify Wasm Translate

section Parts

variable {v : Views} {s t : Mach}

/-! ## The relation -/

theorem Views.Fits.refl (v : Views) : v.Fits v := ⟨le_rfl, rfl, rfl, rfl, rfl, rfl⟩

theorem SameBelow.alike (h : SameBelow v s t) : Alike (ownBelow s.sp) v v t.arrays s t where
  regs := h.regs
  stack := .start fun j hj => h.stack j hj
  frames := .start fun j _ => h.frames j
  globals := .start fun j _ => h.globals j
  mem := .start fun j _ => h.mem j
  live := .start fun j _ => h.live j

theorem Alike.sameRest {n : Nat} {ar : Arrays} (h : Alike (ownBelow n) v v ar s t) :
    SameRest v s t where
  regs := h.regs
  frames j := h.frames.agree j trivial
  globals j := h.globals.agree j trivial
  mem j := h.mem.agree j trivial
  live j := h.live.agree j trivial

theorem Alike.sameBelow {n : Nat} {ar : Arrays} (h : Alike (ownBelow n) v v ar s t)
    (hsp : s.sp ≤ n) : SameBelow v s t where
  toSameRest := h.sameRest
  stack j hj := h.stack.agree j (show j < n by omega)

/-- A trap, behind which nobody looks at the stack. -/
theorem Matched.trap {e : Status} (h : SameRest v s t) (h1 : e ≠ .running) (h2 : e ≠ .ok) :
    Matched v (.error e s) (.error e t) :=
  .error e h fun he => by
    rcases he with he | he
    · exact absurd he h1
    · exact absurd he h2

/-- An exit that leaves the machines alike. -/
theorem Matched.exit {e : Status} (h : SameBelow v s t) : Matched v (.error e s) (.error e t) :=
  .error e h.toSameRest fun _ => h

/-- Moving operands that lie below the stack pointer, to a place that begins there too. -/
theorem SameBelow.move (h : SameBelow v s t) {dst src n k j : Nat} (hd : dst ≤ s.sp)
    (hs : src + n ≤ s.sp) (hk : k = dst + n) (hj : j < k) :
    blockMove t.stack (v.stack.idx dst) (v.stack.idx src) n (v.stack.idx j) =
      blockMove s.stack (v.stack.idx dst) (v.stack.idx src) n (v.stack.idx j) := by
  by_cases hin : dst ≤ j
  · have hj' : v.stack.idx j = v.stack.idx dst + (j - dst) := by
      simp only [AoSView.idx]
      omega
    have hsrc : v.stack.idx src + (j - dst) = v.stack.idx (src + (j - dst)) := by
      simp only [AoSView.idx]
      omega
    rw [hj', blockMove_of_mem _ (by omega), blockMove_of_mem _ (by omega), hsrc]
    exact h.stack _ (by omega)
  · have hout : v.stack.idx j < v.stack.idx dst := v.stack.idx_lt.mpr (by omega)
    rw [blockMove_of_not_mem _ (.inl hout), blockMove_of_not_mem _ (.inl hout)]
    exact h.stack j (by omega)

/-! ## Plain instructions -/

/-- A plain instruction that pushes no more than it pops works below the stack pointer. -/
theorem matched_plain {m : DevModule} {i : CuOp} {p q : Nat} (he : effect i = some (p, q))
    (hpq : q ≤ p) (hp : p ≤ s.sp) (hlog : s.log = [])
    (hlocal : ∀ k, localOf i = some k → s.fp + k < s.sp) (h : SameBelow v s t) :
    Matched v (Run.exec v m i s) (Run.exec v m i t) := by
  have hgrow : ¬ i.Grows := by
    rintro ⟨p', q', he', hlt⟩
    rw [he] at he'
    cases he'
    omega
  have hspec := spec_exec (v := v) m he hp s ⟨PlainFrame.refl v i p s, rfl, rfl⟩
  have hend : Ends (Alike (ownBelow s.sp) v v t.arrays) (Spoiled (ownBelow s.sp) v) (Escape v v)
      (Run.exec v m i s) (Run.exec v m i t) :=
    exec_ends (Views.Fits.refl v) m h.alike fun _ => Iff.rfl
  -- no cell from the stack pointer upwards is accessed
  have hin (u : Mach) (hu : PlainFrame v i p s u) : ¬ Spoiled (ownBelow s.sp) v u := by
    rintro ⟨a, ha, hout⟩
    refine hout fun j h1 h2 => ?_
    rcases hu.log a ha with hmem | hacc
    · rw [hlog] at hmem
      cases hmem
    · unfold PlainAccess at hacc
      obtain ⟨r, start, count⟩ := a
      cases r with
      | stack =>
        obtain ⟨c, hc, hone, hcell⟩ := hacc
        simp only [Views.base, AoSView.idx] at h1 h2 hc hone
        have hjc : j = c := by omega
        show j < s.sp
        rcases hcell with ⟨-, hlt | ⟨-, hg⟩⟩ | ⟨k, hk, hfp⟩
        · omega
        · exact absurd hg hgrow
        · have := hlocal k hk
          omega
      | _ => trivial
  generalize hx : Run.exec v m i s = r at hend
  generalize Run.exec v m i t = r' at hend
  rw [hx] at hspec
  cases hend with
  | @ok a s' t' h' =>
    obtain ⟨-, hsp⟩ := hspec.1 a s' rfl
    exact .ok (h'.sameBelow (by omega))
  | @error e s' t' h' =>
    obtain ⟨-, hexit⟩ := hspec.2 e s' rfl
    refine .trap h'.sameRest ?_ ?_
    · rintro rfl
      exact hexit
    · rintro rfl
      exact hexit
  | spoiled hb =>
    exfalso
    cases r with
    | ok a u => exact hin u (hspec.1 a u rfl).1 hb
    | error e u => exact hin u (hspec.2 e u rfl).1 hb
  | escaped he =>
    exact absurd he.2 (Nat.lt_irrefl _)

/-- Pushing an operand that both machines compute alike. -/
theorem matched_push {x : Run Slot} {y : Slot} {u w : Mach} (hsp : t.sp = s.sp)
    (hrest : SameRest v s t) (hs : x s = .ok y u) (ht : x t = .ok y w) (h : SameBelow v u w) :
    Matched v (Run.push v x s) (Run.push v x t) := by
  rw [Run.push_apply, Run.push_apply, hs, ht, hsp]
  split_ifs
  · exact .trap hrest (by decide) (by decide)
  · refine .ok ⟨⟨{ h.regs with sp := congrArg (· + 1) h.regs.sp }, h.frames, h.globals, h.mem, h.live⟩,
      fun j hj => ?_⟩
    show Function.update w.stack (v.stack.idx w.sp) y (v.stack.idx j) =
      Function.update u.stack (v.stack.idx u.sp) y (v.stack.idx j)
    rw [h.regs.sp]
    by_cases hj' : j = u.sp
    · rw [hj', Function.update_self, Function.update_self]
    · have hne : v.stack.idx j ≠ v.stack.idx u.sp := by rwa [ne_eq, AoSView.idx_inj]
      rw [Function.update_of_ne hne, Function.update_of_ne hne]
      refine h.stack j ?_
      simp only at hj
      omega

/-- A plain instruction that pushes more than it pops pushes one operand. -/
theorem matched_grows {m : DevModule} {i : CuOp} (hg : i.Grows)
    (hlocal : ∀ k, localOf i = some k → s.fp + k < s.sp) (h : SameBelow v s t) :
    Matched v (Run.exec v m i s) (Run.exec v m i t) := by
  obtain ⟨p, q, he, hlt⟩ := hg
  unfold effect at he
  unfold Run.exec
  cases hop : i.op <;> simp only [hop, Option.some.injEq, Prod.mk.injEq, reduceCtorEq] at he ⊢
  all_goals obtain ⟨rfl, rfl⟩ := he
  all_goals try exact absurd hlt (by decide)
  case i64Const => exact matched_push h.regs.sp h.toSameRest rfl rfl h
  case localGet =>
    have hfp := h.regs.fp
    have hval : t.stack (v.stack.idx (t.fp + i.a)) = s.stack (v.stack.idx (s.fp + i.a)) := by
      rw [hfp]
      exact h.stack _ (hlocal i.a (by simp [localOf, hop]))
    refine matched_push h.regs.sp h.toSameRest rfl (y := s.stack (v.stack.idx (s.fp + i.a)))
      (w := { t with log := ⟨.stack, v.stack.idx (t.fp + i.a), 1⟩ :: t.log }) ?_ ?_
    · rw [← hval]
      rfl
    · exact ⟨⟨{ h.regs with }, h.frames, h.globals, h.mem, h.live⟩, h.stack⟩
  case globalGet =>
    unfold Run.globalGet
    simp only [ite_run, bind_apply, throw_apply]
    split_ifs
    · exact .trap h.toSameRest (by decide) (by decide)
    · refine matched_push h.regs.sp h.toSameRest rfl (y := s.globals (v.globals + i.b))
        (w := { t with log := ⟨.globals, v.globals + i.b, 1⟩ :: t.log }) ?_ ?_
      · rw [← h.globals i.b]
        rfl
      · exact ⟨⟨{ h.regs with }, h.frames, h.globals, h.mem, h.live⟩, h.stack⟩
  case memorySize =>
    simp only [bind_apply, get_apply]
    rw [h.regs.memSize]
    exact matched_push h.regs.sp h.toSameRest rfl rfl h

/-! ## Calls, returns and branches -/

theorem SameBelow.zeroed (h : SameBelow v s t) (n : Nat) :
    SameBelow v (Run.zeroed v n s) (Run.zeroed v n t) := by
  refine ⟨⟨{ h.regs with sp := congrArg (· + n) h.regs.sp }, h.frames, h.globals, h.mem, h.live⟩,
    fun j hj => ?_⟩
  simp only [Run.zeroed, fillAsc_apply, h.regs.sp, AoSView.idx] at hj ⊢
  split_ifs
  · rfl
  · exact h.stack j (by omega)

theorem sameRest_framed (g : FuncMeta) (h : SameBelow v s t) :
    SameBelow v (Run.framed v g s) (Run.framed v g t) := by
  have hsp := h.regs.sp
  have hcsp := h.regs.csp
  refine ⟨⟨{ h.regs with csp := congrArg (· + 1) hcsp, fp := by simp only [Run.framed, hsp] },
    fun k => ?_, h.globals, h.mem, h.live⟩, h.stack⟩
  simp only [Run.framed, Run.callFrame, hsp, hcsp, h.regs.pc, h.regs.fp]
  by_cases hk : k = s.csp
  · rw [hk, Function.update_self, Function.update_self]
  · have hne : v.frames.idx k ≠ v.frames.idx s.csp := by rwa [ne_eq, AoSView.idx_inj]
    rw [Function.update_of_ne hne, Function.update_of_ne hne]
    exact h.frames k

/-- A callee sees its arguments and the zeros that have been pushed for it. -/
theorem matched_enter (g : FuncMeta) (h : SameBelow v s t) :
    Matched v (Run.enter v g s) (Run.enter v g t) := by
  have hsp : (Run.framed v g t).sp = (Run.framed v g s).sp := h.regs.sp
  rw [Run.enter_apply, Run.enter_apply, h.regs.csp, h.regs.sp, Run.pushZeros_apply,
    Run.pushZeros_apply, hsp]
  split_ifs
  · exact .trap h.toSameRest (by decide) (by decide)
  · exact .trap h.toSameRest (by decide) (by decide)
  · have hz := (sameRest_framed g h).zeroed g.nLocals
    exact .ok ⟨⟨{ hz.regs with pc := rfl }, hz.frames, hz.globals, hz.mem, hz.live⟩, hz.stack⟩
  · exact .trap ((sameRest_framed g h).zeroed _).toSameRest (by decide) (by decide)

/-- A tail callee sees its arguments and the zeros that have been pushed for it. -/
theorem matched_returnCall (g : FuncMeta) (h : SameBelow v s t) (hfp : s.fp ≤ s.sp) :
    Matched v (Run.returnCall v g s) (Run.returnCall v g t) := by
  have hsp := h.regs.sp
  have hfp' := h.regs.fp
  rw [Run.returnCall_apply, Run.returnCall_apply, hsp, h.regs.csp]
  split_ifs with hle
  · exact .trap h.toSameRest (by decide) (by decide)
  have hre : SameBelow v (Run.rebased v g s) (Run.rebased v g t) := by
    refine ⟨⟨{ h.regs with sp := congrArg (· + g.nParams) hfp' }, h.frames, h.globals, h.mem, h.live⟩,
      fun j hj => ?_⟩
    simp only [Run.rebased, hfp', hsp] at hj ⊢
    exact h.move hfp (by omega) rfl hj
  have hsp' : (Run.rebased v g t).sp = (Run.rebased v g s).sp := hre.regs.sp
  rw [Run.pushZeros_apply, Run.pushZeros_apply, hsp']
  split_ifs
  · have hz := hre.zeroed g.nLocals
    refine .ok ?_
    unfold Run.retargeted
    split_ifs
    · refine ⟨⟨{ hz.regs with pc := rfl }, fun k => ?_, hz.globals, hz.mem, hz.live⟩, hz.stack⟩
      simp only
      rw [hz.frames (s.csp - 1)]
      by_cases hk : k = s.csp - 1
      · rw [hk, Function.update_self, Function.update_self]
      · have hne : v.frames.idx k ≠ v.frames.idx (s.csp - 1) := by rwa [ne_eq, AoSView.idx_inj]
        rw [Function.update_of_ne hne, Function.update_of_ne hne]
        exact hz.frames k
    · exact ⟨⟨{ hz.regs with pc := rfl }, hz.frames, hz.globals, hz.mem, hz.live⟩, hz.stack⟩
  · exact .trap (hre.zeroed _).toSameRest (by decide) (by decide)

/-- A return moves the results down and forgets what lies above them. -/
theorem matched_leave (h : SameBelow v s t)
    (hbase : (s.frames (v.frames.idx (s.csp - 1))).spBase ≤ s.sp) :
    Matched v (Run.leave v s) (Run.leave v t) := by
  have hsp := h.regs.sp
  have hfr := h.frames (s.csp - 1)
  rw [Run.leave_apply, Run.leave_apply]
  simp only [h.regs.csp, hsp, hfr]
  have hregs := h.regs
  split_ifs with h1 h2 h3
  · exact .trap h.toSameRest (by decide) (by decide)
  · exact .trap ⟨⟨hregs.pc, rfl, hregs.fp, rfl, hregs.fuel, hregs.memSize⟩, h.frames, h.globals, h.mem,
      h.live⟩ (by decide) (by decide)
  · exact .exit ⟨⟨⟨hregs.pc, rfl, rfl, rfl, hregs.fuel, hregs.memSize⟩, h.frames, h.globals, h.mem,
      h.live⟩, fun j hj => h.move hbase (by omega) rfl hj⟩
  · exact .ok ⟨⟨⟨rfl, rfl, rfl, rfl, hregs.fuel, hregs.memSize⟩, h.frames, h.globals, h.mem, h.live⟩,
      fun j hj => h.move hbase (by omega) rfl hj⟩

/-- `OP_UNWIND` keeps operands that lie below the stack pointer. -/
theorem matched_unwind (h : SameBelow v s t) {a b : Nat} (hdest : (s.fp + b) % 2 ^ 32 ≤ s.sp) :
    Matched v (Run.unwind v a b s) (Run.unwind v a b t) := by
  have hregs := h.regs
  rw [Run.unwind_apply, Run.unwind_apply, hregs.fp, hregs.sp]
  split_ifs with hc
  · exact .trap h.toSameRest (by decide) (by decide)
  · exact .ok ⟨⟨⟨hregs.pc, rfl, rfl, hregs.csp, hregs.fuel, hregs.memSize⟩, h.frames, h.globals,
      h.mem, h.live⟩, fun j hj => h.move (by omega) (by omega) (by simp only; omega) hj⟩
  · exact .ok ⟨⟨⟨hregs.pc, rfl, rfl, hregs.csp, hregs.fuel, hregs.memSize⟩, h.frames, h.globals,
      h.mem, h.live⟩, fun j hj => h.move (by omega) (by omega) (by simp only; omega) hj⟩

theorem matched_br (h : SameBelow v s t) (b : Nat) : Matched v (Run.br b s) (Run.br b t) := by
  have hregs := h.regs
  rw [Run.br_apply, Run.br_apply, hregs.pc, hregs.fuel]
  split_ifs
  · exact .trap ⟨⟨rfl, hregs.sp, hregs.fp, hregs.csp, rfl, hregs.memSize⟩, h.frames, h.globals,
      h.mem, h.live⟩ (by decide) (by decide)
  · exact .ok ⟨⟨⟨rfl, hregs.sp, hregs.fp, hregs.csp, rfl, hregs.memSize⟩, h.frames, h.globals, h.mem,
      h.live⟩, h.stack⟩
  · exact .ok ⟨⟨⟨rfl, hregs.sp, hregs.fp, hregs.csp, rfl, hregs.memSize⟩, h.frames, h.globals,
      h.mem, h.live⟩, h.stack⟩

/-- Popping an operand. -/
theorem SameBelow.popped (h : SameBelow v s t) (hpos : 0 < s.sp) :
    ∃ x s' t', Run.pop v s = .ok x s' ∧ Run.pop v t = .ok x t' ∧ SameBelow v s' t' ∧
      s' = { s with sp := s.sp - 1, log := ⟨.stack, v.stack.idx (s.sp - 1), 1⟩ :: s.log } := by
  have hdec : dec32 s.sp = s.sp - 1 := dec32_of_pos hpos
  have hval : t.stack (v.stack.idx (dec32 t.sp)) = s.stack (v.stack.idx (s.sp - 1)) := by
    rw [h.regs.sp, hdec]
    exact h.stack _ (by omega)
  refine ⟨s.stack (v.stack.idx (s.sp - 1)), _, { t with
    sp := dec32 t.sp, log := ⟨.stack, v.stack.idx (dec32 t.sp), 1⟩ :: t.log }, ?_, ?_, ?_, rfl⟩
  · rw [Run.pop_apply, hdec]
  · rw [Run.pop_apply, hval]
  · refine ⟨⟨{ h.regs with sp := by simp only [h.regs.sp, hdec] }, h.frames, h.globals, h.mem, h.live⟩,
      fun j hj => h.stack j ?_⟩
    simp only at hj
    omega

end Parts

section Exec

variable {v : Views} {m : HostModule} {f : FuncMeta} {gs : List FuncMeta} {s t : Mach}
  (hm : Accepted m) (hinv : FrameInv v m f gs s)

include hm hinv

/-- The instruction about to be fetched does the same to both machines. -/
theorem exec_matched (h : SameBelow v s t) :
    Matched v (Run.exec v m.dev (instrAt m f (s.pc - f.codeOff)) (Run.fetched s))
      (Run.exec v m.dev (instrAt m f (s.pc - f.codeOff)) (Run.fetched t)) := by
  obtain ⟨hcode, fl, hfl, hcase⟩ := hinv.instr hm
  have hknown := hinv.located.known
  have hsp := hinv.sp
  have hsmall := hinv.small
  have hidx := hfl.index
  have hlocals : f.locals = f.nParams + f.nLocals := rfl
  have hf : SameBelow v (Run.fetched s) (Run.fetched t) :=
    ⟨⟨{ h.regs with pc := congrArg (· + 1) h.regs.pc }, h.frames, h.globals, h.mem, h.live⟩, h.stack⟩
  have hfp : (Run.fetched s).fp = s.fp := rfl
  have hfsp : (Run.fetched s).sp = s.sp := rfl
  generalize instrAt m f (s.pc - f.codeOff) = i at *
  cases hcase with
  | @plain p q he hp =>
    have hlocal (k : Nat) (hk : localOf i = some k) :
        (Run.fetched s).fp + k < (Run.fetched s).sp := by
      have := local_lt hidx hk
      omega
    by_cases hpq : q ≤ p
    · exact matched_plain he hpq (by omega) rfl hlocal hf
    · exact matched_grows ⟨p, q, he, by omega⟩ hlocal hf
  | unwind hop h0 h1 =>
    have hb := toI32_of_nonneg (show 0 ≤ toI32 i.b by omega)
    simp only [Run.exec, hop]
    exact matched_unwind hf (by omega)
  | br hop h1 h2 =>
    simp only [Run.exec, hop]
    exact matched_br hf i.b
  | brIfNot hop h0 h1 h2 =>
    obtain ⟨x, s', t', hs, ht, h', -⟩ := hf.popped (by omega)
    simp only [Run.exec, hop]
    rw [bind_ok hs, bind_ok ht]
    simp only [ite_run, modify_apply, pure_apply]
    split_ifs
    · exact .ok ⟨⟨{ h'.regs with pc := rfl }, h'.frames, h'.globals, h'.mem, h'.live⟩, h'.stack⟩
    · exact .ok h'
  | @call g hop hg hp =>
    have hfun : m.dev.funcs[i.b]? = some g := hg
    simp only [Run.exec, hop, hfun]
    exact matched_enter g hf
  | @returnCall g hop hg hp =>
    have hfun : m.dev.funcs[i.b]? = some g := hg
    simp only [Run.exec, hop, hfun]
    exact matched_returnCall g hf (by omega)
  | leave hop hp =>
    have hexec (u : Mach) : Run.exec v m.dev i u = Run.leave v u := by
      rcases hop with hop | hop <;> simp only [Run.exec, hop]
    rw [hexec, hexec]
    refine matched_leave hf ?_
    have hle := hinv.base_le (show s.csp - 1 < s.csp by have := hinv.csp; omega)
    show (s.frames (v.frames.idx (s.csp - 1))).spBase ≤ s.sp
    omega
  | unreachable hop =>
    simp only [Run.exec, hop, throw_apply]
    exact .trap hf.toSameRest (by decide) (by decide)
  | callHost hop hp =>
    have hregs := hf.regs
    simp only [Run.exec, hop]
    rw [Run.callHost_apply, Run.callHost_apply, hregs.sp]
    split_ifs
    · exact .trap hf.toSameRest (by decide) (by decide)
    · exact .trap hf.toSameRest (by decide) (by decide)
    · refine .trap ⟨{ hregs with sp := ?_ }, hf.frames, hf.globals, hf.mem, hf.live⟩ (by decide)
        (by decide)
      simp only [Run.suspended, hregs.sp]
  | @callIndirect fpv hop hfpv hp =>
    obtain ⟨x, s', t', hs, ht, h', -⟩ := hf.popped (by omega)
    simp only [Run.exec, hop]
    rw [bind_ok hs, bind_ok ht, bind_apply, bind_apply, Run.indirectCallee_apply,
      Run.indirectCallee_apply]
    cases Run.indirectTarget m.dev i.b (u32 x).toNat with
    | none => exact .trap h'.toSameRest (by decide) (by decide)
    | some g => exact matched_enter g h'

/-- One instruction does the same to both machines. -/
theorem step_matched (h : SameBelow v s t) :
    Matched v (Run.step v m.dev s) (Run.step v m.dev t) := by
  have hcode : m.dev.code[s.pc]? = some (instrAt m f (s.pc - f.codeOff)) := (hinv.instr hm).1
  have hout := exec_matched hm hinv h
  rw [Run.step_apply, Run.step_apply, h.regs.pc, hcode]
  simp only
  generalize Run.exec v m.dev (instrAt m f (s.pc - f.codeOff)) (Run.fetched s) = r at hout
  generalize Run.exec v m.dev (instrAt m f (s.pc - f.codeOff)) (Run.fetched t) = r' at hout
  cases hout with
  | error e h hok => exact .error e h hok
  | @ok s' t' h =>
    simp only [h.regs.sp]
    split_ifs
    · exact .trap h.toSameRest (by decide) (by decide)
    · exact .ok h

end Exec

section Verified

variable {M : Module} {m0 m : HostModule} {v : Views} {f e : FuncMeta} {gs : List FuncMeta}
  {s t : Mach}

/-- Two runs whose stacks agree below the stack pointer go alike. -/
theorem Verified.loop_matched (h : Verified M m0 m) (himp : M.imports = [])
    (hinv : FrameInv v m f gs s) (hst : SameBelow v s t) (n : Nat) :
    (Run.loop v m.dev n t).1 = (Run.loop v m.dev n s).1 ∧
      SameRest v (Run.loop v m.dev n s).2 (Run.loop v m.dev n t).2 ∧
      ((Run.loop v m.dev n s).1 = .running ∨ (Run.loop v m.dev n s).1 = .ok →
        SameBelow v (Run.loop v m.dev n s).2 (Run.loop v m.dev n t).2) := by
  induction n generalizing s t f gs with
  | zero => exact ⟨rfl, hst.toSameRest, fun _ => hst⟩
  | succ n ih =>
    have hstep := step_matched h.accepted hinv hst
    unfold Run.loop
    generalize hs : Run.step v m.dev s = r at hstep
    generalize Run.step v m.dev t = r' at hstep
    cases hstep with
    | error st hrest hopen => exact ⟨rfl, hrest, hopen⟩
    | ok h' =>
      obtain ⟨f', gs', hinv'⟩ := (go_frame h.accepted hinv (h.stepOk himp hinv) (.step hs)).1
      exact ih hinv' h'

/-- In a valid module without imports, what the stack buffer holds from the stack pointer upwards when
a run begins makes no difference: after every number of instructions the registers, the status and
the other arrays are the same, and so are the results when the run is over. -/
theorem garbage_unobserved {ps : List (Parsed Payload)} (hv : M.Valid)
    (himp : M.imports = []) (he : Encodes M ps) (hm : loadWasm ps = .ok m0)
    (hver : verifyCuop m0 = .ok m) (hmem : e ∈ m.funcs) (h0 : Entry v e s) (buffer : Nat → Slot)
    (hbelow : ∀ j, j < s.sp → buffer (v.stack.idx j) = s.stack (v.stack.idx j)) (n : Nat) :
    (Run.loop v m.dev n { s with stack := buffer }).1 = (Run.loop v m.dev n s).1 ∧
      SameRest v (Run.loop v m.dev n s).2 (Run.loop v m.dev n { s with stack := buffer }).2 ∧
      ((Run.loop v m.dev n s).1 = .ok → ∀ j, j < e.nResults →
        (Run.loop v m.dev n { s with stack := buffer }).2.stack (v.stack.idx j) =
          (Run.loop v m.dev n s).2.stack (v.stack.idx j)) := by
  have h : Verified M m0 m := ⟨loadWasm_translated he hm, hv, hver⟩
  have hinv := h0.frameInv h.accepted hmem (h.code_pos himp hmem)
  have hst : SameBelow v s { s with stack := buffer } :=
    ⟨⟨⟨rfl, rfl, rfl, rfl, rfl, rfl⟩, fun _ => rfl, fun _ => rfl, fun _ => rfl, fun _ => rfl⟩, hbelow⟩
  obtain ⟨hstatus, hrest, hopen⟩ := h.loop_matched himp hinv hst n
  refine ⟨hstatus, hrest, fun hok j hj => (hopen (.inr hok)).stack j ?_⟩
  rw [h.loop_finishes himp hinv h0.rooted n hok]
  exact hj

/-- The registers and the result of a run of the caller in `callModule`. -/
def callResult : Option (Bool × Status × List Nat × Bool) :=
  (loadWasm callModule.payloads).toOption.bind fun m0 =>
    (verifyCuop m0).toOption.map fun m =>
      let s := entryMach m callerMeta [5] 10
      let r := Run.loop m.cpuViews m.dev 9 s
      (m.funcs == [calleeMeta, callerMeta] && s.stack (m.cpuViews.stack.idx 0) == 5, r.1, [r.2.pc, r.2.sp, r.2.csp],
        r.2.stack (m.cpuViews.stack.idx 0) == 5)

/-- With a 7 in every free slot of the buffer it returns its argument as well. -/
theorem callModule_garbage : ∃ m0 m, loadWasm callModule.payloads = .ok m0 ∧
    verifyCuop m0 = .ok m ∧
    let t := { entryMach m callerMeta [5] 10 with stack := fun c => if c = 0 then 5 else 7 }
    (Run.loop m.cpuViews m.dev 9 t).1 = .ok ∧
      (Run.loop m.cpuViews m.dev 9 t).2.stack (m.cpuViews.stack.idx 0) = 5 := by
  have hload : callResult = some (true, .ok, [6, 1, 0], true) := by decide +kernel
  obtain ⟨m0, m, hm, hver, heval⟩ := loaded_eval hload
  simp only [Prod.mk.injEq, Bool.and_eq_true, beq_iff_eq] at heval
  obtain ⟨⟨hfuncs, harg⟩, hstatus, -, hres⟩ := heval
  have hmem : callerMeta ∈ m.funcs := by
    rw [hfuncs]
    exact List.mem_cons_of_mem _ (List.mem_singleton_self _)
  have hbelow (j : Nat) (hj : j < 1) : (if m.cpuViews.stack.idx j = 0 then 5 else 7) =
      (entryMach m callerMeta [5] 10).stack (m.cpuViews.stack.idx j) := by
    have hj0 : j = 0 := by omega
    rw [hj0, harg]
    exact if_pos (by simp [AoSView.idx, HostModule.cpuViews])
  obtain ⟨h1, -, h2⟩ := garbage_unobserved callModule_valid rfl rfl hm hver hmem
    (entryMach_entry m callerMeta [5] 10) (fun c => if c = 0 then 5 else 7) hbelow 9
  exact ⟨m0, m, hm, hver, by rw [h1, hstatus], by rw [h2 hstatus 0 (by decide), hres]⟩

end Verified

end CuWasm
