import CuWasm.Proofs.RunProofs

/-!
# How a run finishes

The frame of the entry function stays at the bottom of the frame stack for the whole run, and tail
calls do not change the number of results it promises. A run that ends with `ST_OK` therefore leaves
exactly the results of the entry function on the stack, from slot 0 on.
-/

namespace CuWasm

open Exit Verify Structured

section Finish

variable {v : Views} {m : HostModule} {f : FuncMeta} {gs : List FuncMeta} {s t : Mach}

/-- An instruction that ends the run is a return from the entry function. -/
structure Finishes (v : Views) (s w : Mach) : Prop where
  csp : s.csp = 1
  enough : (s.frames (v.frames.idx 0)).nResults ≤ s.sp
  sp : w.sp = (s.frames (v.frames.idx 0)).spBase + (s.frames (v.frames.idx 0)).nResults
  results : ∀ j, j < (s.frames (v.frames.idx 0)).nResults →
    w.stack (v.stack.idx ((s.frames (v.frames.idx 0)).spBase + j)) =
      s.stack (v.stack.idx (s.sp - (s.frames (v.frames.idx 0)).nResults + j))
  globals : w.globals = s.globals
  mem : w.mem = s.mem

/-- The bottom frame is that of the entry function `e`. -/
structure Rooted (v : Views) (e : FuncMeta) (s : Mach) : Prop where
  base : (s.frames (v.frames.idx 0)).spBase = 0
  nResults : (s.frames (v.frames.idx 0)).nResults = e.nResults

theorem leave_finishes {t w : Mach} (h : Run.leave v t = .error .ok w) : Finishes v t w := by
  rw [Run.leave_apply] at h
  simp only at h
  split_ifs at h with h1 h2 h3 <;> cases h
  rw [h3, Nat.sub_self] at h2 ⊢
  refine ⟨h3, by omega, rfl, fun j hj => ?_, rfl, rfl⟩
  have hidx (a b : Nat) : v.stack.idx (a + b) = v.stack.idx a + b := by
    simp only [AoSView.idx]
    omega
  rw [hidx, hidx]
  exact BlockMove.blockMove_of_mem _ hj

theorem enter_not_ok {g : FuncMeta} {t w : Mach} : Run.enter v g t ≠ .error .ok w := by
  intro h
  rw [Run.enter_apply, Run.pushZeros_apply] at h
  split_ifs at h <;> cases h

theorem returnCall_not_ok {g : FuncMeta} {t w : Mach} : Run.returnCall v g t ≠ .error .ok w := by
  intro h
  rw [Run.returnCall_apply, Run.pushZeros_apply] at h
  split_ifs at h <;> cases h

/-- Only a return ends a run. -/
theorem step_returns (hm : Accepted m) (hinv : FrameInv v m f gs s) {w : Mach}
    (h : Run.step v m.dev s = .error .ok w) : ∃ i, m.code[s.pc]? = some i ∧
      (i.op = .ret ∨ i.op = .endFunc) ∧ Run.leave v (Run.fetched s) = .error .ok w := by
  obtain ⟨hcode, fl, hfl, hcase⟩ := hinv.instr hm
  have hcode' : m.dev.code[s.pc]? = some (instrAt m f (s.pc - f.codeOff)) := hcode
  have hheight := hinv.sp
  rw [Run.step_apply, hcode'] at h
  simp only at h
  have hexec : Run.exec v m.dev (instrAt m f (s.pc - f.codeOff)) (Run.fetched s) = .error .ok w := by
    generalize Run.exec v m.dev (instrAt m f (s.pc - f.codeOff)) (Run.fetched s) = r at h
    cases r with
    | error e u => exact h
    | ok a u =>
      simp only at h
      split_ifs at h
      cases h
  generalize instrAt m f (s.pc - f.codeOff) = i at hcode hcase hexec
  cases hcase with
  | @plain p q he hp =>
    have hspec := spec_exec (v := v) (s := Run.fetched s) m.dev he
      (by simp only [Run.fetched]; unfold FuncMeta.locals at hheight; omega) (Run.fetched s)
      ⟨PlainFrame.refl v i p _, rfl, rfl⟩
    exact absurd (hspec.2 _ _ hexec).2 (fun h => h)
  | leave hop hp =>
    refine ⟨i, hcode, hop, ?_⟩
    rcases hop with hop | hop <;> simpa only [Run.exec, hop] using hexec
  | unwind hop h0 h1 =>
    simp only [Run.exec, hop] at hexec
    rw [Run.unwind_apply] at hexec
    split_ifs at hexec
    cases hexec
  | br hop h1 h2 =>
    simp only [Run.exec, hop] at hexec
    rw [Run.br_apply] at hexec
    split_ifs at hexec
    cases hexec
  | brIfNot hop h0 h1 h2 =>
    simp only [Run.exec, hop, bind_apply, Run.pop_apply, ite_run, modify_apply, pure_apply] at hexec
    split_ifs at hexec
  | @call g hop hg hp =>
    have hfun : m.dev.funcs[i.b]? = some g := hg
    simp only [Run.exec, hop, hfun] at hexec
    exact absurd hexec enter_not_ok
  | @returnCall g hop hg hp =>
    have hfun : m.dev.funcs[i.b]? = some g := hg
    simp only [Run.exec, hop, hfun] at hexec
    exact absurd hexec returnCall_not_ok
  | unreachable hop =>
    simp only [Run.exec, hop, throw_apply] at hexec
    cases hexec
  | callHost hop hp =>
    simp only [Run.exec, hop] at hexec
    rw [Run.callHost_apply] at hexec
    split_ifs at hexec <;> cases hexec
  | @callIndirect fpv hop hfp hp =>
    simp only [Run.exec, hop, bind_apply, Run.pop_apply, Run.indirectCallee_apply] at hexec
    generalize Run.indirectTarget m.dev i.b _ = o at hexec
    cases o with
    | none => cases hexec
    | some g => exact absurd hexec enter_not_ok

/-- Only a return from the entry function ends a run. -/
theorem step_finishes (hm : Accepted m) (hinv : FrameInv v m f gs s) {w : Mach}
    (h : Run.step v m.dev s = .error .ok w) : Finishes v s w := by
  obtain ⟨i, -, -, hleave⟩ := step_returns hm hinv h
  have hfin := leave_finishes hleave
  exact ⟨hfin.csp, hfin.enough, hfin.sp, hfin.results, hfin.globals, hfin.mem⟩

theorem Entry.rooted {e : FuncMeta} (h : Entry v e s) : Rooted v e s := by
  constructor
  · rw [h.frame]
  · rw [h.frame]

end Finish

section Verified

variable {M : Wasm.Module} {m0 m : HostModule} (h : Verified M m0 m) {v : Views} {f e : FuncMeta}
  {gs : List FuncMeta} {s t : Mach}

include h

/-- One step keeps the bottom frame. -/
theorem Verified.go_rooted (himp : M.imports = []) (hinv : FrameInv v m f gs s)
    (hroot : Rooted v e s) (hg : Go v m Declared s t) : Rooted v e t := by
  have hm := h.accepted
  have hok := h.stepOk himp hinv
  have hstep := step_frame hm hinv hok
  have hcsp := hinv.csp
  -- with a caller below, the bottom frame is one of those that stay
  by_cases hdeep : 1 < s.csp
  · have hfr := (go_frame hm hinv hok hg).2.2 hdeep 0 (by omega)
    exact ⟨by rw [hfr, hroot.base], by rw [hfr, hroot.nResults]⟩
  have hgs : gs = [] := List.eq_nil_of_length_eq_zero (by omega)
  subst hgs
  have hcallers := hinv.callers
  cases hg with
  | reenter hr => exact ⟨by rw [hr.frames, hroot.base], by rw [hr.frames, hroot.nResults]⟩
  | @host u _ _ hs hn hr =>
    subst hn
    rw [hs] at hstep
    obtain ⟨hfp, haw⟩ := hstep.2 rfl
    have hcallers' := haw.callers
    unfold Callers at hcallers hcallers'
    exact ⟨by rw [hr.frames, hcallers'.1, hfp, ← hcallers.1, hroot.base],
      by rw [hr.frames, hcallers'.2, ← hcallers.2, hroot.nResults]⟩
  | step hs =>
    rw [hs] at hstep
    obtain ⟨-, -, hmv⟩ := hstep
    cases hmv with
    | same h' hfp =>
      have hcallers' := h'.callers
      unfold Callers at hcallers hcallers'
      exact ⟨by rw [hcallers'.1, hfp, ← hcallers.1, hroot.base],
        by rw [hcallers'.2, ← hcallers.2, hroot.nResults]⟩
    | tail g h' hfp hop =>
      obtain ⟨i, hi, hret, hfun⟩ := hop
      obtain ⟨k, hk⟩ := List.mem_iff_getElem?.mp hinv.located.mem
      have htame := h.tame (by rw [himp]; exact Nat.zero_le _) hk hinv.located.code
        hinv.located.known
      rw [(hinv.instr hm).1] at hi
      cases hi
      unfold Tame at htame
      rw [hret] at htame
      have hcallers' := h'.callers
      unfold Callers at hcallers hcallers'
      exact ⟨by rw [hcallers'.1, hfp, ← hcallers.1, hroot.base],
        by rw [hcallers'.2, htame g hfun, ← hcallers.2, hroot.nResults]⟩
    | call g h' hst hfr =>
      have hcallers' := h'.callers
      unfold Callers at hcallers hcallers'
      obtain ⟨-, -, -, hrest⟩ := hcallers'
      unfold Callers at hrest
      rw [← hcsp, hfr] at hrest
      exact ⟨by rw [hrest.1, ← hcallers.1, hroot.base],
        by rw [hrest.2, ← hcallers.2, hroot.nResults]⟩
    | ret g gs' hgs h' _ _ _ _ _ => cases hgs

/-- A `run_instance` call that ends with `ST_OK` leaves the results of the entry function. -/
theorem Verified.loop_finishes (himp : M.imports = []) (hinv : FrameInv v m f gs s)
    (hroot : Rooted v e s) (n : Nat) (hok : (Run.loop v m.dev n s).1 = .ok) :
    (Run.loop v m.dev n s).2.sp = e.nResults := by
  induction n generalizing s f gs with
  | zero => cases hok
  | succ n ih =>
    unfold Run.loop at hok ⊢
    cases hs : Run.step v m.dev s with
    | error st w =>
      rw [hs] at hok
      simp only at hok ⊢
      subst hok
      have hfin := step_finishes h.accepted hinv hs
      rw [hfin.sp, hroot.base, hroot.nResults, Nat.zero_add]
    | ok _ t =>
      rw [hs] at hok
      obtain ⟨f', gs', hinv'⟩ := (go_frame h.accepted hinv (h.stepOk himp hinv) (.step hs)).1
      exact ih hinv' (h.go_rooted himp hinv hroot (.step hs)) hok

end Verified

end CuWasm
