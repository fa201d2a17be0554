import CuWasm.Meaning
import CuWasm.Proofs.AluProofs
import CuWasm.Proofs.BulkProofs
import CuWasm.Proofs.GrowProofs
import CuWasm.Proofs.SuspendProofs

/-!
# Inside an activation

What single instructions do to a machine that is related to a configuration of the structured
semantics by `InFrame`. An instruction that works on top of the operand stack leaves the locals and
all that lies below the frame alone, so that only its operands and the store need a word.
-/

namespace CuWasm

open Exit Run Wasm

section Views

variable (m : HostModule) (i : Nat)

@[simp] theorem cpuViews_stack_idx : m.cpuViews.stack.idx i = i := by
  simp [HostModule.cpuViews, AoSView.idx]

@[simp] theorem cpuViews_frames_idx : m.cpuViews.frames.idx i = i := by
  simp [HostModule.cpuViews, AoSView.idx]

@[simp] theorem cpuViews_cap : m.cpuViews.stack.cap = STACK_CAP := rfl

@[simp] theorem cpuViews_memory : m.cpuViews.memory = 0 := rfl

@[simp] theorem cpuViews_globals : m.cpuViews.globals = 0 := rfl

@[simp] theorem cpuViews_live : m.cpuViews.live = 0 := rfl

@[simp] theorem cpuViews_nGlobals : m.cpuViews.nGlobals = m.globals.length := rfl

end Views

section Hosted

variable {H : Type} {m : HostModule} {e : FuncMeta} {host : HostFn H} {x : Flat H} {t : Mach}
  {st : Status} {i : CuOp}

theorem hosted_ok (h : Run.step m.cpuViews m.dev x.mach = .ok () t) :
    hosted m e host x = .ok () ⟨t, x.host⟩ := by
  simp only [hosted, flatStep, h]

theorem hosted_exit (h : Run.step m.cpuViews m.dev x.mach = .error st t)
    (hst : st ≠ .hostcallPending) :
    hosted m e host x = .error (finalResult m e 0 (Flat.left ⟨t, x.host⟩ st)) x := by
  simp only [hosted, flatStep_final e host h hst]

theorem step_of_exec (hi : m.code[x.mach.pc]? = some i)
    (he : Run.exec m.cpuViews m.dev i (fetched x.mach) = .ok () t) (hsp : t.sp ≤ STACK_CAP) :
    Run.step m.cpuViews m.dev x.mach = .ok () t := by
  have hi' : m.dev.code[x.mach.pc]? = some i := hi
  rw [step_apply, hi']
  simp only [he]
  rw [if_neg (Nat.not_lt.mpr hsp)]

theorem step_of_exec_error (hi : m.code[x.mach.pc]? = some i)
    (he : Run.exec m.cpuViews m.dev i (fetched x.mach) = .error st t) :
    Run.step m.cpuViews m.dev x.mach = .error st t := by
  have hi' : m.dev.code[x.mach.pc]? = some i := hi
  rw [step_apply, hi']
  simp only [he]

end Hosted

/-! ## The store -/

section Store

variable {H : Type} {m : HostModule} {s : Wasm.Store H} {x y : Flat H}

/-- Only the globals, the memory with its size, the live flags and the host count. -/
theorem HoldsStore.congr (h : HoldsStore m s x) (hg : y.mach.globals = x.mach.globals)
    (hm : y.mach.mem = x.mach.mem) (hs : y.mach.memSize = x.mach.memSize)
    (hl : y.mach.live = x.mach.live) (hh : y.host = x.host) : HoldsStore m s y where
  count := h.count
  globals := hg ▸ h.globals
  mem := hm ▸ h.mem
  size := hs ▸ h.size
  grown := h.grown
  live := hl ▸ h.live
  beyond := h.beyond
  host := hh ▸ h.host
  zero := ⟨hs ▸ h.zero.pages, hs ▸ h.zero.le, fun c h1 h2 => by
    rw [hm]
    exact h.zero.zero c (hs ▸ h1) h2⟩

/-- A machine that differs in its operand stack only. -/
theorem HoldsStore.offStack {t : Mach} (h : HoldsStore m s x)
    (ht : t.offStack = (fetched x.mach).offStack) : HoldsStore m s ⟨t, x.host⟩ := by
  have hg := congrArg Mach.globals ht
  have hm := congrArg Mach.mem ht
  have hs := congrArg Mach.memSize ht
  have hl := congrArg Mach.live ht
  exact h.congr hg hm hs hl rfl

theorem HoldsStore.reflects (h : HoldsStore m s x) (size : Nat) :
    Reflects (m.withArrays x.mach.arrays size) x.host s := by
  refine ⟨?_, h.mem, fun d => ?_, h.host⟩
  · show (List.range m.globals.length).map x.mach.globals = s.globals.map (BitVec.ofNat 64)
    refine List.ext_getElem (by simp [h.count]) fun k h1 h2 => ?_
    rw [List.length_map] at h2
    simp only [List.getElem_map, List.getElem_range]
    exact h.globals k _ (List.getElem?_eq_getElem h2)
  · show ((List.range m.dataLive.length).map x.mach.live).getD d 0 = 0 ↔ _
    rw [List.getD_eq_getElem?_getD, List.getElem?_map]
    by_cases hd : d < m.dataLive.length
    · rw [List.getElem?_range hd]
      exact h.live d
    · rw [List.getElem?_eq_none (by simpa using hd)]
      exact ⟨fun _ => h.beyond d (Nat.le_of_not_lt hd), fun _ => rfl⟩

/-- What a run leaves that ends in `x`. -/
theorem HoldsStore.leaves (h : HoldsStore m s x) :
    Realizes (m.withArrays x.mach.arrays x.mach.memSize) x.host s :=
  { h.reflects x.mach.memSize with
    size := h.size
    pages := h.zero.pages
    le := h.zero.le
    zero := fun c h1 h2 => by
      have := h.zero.zero c h1 h2
      rwa [cpuViews_memory, Nat.zero_add] at this }

end Store

/-! ## Operands -/

section Operands

variable {H : Type} {m : HostModule} {e : FuncMeta} {host : HostFn H} {A : Activation} {pc k : Nat}
  {xs u w ls : List Nat} {s : Wasm.Store H} {x : Flat H} {i : CuOp}

theorem toNat_operand (t : ValType) (a : Nat) :
    operand t (BitVec.ofNat 64 a) = a % 2 ^ t.width := by
  have hw : t.width ≤ 64 := by cases t <;> simp [ValType.width]
  rw [operand, BitVec.toNat_ofNat, Nat.mod_mod_of_dvd _ (Nat.pow_dvd_pow 2 hw)]

theorem operand_i32_ofNat (a : Nat) : operand .i32 (BitVec.ofNat 64 a) = a % 2 ^ 32 :=
  toNat_operand .i32 a

/-- The topmost operands as the instructions see them, the last one on top. -/
theorem InFrame.onTop (h : InFrame m A pc (u ++ xs) ls s x) :
    OnTop m.cpuViews (fetched x.mach) (u.reverse.map (BitVec.ofNat 64)) := by
  have hsp := h.sp
  rw [List.length_append] at hsp
  have hsp' : (fetched x.mach).sp = x.mach.sp := rfl
  refine ⟨?_, h.fits, fun j a hj => ?_⟩
  · rw [List.length_map, List.length_reverse, hsp']
    omega
  · have hlt : j < u.length := by simpa using (List.getElem?_eq_some_iff.mp hj).1
    rw [List.getElem?_map, List.getElem?_reverse hlt, Option.map_eq_some_iff] at hj
    obtain ⟨b, hb, rfl⟩ := hj
    have hop := h.operands (u.length - 1 - j) b (by rw [List.getElem?_append_left (by omega), hb])
    rw [← hop, cpuViews_stack_idx, List.length_map, List.length_reverse, hsp']
    show x.mach.stack _ = x.mach.stack _
    congr 1
    omega

/-- A machine that has moved inside its activation: the locals and what lies below them are as
before. -/
theorem InFrame.move {pc' : Nat} {s' : Wasm.Store H} {y : Flat H} (h : InFrame m A pc xs ls s x)
    (hpc : y.mach.pc = pc') (hfp : y.mach.fp = x.mach.fp) (hcsp : y.mach.csp = x.mach.csp)
    (hfr : y.mach.frames = x.mach.frames) (hsp : y.mach.sp = A.fp + A.slots + u.length)
    (hfit : y.mach.sp ≤ STACK_CAP) (hlow : ∀ j < A.fp + A.slots, y.mach.stack j = x.mach.stack j)
    (hops : ∀ j a, u[j]? = some a → y.mach.stack (y.mach.sp - (j + 1)) = BitVec.ofNat 64 a)
    (hs : HoldsStore m s' y) : InFrame m A pc' u ls s' y where
  pc := hpc
  fp := hfp.trans h.fp
  csp := hcsp.trans h.csp
  sp := hsp
  fits := hfit
  count := h.count
  room := h.room
  locals := fun j a hj => by
    have hcount := h.count
    have hroom := h.room
    have hlt := (List.getElem?_eq_some_iff.mp hj).1
    rw [hlow _ (by omega)]
    exact h.locals j a hj
  operands := hops
  below := fun j hj => (hlow j (by omega)).trans (h.below j hj)
  frames := fun j hj => by
    rw [hfr]
    exact h.frames j hj
  store := hs

/-- The operands `u` on top have been replaced by `w`, and the store may have changed. -/
theorem InFrame.replace {t : Mach} {s' : Wasm.Store H} {hh : H}
    (h : InFrame m A pc (u ++ xs) ls s x)
    (hctl : Run.control t = Run.control (fetched x.mach)) (hsp : t.sp = x.mach.sp - u.length + w.length)
    (hres : ∀ j a, w[j]? = some a → t.stack (t.sp - (j + 1)) = BitVec.ofNat 64 a)
    (hcells : ∀ j < x.mach.sp - u.length, t.stack j = x.mach.stack j) (hfit : t.sp ≤ STACK_CAP)
    (hs : HoldsStore m s' ⟨t, hh⟩) : InFrame m A (pc + 1) (w ++ xs) ls s' ⟨t, hh⟩ := by
  obtain ⟨hpc, hfp, hcsp, hfr⟩ : t.pc = x.mach.pc + 1 ∧ t.fp = x.mach.fp ∧ t.csp = x.mach.csp ∧
      t.frames = x.mach.frames := by
    simp only [Run.control, Prod.mk.injEq] at hctl
    exact hctl
  have hlen := h.sp
  rw [List.length_append] at hlen
  refine h.move (hpc.trans (by rw [h.pc])) hfp hcsp hfr ?_ hfit (fun j hj => hcells j (by omega))
    (fun j a hj => ?_) hs
  · show t.sp = _
    rw [hsp, List.length_append]
    omega
  · show t.stack (t.sp - (j + 1)) = _
    by_cases hz : j < w.length
    · rw [List.getElem?_append_left hz] at hj
      exact hres j a hj
    · rw [List.getElem?_append_right (by omega)] at hj
      have hlt := (List.getElem?_eq_some_iff.mp hj).1
      rw [hcells _ (by omega), ← h.operands (u.length + (j - w.length)) a (by
        rw [List.getElem?_append_right (by omega), ← hj]
        congr 1
        omega)]
      congr 1
      omega

/-- The topmost operands have been replaced and nothing else has changed. -/
theorem InFrame.replaced {t : Mach} (h : InFrame m A pc (u ++ xs) ls s x)
    (hr : Replaced m.cpuViews u.length (w.reverse.map (BitVec.ofNat 64)) (fetched x.mach) t)
    (hfit : t.sp ≤ STACK_CAP) : InFrame m A (pc + 1) (w ++ xs) ls s ⟨t, x.host⟩ := by
  have hsp : t.sp = x.mach.sp - u.length + w.length := by
    have := hr.sp
    rwa [List.length_map, List.length_reverse] at this
  have hctl := congrArg Run.control hr.others
  refine h.replace hctl hsp (fun j a hj => ?_) (fun j hj => ?_) hfit
    (h.store.offStack hr.others)
  · have hlt := (List.getElem?_eq_some_iff.mp hj).1
    have hres := hr.results (w.length - 1 - j) (BitVec.ofNat 64 a) (by
      rw [List.getElem?_map, List.getElem?_reverse (by omega),
        show w.length - 1 - (w.length - 1 - j) = j by omega, hj]
      rfl)
    rw [← hres, cpuViews_stack_idx, hsp]
    have : (fetched x.mach).sp = x.mach.sp := rfl
    congr 1
    omega
  · refine hr.cells j fun k hk => ?_
    rw [cpuViews_stack_idx]
    have : (fetched x.mach).sp = x.mach.sp := rfl
    omega

/-- The topmost operands have been popped. -/
theorem InFrame.popped {t : Mach} (h : InFrame m A pc (u ++ xs) ls s x)
    (hp : Popped u.length (fetched x.mach) t) : InFrame m A (pc + 1) xs ls s ⟨t, x.host⟩ := by
  refine h.replaced (w := []) ⟨hp.sp, fun j y hj => by simp at hj, fun c _ => ?_, hp.others⟩ ?_
  · rw [hp.stack]
  · have hfit : (fetched x.mach).sp ≤ STACK_CAP := h.fits
    rw [hp.sp]
    omega

end Operands

/-! ## Instructions -/

section Instructions

variable {H : Type} {m : HostModule} {e : FuncMeta} {host : HostFn H} {A : Activation} {pc : Nat}
  {xs u w ls : List Nat} {s : Wasm.Store H} {x : Flat H} {i : CuOp} {t : Mach}
  {P : Flat H → Prop} {Q : Outgoing H → Flat H → Prop}

theorem eventually_of_exec (hi : m.code[x.mach.pc]? = some i)
    (he : Run.exec m.cpuViews m.dev i (fetched x.mach) = .ok () t) (hsp : t.sp ≤ STACK_CAP)
    (hP : P ⟨t, x.host⟩) : Eventually (hosted m e host) P Q x :=
  .step (hosted_ok (step_of_exec hi he hsp)) (.now hP)

theorem eventually_limit {st : Status} (hQ : ∀ r y, Exhausted r → Q r y)
    (hi : m.code[x.mach.pc]? = some i)
    (he : Run.exec m.cpuViews m.dev i (fetched x.mach) = .error st t) (hst : st.isLimit = true) :
    Eventually (hosted m e host) P Q x := by
  refine .exit (hosted_exit (step_of_exec_error hi he) ?_) (hQ _ _ hst)
  rintro rfl
  cases hst

theorem faultStatus_ne (f : Fault) : faultStatus f ≠ .hostcallPending := by
  cases f with
  | arith t => cases t <;> nofun
  | _ => nofun

/-- An instruction that traps and changes nothing but the operand stack. -/
theorem InFrame.traps {f : Fault} (h : InFrame m A pc xs ls s x) (hi : m.code[pc]? = some i)
    (he : Run.exec m.cpuViews m.dev i (fetched x.mach) = .error (faultStatus f) t)
    (ht : t.offStack = (fetched x.mach).offStack) (hQ : ∀ r y, Means (.trap f s) r → Q r y) :
    Eventually (hosted m e host) P Q x := by
  exact .exit (hosted_exit (step_of_exec_error (h.pc ▸ hi) he) (faultStatus_ne f))
    (hQ _ _ ⟨rfl, (h.store.offStack ht).leaves⟩)

/-- An instruction that replaces operands by as many results at most. -/
theorem InFrame.yields {k : Nat} (h : InFrame m A pc (u ++ xs) ls s x) (hi : m.code[pc]? = some i)
    (hlen : u.length = k)
    (hy : Yields m.cpuViews k (.ok (w.reverse.map (BitVec.ofNat 64))) (fetched x.mach)
      (Run.exec m.cpuViews m.dev i (fetched x.mach)))
    (hfit : x.mach.sp - k + w.length ≤ STACK_CAP) :
    Eventually (hosted m e host) (InFrame m A (pc + 1) (w ++ xs) ls s) Q x := by
  subst hlen
  cases hr : Run.exec m.cpuViews m.dev i (fetched x.mach) with
  | error st t =>
    rw [hr] at hy
    exact absurd hy.1 nofun
  | ok _ t =>
    rw [hr] at hy
    obtain ⟨w', heq, hrep⟩ := hy
    cases heq
    have hsp : t.sp = x.mach.sp - u.length + w.length := by
      have := hrep.sp
      rwa [List.length_map, List.length_reverse] at this
    have hcap : t.sp ≤ STACK_CAP := hsp ▸ hfit
    exact eventually_of_exec (h.pc ▸ hi) hr hcap (h.replaced hrep hcap)

/-- An instruction that yields a trap. -/
theorem InFrame.yields_trap {k : Nat} {f : Fault} (h : InFrame m A pc xs ls s x)
    (hi : m.code[pc]? = some i)
    (hy : Yields m.cpuViews k (.error (faultStatus f)) (fetched x.mach)
      (Run.exec m.cpuViews m.dev i (fetched x.mach)))
    (hQ : ∀ r y, Means (.trap f s) r → Q r y) : Eventually (hosted m e host) P Q x := by
  cases hr : Run.exec m.cpuViews m.dev i (fetched x.mach) with
  | error st t =>
    rw [hr] at hy
    obtain ⟨heq, -, hoff⟩ := hy
    cases heq
    exact h.traps hi hr hoff hQ
  | ok _ t =>
    rw [hr] at hy
    obtain ⟨w', heq, -⟩ := hy
    cases heq

/-- An instruction that pushes what it reads. -/
theorem InFrame.push {a : Nat} {g : Run Slot} {l : List Access} (h : InFrame m A pc xs ls s x)
    (hQ : ∀ r y, Exhausted r → Q r y) (hi : m.code[pc]? = some i)
    (he : Run.exec m.cpuViews m.dev i (fetched x.mach) = Run.push m.cpuViews g (fetched x.mach))
    (hg : g (fetched x.mach) = .ok (BitVec.ofNat 64 a) { fetched x.mach with log := l }) :
    Eventually (hosted m e host) (InFrame m A (pc + 1) (a :: xs) ls s) Q x := by
  rw [push_apply, hg] at he
  by_cases hc : (fetched x.mach).sp ≥ m.cpuViews.stack.cap
  · rw [if_pos hc] at he
    exact eventually_limit hQ (h.pc ▸ hi) he rfl
  · rw [if_neg hc] at he
    have hcap : x.mach.sp + 1 ≤ STACK_CAP := Nat.lt_of_not_le hc
    refine eventually_of_exec (h.pc ▸ hi) he hcap ?_
    refine InFrame.replaced (u := []) (w := [a]) h ⟨rfl, fun j y hj => ?_, fun c hc => ?_, rfl⟩ hcap
    · obtain ⟨rfl, rfl⟩ : j = 0 ∧ BitVec.ofNat 64 a = y := by
        cases j with
        | zero => exact ⟨rfl, by simpa using hj⟩
        | succ j => simp at hj
      simp
    · have hne := hc 0 (by simp)
      exact Function.update_of_ne hne _ _

end Instructions

end CuWasm
