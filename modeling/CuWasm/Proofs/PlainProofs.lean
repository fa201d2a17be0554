import CuWasm.Interp
import CuWasm.Lib.Exit

/-!
# Plain instructions

Most opcodes pop some operands, push some results and go on with the next instruction. `effect` is
their stack effect; `exec_plain` says, for all of them at once, what such an instruction leaves alone
and which cells it accesses.
-/

namespace CuWasm

open Exit

@[simp] theorem dec32_succ (n : Nat) : dec32 (n + 1) = n := rfl

theorem dec32_of_pos {n : Nat} (h : 0 < n) : dec32 n = n - 1 := by
  unfold dec32
  rw [if_neg (by omega)]

theorem AoSView.idx_eq (v : AoSView) (i : Nat) : v.idx i = v.idx 0 + i := rfl

theorem AoSView.idx_inj (v : AoSView) {i j : Nat} : v.idx i = v.idx j ↔ i = j := by
  unfold AoSView.idx
  omega

theorem AoSView.idx_le (v : AoSView) {i j : Nat} : v.idx i ≤ v.idx j ↔ i ≤ j := by
  unfold AoSView.idx
  omega

theorem AoSView.idx_lt (v : AoSView) {i j : Nat} : v.idx i < v.idx j ↔ i < j := by
  unfold AoSView.idx
  omega

namespace Run

variable (v : Views)

theorem stackGet_apply (i : Nat) (s : Mach) :
    stackGet v i s = .ok (s.stack (v.stack.idx i))
      { s with log := ⟨.stack, v.stack.idx i, 1⟩ :: s.log } := rfl

theorem pop_apply (s : Mach) :
    pop v s = .ok (s.stack (v.stack.idx (dec32 s.sp)))
      { s with
        sp := dec32 s.sp
        log := ⟨.stack, v.stack.idx (dec32 s.sp), 1⟩ :: s.log } := rfl

theorem push_apply (x : Run Slot) (s : Mach) :
    push v x s =
      if s.sp ≥ v.stack.cap then .error .trapStackOverflow s
      else match x s with
        | .ok y t => .ok () { t with
            sp := t.sp + 1
            stack := Function.update t.stack (v.stack.idx t.sp) y
            log := ⟨.stack, v.stack.idx t.sp, 1⟩ :: t.log }
        | .error e t => .error e t := by
  simp only [push, bind_apply, get_apply, ite_run, throw_apply]
  split_ifs
  · rfl
  · cases x s <;> rfl

end Run

/-- The plain instruction pushes more operands than it pops. -/
def CuOp.Grows (i : CuOp) : Prop := ∃ p q, effect i = some (p, q) ∧ p < q

/-- A cell access of a plain instruction `i` that pops `p` operands in the state `s`. -/
def PlainAccess (v : Views) (i : CuOp) (p : Nat) (s : Mach) (a : Access) : Prop :=
  match a.region with
  | .stack => ∃ j, a.start = v.stack.idx j ∧ a.count = 1 ∧
      (s.sp - p ≤ j ∧ (j < s.sp ∨ j < v.stack.cap ∧ i.Grows) ∨
        ∃ k, localOf i = some k ∧ j = s.fp + k)
  | .frames => False
  | .globals => v.globals ≤ a.start ∧ a.start + a.count ≤ v.globals + v.nGlobals
  | .memory => v.memory ≤ a.start ∧ a.start + a.count ≤ v.memory + s.memSize
  | .live => v.live ≤ a.start ∧ a.start + a.count ≤ v.live + v.nData

/-- What a plain instruction `i` that pops `p` operands leaves alone between `s` and `s'`. -/
structure PlainFrame (v : Views) (i : CuOp) (p : Nat) (s s' : Mach) : Prop where
  pc : s'.pc = s.pc
  fp : s'.fp = s.fp
  csp : s'.csp = s.csp
  fuel : s'.fuel = s.fuel
  peakCsp : s'.peakCsp = s.peakCsp
  frames : s'.frames = s.frames
  below : ∀ j, j < s.sp - p → (∀ k, localOf i = some k → j ≠ s.fp + k) →
    s'.stack (v.stack.idx j) = s.stack (v.stack.idx j)
  log : ∀ a ∈ s'.log, a ∈ s.log ∨ PlainAccess v i p s a

/-- The exits a plain instruction can take. -/
def PlainExit : Status → Prop
  | .trapStackOverflow | .trapDivByZero | .trapIntOverflow | .trapMemOob | .unsupportedOp => True
  | _ => False

theorem BinOp.eval_error {o : BinOp} {a b : Slot} {e : Status} (h : o.eval a b = .error e) :
    PlainExit e := by
  cases o <;> simp only [BinOp.eval, divS, divU, remS, remU] at h <;>
    (try split_ifs at h) <;> cases h <;> trivial

section Plain

variable {v : Views} {i : CuOp} {p n : Nat} {s0 : Mach}

/-- Between the parts of a plain instruction: `PlainFrame` so far, with the operand stack at `k` and
the memory of size `n`. -/
def During (v : Views) (i : CuOp) (p : Nat) (s0 : Mach) (n k : Nat) (s : Mach) : Prop :=
  PlainFrame v i p s0 s ∧ s.sp = k ∧ s.memSize = n

/-- The exit condition that goes with `During`. -/
def Left (v : Views) (i : CuOp) (p : Nat) (s0 : Mach) (e : Status) (s : Mach) : Prop :=
  PlainFrame v i p s0 s ∧ PlainExit e

theorem PlainFrame.refl (v : Views) (i : CuOp) (p : Nat) (s : Mach) : PlainFrame v i p s s :=
  ⟨rfl, rfl, rfl, rfl, rfl, rfl, fun _ _ _ => rfl, fun _ h => .inl h⟩

theorem spec_pop {k : Nat} (h : s0.sp - p ≤ k) (hk : k < s0.sp) :
    Spec (During v i p s0 n (k + 1)) (Run.pop v) (fun _ => During v i p s0 n k) (Left v i p s0) := by
  rintro s ⟨hf, hsp, hm⟩
  rw [Run.pop_apply]
  refine ⟨fun a s' hs => ?_, fun e s' hs => (by cases hs)⟩
  cases hs
  rw [hsp, dec32_succ]
  refine ⟨⟨hf.pc, hf.fp, hf.csp, hf.fuel, hf.peakCsp, hf.frames, hf.below, fun a ha => ?_⟩, rfl, hm⟩
  rcases List.mem_cons.mp ha with rfl | ha
  · exact .inr ⟨k, rfl, rfl, .inl ⟨h, .inl hk⟩⟩
  · exact hf.log a ha

theorem spec_push {k : Nat} (h : s0.sp - p ≤ k) (hk : k < s0.sp ∨ i.Grows) {x : Run Slot}
    (hx : Spec (During v i p s0 n k) x (fun _ => During v i p s0 n k) (Left v i p s0)) :
    Spec (During v i p s0 n k) (Run.push v x) (fun _ => During v i p s0 n (k + 1)) (Left v i p s0) := by
  intro s hs
  have hsp := hs.2.1
  obtain ⟨hx1, hx2⟩ := hx s hs
  rw [Run.push_apply]
  split_ifs with hc
  · refine ⟨fun a s' h => (by cases h), fun e s' he => ?_⟩
    cases he
    exact ⟨hs.1, trivial⟩
  · cases hxs : x s with
    | ok y t =>
      obtain ⟨hf, ht, hm⟩ := hx1 y t hxs
      refine ⟨fun a s' h => ?_, fun e s' he => (by cases he)⟩
      cases h
      refine ⟨⟨hf.pc, hf.fp, hf.csp, hf.fuel, hf.peakCsp, hf.frames, fun j hj hl => ?_,
        fun a ha => ?_⟩, by simp only [ht], hm⟩
      · show Function.update t.stack (v.stack.idx t.sp) y (v.stack.idx j) = _
        rw [Function.update_of_ne, hf.below j hj hl]
        rw [ne_eq, AoSView.idx_inj]
        omega
      · rcases List.mem_cons.mp ha with rfl | ha
        · exact .inr ⟨t.sp, rfl, rfl, .inl ⟨by omega,
            hk.imp (fun hk => by omega) fun hk => ⟨by omega, hk⟩⟩⟩
        · exact hf.log a ha
    | error e t =>
      refine ⟨fun a s' h => (by cases h), fun e' s' he => ?_⟩
      cases he
      exact hx2 e t hxs

theorem spec_push_pure {k : Nat} (h : s0.sp - p ≤ k) (hk : k < s0.sp ∨ i.Grows) (x : Slot) :
    Spec (During v i p s0 n k) (Run.push v (pure x)) (fun _ => During v i p s0 n (k + 1))
      (Left v i p s0) :=
  spec_push h hk (Spec.pure fun _ hs => hs)

/-- Recording an access that the instruction is allowed to make. -/
theorem spec_touch {k : Nat} {r : Region} {start count : Nat}
    (h : PlainAccess v i p s0 ⟨r, start, count⟩) :
    Spec (During v i p s0 n k) (Run.touch r start count) (fun _ => During v i p s0 n k)
      (Left v i p s0) := by
  refine Spec.modify ?_
  rintro s ⟨hf, hsp, hm⟩
  refine ⟨⟨hf.pc, hf.fp, hf.csp, hf.fuel, hf.peakCsp, hf.frames, hf.below, fun a ha => ?_⟩, hsp, hm⟩
  rcases List.mem_cons.mp ha with rfl | ha
  · exact .inr h
  · exact hf.log a ha

/-- A change of parts of the machine that no frame condition mentions. -/
theorem spec_modify {k : Nat} {f : Mach → Mach}
    (h : ∀ s, (f s).pc = s.pc ∧ (f s).fp = s.fp ∧ (f s).csp = s.csp ∧ (f s).fuel = s.fuel ∧
      (f s).peakCsp = s.peakCsp ∧ (f s).frames = s.frames ∧ (f s).stack = s.stack ∧
      (f s).log = s.log ∧ (f s).sp = s.sp ∧ (f s).memSize = s.memSize) :
    Spec (During v i p s0 n k) (modify f) (fun _ => During v i p s0 n k) (Left v i p s0) := by
  refine Spec.modify ?_
  rintro s ⟨hf, hsp, hm⟩
  obtain ⟨h1, h2, h3, h4, h5, h6, h7, h8, h9, h10⟩ := h s
  refine ⟨⟨h1.trans hf.pc, h2.trans hf.fp, h3.trans hf.csp, h4.trans hf.fuel,
    h5.trans hf.peakCsp, h6.trans hf.frames, ?_, ?_⟩, h9.trans hsp, h10.trans hm⟩
  · rw [h7]; exact hf.below
  · rw [h8]; exact hf.log

theorem spec_throw {α : Type} {k : Nat} {e : Status} (h : PlainExit e) {Q : α → Mach → Prop} :
    Spec (During v i p s0 n k) (throw e) Q (Left v i p s0) :=
  Spec.throw fun _ hs => ⟨hs.1, h⟩

theorem spec_get_bind {α : Type} {k : Nat} {g : Mach → Run α} {Q : α → Mach → Prop}
    (hg : ∀ a, During v i p s0 n k a → Spec (During v i p s0 n k) (g a) Q (Left v i p s0)) :
    Spec (During v i p s0 n k) (get >>= g) Q (Left v i p s0) := by
  refine Spec.bind Spec.get fun a => ?_
  rintro s ⟨rfl, hs⟩
  exact hg s hs s hs

/-- Writing the local of the instruction. -/
theorem spec_localSet {k l : Nat} (hl : localOf i = some l) (x : Slot) :
    Spec (During v i p s0 n k) (do Run.stackSet v ((← get).fp + l) x)
      (fun _ => During v i p s0 n k) (Left v i p s0) := by
  refine spec_get_bind fun a ha => ?_
  have hfp : a.fp = s0.fp := ha.1.fp
  refine Spec.bind (spec_touch ⟨a.fp + l, rfl, rfl, .inr ⟨l, hl, by rw [hfp]⟩⟩) fun _ => ?_
  refine Spec.modify ?_
  rintro s ⟨hf, hsp, hm⟩
  refine ⟨⟨hf.pc, hf.fp, hf.csp, hf.fuel, hf.peakCsp, hf.frames, fun j hj hne => ?_, hf.log⟩,
    hsp, hm⟩
  show Function.update s.stack (v.stack.idx (a.fp + l)) x (v.stack.idx j) = _
  rw [Function.update_of_ne, hf.below j hj hne]
  rw [ne_eq, AoSView.idx_inj, hfp]
  exact hne l hl

/-- Reading the local of the instruction. -/
theorem spec_localGet {k l : Nat} (hl : localOf i = some l) :
    Spec (During v i p s0 n k) (do Run.stackGet v ((← get).fp + l))
      (fun _ => During v i p s0 n k) (Left v i p s0) := by
  refine spec_get_bind fun a ha => ?_
  have hfp : a.fp = s0.fp := ha.1.fp
  refine Spec.bind (spec_touch ⟨a.fp + l, rfl, rfl, .inr ⟨l, hl, by rw [hfp]⟩⟩) fun _ => ?_
  exact spec_get_bind fun b _ => Spec.pure fun s hs => hs

theorem memInBounds_iff {size ea n : Nat} : memInBounds size ea n = true ↔ ea + n ≤ size := by
  unfold memInBounds
  split_ifs
  · simp; omega
  · simp; omega

end Plain

section Exec

variable {v : Views} {m : DevModule} {i : CuOp} {s : Mach}

/-- The specification of a plain instruction, for a computation. -/
abbrev PlainSpec (v : Views) (i : CuOp) (p q : Nat) (s : Mach) (x : Run Unit) : Prop :=
  Spec (During v i p s s.memSize s.sp) x (fun _ s' => PlainFrame v i p s s' ∧ s'.sp = s.sp - p + q)
    (Left v i p s)

/-- `spec_pop` counted from the start of the instruction. -/
theorem spec_popN {p n : Nat} (k : Nat) (hk : k < p) (hp : p ≤ s.sp) :
    Spec (During v i p s n (s.sp - k)) (Run.pop v) (fun _ => During v i p s n (s.sp - (k + 1)))
      (Left v i p s) := by
  have h : s.sp - k = s.sp - (k + 1) + 1 := by omega
  rw [h]
  exact spec_pop (by omega) (by omega)

/-- `spec_push_pure` counted from the height below the popped operands. -/
theorem spec_pushN {p n : Nat} (k : Nat) (hk : s.sp - p + k < s.sp) (x : Slot) :
    Spec (During v i p s n (s.sp - p + k)) (Run.push v (pure x))
      (fun _ => During v i p s n (s.sp - p + (k + 1))) (Left v i p s) :=
  spec_push_pure (by omega) (.inl hk) x

theorem spec_pushPair {p n : Nat} (hp : 2 ≤ p ∧ p ≤ s.sp) (x : Slot × Slot) :
    Spec (During v i p s n (s.sp - p)) (Run.pushPair v x)
      (fun _ => During v i p s n (s.sp - p + 2)) (Left v i p s) :=
  Spec.bind (spec_pushN 0 (by omega) x.1) fun _ => spec_pushN 1 (by omega) x.2

/-- From the last part of an instruction to the whole. -/
theorem PlainSpec.of_during {p q n : Nat} {x : Run Unit}
    (h : Spec (During v i p s s.memSize s.sp) x (fun _ => During v i p s n (s.sp - p + q))
      (Left v i p s)) : PlainSpec v i p q s x :=
  h.mono (fun _ h => h) (fun _ _ h => ⟨h.1, h.2.1⟩) (fun _ _ h => h)

/-- A trap between the parts of a plain instruction. -/
theorem spec_guard {α : Type} {p n k : Nat} {c : Prop} [Decidable c] {e : Status}
    (he : PlainExit e) {g : PUnit → Run α} {Q : α → Mach → Prop}
    (hg : ¬ c → Spec (During v i p s n k) (g ⟨⟩) Q (Left v i p s)) :
    Spec (During v i p s n k) (if c then throw e >>= g else g ⟨⟩) Q (Left v i p s) :=
  Spec.guard (fun _ _ hs => ⟨hs.1, he⟩) hg

theorem spec_load (hp : 1 ≤ s.sp) : PlainSpec v i 1 1 s (Run.load v i.a i.b) := by
  refine PlainSpec.of_during (n := s.memSize) (Spec.bind (spec_popN 0 (by omega) hp) fun x => ?_)
  refine spec_get_bind fun a ha => spec_guard (by trivial) fun hc => ?_
  have hb : (u32 x).toNat + i.b + (i.a &&& 0xf) ≤ s.memSize := by
    push Not at hc
    have h := hc.2.2
    rw [ha.2.2] at h
    exact memInBounds_iff.mp (by simpa using h)
  refine Spec.bind (spec_touch ⟨by simp, by simp only; omega⟩) fun _ => ?_
  exact spec_get_bind fun _ _ => spec_pushN 0 (by omega) _

theorem spec_store (hp : 2 ≤ s.sp) : PlainSpec v i 2 0 s (Run.store v i.a i.b) := by
  refine PlainSpec.of_during (n := s.memSize) (Spec.bind (spec_popN 0 (by omega) hp) fun x => ?_)
  refine Spec.bind (spec_popN 1 (by omega) hp) fun y => ?_
  refine spec_get_bind fun a ha => spec_guard (by trivial) fun hc => ?_
  have hb : (u32 y).toNat + i.b + i.a ≤ s.memSize := by
    push Not at hc
    have h := hc.2.2
    rw [ha.2.2] at h
    exact memInBounds_iff.mp (by simpa using h)
  refine Spec.bind (spec_touch ⟨by simp, by simp only; omega⟩) fun _ => ?_
  exact spec_modify fun s => by simp

theorem spec_memoryGrow (hp : 1 ≤ s.sp) : PlainSpec v i 1 1 s (Run.memoryGrow v) := by
  intro t ht
  refine Spec.bind (Q := fun _ => During v i 1 s s.memSize (s.sp - 1))
    (spec_popN 0 (by omega) hp) (fun x => ?_) t ht
  refine spec_get_bind fun a ha => Spec.ite (fun _ => ?_) fun _ => ?_
  · exact (spec_pushN 0 (by omega) _).mono (fun _ h => h) (fun _ _ h => ⟨h.1, h.2.1⟩) fun _ _ h => h
  · refine Spec.bind (Q := fun _ => During v i 1 s
      ((s.memSize / WASM_PAGE + (u32 x).toNat) % 2 ^ 32 * WASM_PAGE % 2 ^ 32) (s.sp - 1))
      (Spec.modify ?_) fun _ => ?_
    · rintro u ⟨hf, hsp, hm⟩
      exact ⟨⟨hf.pc, hf.fp, hf.csp, hf.fuel, hf.peakCsp, hf.frames, hf.below, hf.log⟩, hsp,
        by simp only [ha.2.2]⟩
    · exact (spec_pushN 0 (by omega) _).mono (fun _ h => h) (fun _ _ h => ⟨h.1, h.2.1⟩) fun _ _ h => h

theorem spec_memoryCopy (hp : 3 ≤ s.sp) : PlainSpec v i 3 0 s (Run.memoryCopy v) := by
  refine PlainSpec.of_during (n := s.memSize) (Spec.bind (spec_popN 0 (by omega) hp) fun x => ?_)
  refine Spec.bind (spec_popN 1 (by omega) hp) fun y => ?_
  refine Spec.bind (spec_popN 2 (by omega) hp) fun z => ?_
  refine spec_get_bind fun a ha => spec_guard (by trivial) fun hc => ?_
  rw [ha.2.2] at hc
  refine Spec.bind (spec_touch ⟨by simp, by simp only; omega⟩) fun _ => ?_
  refine Spec.bind (spec_touch ⟨by simp, by simp only; omega⟩) fun _ => ?_
  exact spec_modify fun s => by simp

theorem spec_memoryFill (hp : 3 ≤ s.sp) : PlainSpec v i 3 0 s (Run.memoryFill v) := by
  refine PlainSpec.of_during (n := s.memSize) (Spec.bind (spec_popN 0 (by omega) hp) fun x => ?_)
  refine Spec.bind (spec_popN 1 (by omega) hp) fun y => ?_
  refine Spec.bind (spec_popN 2 (by omega) hp) fun z => ?_
  refine spec_get_bind fun a ha => spec_guard (by trivial) fun hc => ?_
  rw [ha.2.2] at hc
  refine Spec.bind (spec_touch ⟨by simp, by simp only; omega⟩) fun _ => ?_
  exact spec_modify fun s => by simp

theorem spec_memoryInit (hp : 3 ≤ s.sp) : PlainSpec v i 3 0 s (Run.memoryInit v i.a) := by
  refine PlainSpec.of_during (n := s.memSize) (Spec.bind (spec_popN 0 (by omega) hp) fun x => ?_)
  refine Spec.bind (spec_popN 1 (by omega) hp) fun y => ?_
  refine Spec.bind (spec_popN 2 (by omega) hp) fun z => ?_
  refine spec_guard (by trivial) fun hd => ?_
  refine Spec.bind (spec_touch ⟨by simp, by simp only; omega⟩) fun _ => ?_
  refine spec_get_bind fun a _ => spec_get_bind fun b hb => spec_guard (by trivial) fun hc => ?_
  rw [hb.2.2] at hc
  refine Spec.bind (spec_touch ⟨by simp, by simp only; omega⟩) fun _ => ?_
  exact spec_modify fun s => by simp

theorem spec_dataDrop : PlainSpec v i 0 0 s (Run.dataDrop v i.a) := by
  refine PlainSpec.of_during (n := s.memSize) ?_
  unfold Run.dataDrop
  refine spec_guard (by trivial) fun hd => ?_
  refine Spec.bind (spec_touch ⟨by simp, by simp only; omega⟩) fun _ => ?_
  exact spec_modify fun s => by simp

theorem spec_globalGet (hg : i.Grows) : PlainSpec v i 0 1 s (Run.globalGet v i.b) := by
  refine PlainSpec.of_during (n := s.memSize) ?_
  unfold Run.globalGet
  refine spec_guard (by trivial) fun hd => ?_
  refine spec_push (by omega) (.inr hg) ?_
  refine Spec.bind (spec_touch ⟨by simp, by simp only; omega⟩) fun _ => ?_
  exact spec_get_bind fun _ _ => Spec.pure fun _ h => h

theorem spec_globalSet (hp : 1 ≤ s.sp) : PlainSpec v i 1 0 s (Run.globalSet v i.b) := by
  refine PlainSpec.of_during (n := s.memSize) ?_
  unfold Run.globalSet
  refine spec_guard (by trivial) fun hd => ?_
  refine Spec.bind (spec_popN 0 (by omega) hp) fun x => ?_
  refine Spec.bind (spec_touch ⟨by simp, by simp only; omega⟩) fun _ => ?_
  exact spec_modify fun s => by simp

/-- The whole of a plain instruction: the operands it takes off and puts on, and its frame. -/
theorem spec_exec (m : DevModule) {p q : Nat} (he : effect i = some (p, q)) (hp : p ≤ s.sp) :
    PlainSpec v i p q s (Run.exec v m i) := by
  have hgrow (h : p < q) : i.Grows := ⟨p, q, he, h⟩
  unfold Run.exec
  unfold effect at he
  cases hop : i.op <;> simp only [hop, Option.some.injEq, Prod.mk.injEq, reduceCtorEq] at he ⊢ <;>
    obtain ⟨rfl, rfl⟩ := he
  case i64Const => exact PlainSpec.of_during (spec_push_pure (by omega) (.inr (hgrow (by decide))) _)
  case localGet =>
    exact PlainSpec.of_during (spec_push (by omega) (.inr (hgrow (by decide)))
      (spec_localGet (by simp [localOf, hop])))
  case localSet =>
    exact PlainSpec.of_during (Spec.bind (spec_popN 0 (by omega) hp) fun x =>
      spec_localSet (by simp [localOf, hop]) x)
  case bin o =>
    refine PlainSpec.of_during (n := s.memSize) (Spec.bind (spec_popN 0 (by omega) hp) fun b => ?_)
    refine Spec.bind (spec_popN 1 (by omega) hp) fun a => ?_
    cases hr : o.eval a b with
    | ok r => exact spec_pushN 0 (by omega) r
    | error e => exact spec_throw (BinOp.eval_error hr)
  case un o =>
    exact PlainSpec.of_during (Spec.bind (spec_popN 0 (by omega) hp) fun x => spec_pushN 0 (by omega) _)
  case drop =>
    exact PlainSpec.of_during (Spec.bind (spec_popN 0 (by omega) hp) fun x => Spec.pure fun _ h => h)
  case select =>
    exact PlainSpec.of_during (Spec.bind (spec_popN 0 (by omega) hp) fun c =>
      Spec.bind (spec_popN 1 (by omega) hp) fun b =>
      Spec.bind (spec_popN 2 (by omega) hp) fun a => spec_pushN 0 (by omega) _)
  case i64MulWideS =>
    exact PlainSpec.of_during (Spec.bind (spec_popN 0 (by omega) hp) fun b =>
      Spec.bind (spec_popN 1 (by omega) hp) fun a => spec_pushPair ⟨by omega, hp⟩ _)
  case i64MulWideU =>
    exact PlainSpec.of_during (Spec.bind (spec_popN 0 (by omega) hp) fun b =>
      Spec.bind (spec_popN 1 (by omega) hp) fun a => spec_pushPair ⟨by omega, hp⟩ _)
  case i64Add128 =>
    exact PlainSpec.of_during (Spec.bind (spec_popN 0 (by omega) hp) fun a =>
      Spec.bind (spec_popN 1 (by omega) hp) fun b =>
      Spec.bind (spec_popN 2 (by omega) hp) fun c =>
      Spec.bind (spec_popN 3 (by omega) hp) fun d => spec_pushPair ⟨by omega, hp⟩ _)
  case i64Sub128 =>
    exact PlainSpec.of_during (Spec.bind (spec_popN 0 (by omega) hp) fun a =>
      Spec.bind (spec_popN 1 (by omega) hp) fun b =>
      Spec.bind (spec_popN 2 (by omega) hp) fun c =>
      Spec.bind (spec_popN 3 (by omega) hp) fun d => spec_pushPair ⟨by omega, hp⟩ _)
  case globalGet => exact spec_globalGet (hgrow (by decide))
  case globalSet => exact spec_globalSet hp
  case load => exact spec_load hp
  case store => exact spec_store hp
  case memorySize =>
    exact PlainSpec.of_during (spec_get_bind fun _ _ =>
      spec_push_pure (by omega) (.inr (hgrow (by decide))) _)
  case memoryGrow => exact spec_memoryGrow hp
  case memoryCopy => exact spec_memoryCopy hp
  case memoryFill => exact spec_memoryFill hp
  case memoryInit => exact spec_memoryInit hp
  case dataDrop => exact spec_dataDrop
  case clz =>
    exact PlainSpec.of_during (Spec.bind (spec_popN 0 (by omega) hp) fun x => spec_pushN 0 (by omega) _)

end Exec

end CuWasm
