import CuWasm.Lib.Exit
import CuWasm.Lower

/-!
# The lowering on arbitrary operators

What holds of `lower_operators` on every sequence of operators, well nested or not: the code and the
constants of the functions before stay as they are, and every `BR_IF_NOT` of a function that is
accepted leads forward.
-/

namespace CuWasm

open Wasm Exit

namespace Lower

/-- The opcode at a position. -/
def opAt (code : List CuOp) (p : Nat) : Option Opcode := code[p]?.map (·.op)

theorem opAt_append {code : List CuOp} {p : Nat} {op : Opcode} (h : opAt code p = some op)
    (l : List CuOp) : opAt (code ++ l) p = some op := by
  unfold opAt at h ⊢
  obtain ⟨i, hi, rfl⟩ := Option.map_eq_some_iff.mp h
  rw [List.getElem?_append_left (List.getElem?_eq_some_iff.mp hi).1, hi]
  rfl

theorem opAt_lt {code : List CuOp} {p : Nat} {op : Opcode} (h : opAt code p = some op) :
    p < code.length := by
  unfold opAt at h
  obtain ⟨i, hi, -⟩ := Option.map_eq_some_iff.mp h
  exact (List.getElem?_eq_some_iff.mp hi).1

theorem opAt_patchB (code : List CuOp) (p t q : Nat) : opAt (patchB code p t) q = opAt code q := by
  unfold opAt patchB
  rw [List.getElem?_modify]
  cases code[q]? with
  | none => rfl
  | some i => by_cases h : p = q <;> simp [h]

/-- The positions an open block remembers hold the branches it thinks they hold. -/
structure FrameOk (n : Nat) (code : List CuOp) (c : Ctrl) : Prop where
  patches : ∀ p ∈ c.patches, n ≤ p ∧ opAt code p = some .br
  elseBr : ∀ p, c.elseBr = some p → n ≤ p ∧ opAt code p = some .br
  brIfNot : ∀ p, c.brIfNot = some p → n ≤ p ∧ opAt code p = some .brIfNot
  kind : c.kind ≠ .if_ → c.brIfNot = none

/-- The invariant of the pass over a function whose code starts behind `code0`. A `BR_IF_NOT` that
does not lead forward yet belongs to an open `if` or is in `X`. -/
structure PassInv (code0 : List CuOp) (consts0 : List Slot) (X : List Nat) (s : LState) : Prop where
  code : code0 <+: s.code
  consts : consts0 <+: s.consts
  within : ∀ p ∈ X, code0.length ≤ p ∧ p < s.code.length
  frames : ∀ c ∈ s.ctrl, FrameOk code0.length s.code c
  forward : ∀ p i, code0.length ≤ p → s.code[p]? = some i → i.op = .brIfNot →
    p < i.b ∨ p ∈ X ∨ ∃ c ∈ s.ctrl, c.brIfNot = some p ∧ c.hasElse = false

/-- What is left when the pass fails. -/
def PassKept (code0 : List CuOp) (consts0 : List Slot) (_ : String) (s : LState) : Prop :=
  code0 <+: s.code ∧ consts0 <+: s.consts

section

variable {code0 : List CuOp} {consts0 : List Slot} {X : List Nat} {s : LState}

theorem PassInv.kept (h : PassInv code0 consts0 X s) (e : String) : PassKept code0 consts0 e s :=
  ⟨h.code, h.consts⟩

theorem FrameOk.append {n : Nat} {code : List CuOp} {c : Ctrl} (h : FrameOk n code c)
    (l : List CuOp) : FrameOk n (code ++ l) c where
  patches p hp := (h.patches p hp).imp_right (opAt_append · l)
  elseBr p hp := (h.elseBr p hp).imp_right (opAt_append · l)
  brIfNot p hp := (h.brIfNot p hp).imp_right (opAt_append · l)
  kind := h.kind

theorem FrameOk.patchB {n : Nat} {code : List CuOp} {c : Ctrl} (h : FrameOk n code c) (p t : Nat) :
    FrameOk n (patchB code p t) c where
  patches q hq := by rw [opAt_patchB]; exact h.patches q hq
  elseBr q hq := by rw [opAt_patchB]; exact h.elseBr q hq
  brIfNot q hq := by rw [opAt_patchB]; exact h.brIfNot q hq
  kind := h.kind

/-- Appending an instruction; a `BR_IF_NOT` joins the exceptions. -/
theorem PassInv.emit (h : PassInv code0 consts0 X s) (i : CuOp) {X' : List Nat}
    (hX : ∀ p ∈ X, p ∈ X') (hX' : ∀ p ∈ X', p ∈ X ∨ p = s.code.length)
    (hi : i.op = .brIfNot → s.code.length ∈ X') :
    PassInv code0 consts0 X' { s with code := s.code ++ [i] } where
  code := h.code.trans (List.prefix_append ..)
  consts := h.consts
  within p hp := by
    rw [List.length_append, List.length_singleton]
    obtain h1 | rfl := hX' p hp
    · have := h.within p h1
      omega
    · have := h.code.length_le
      omega
  frames c hc := (h.frames c hc).append _
  forward p j hp hj hop := by
    obtain hlt | hge := Nat.lt_or_ge p s.code.length
    · rw [List.getElem?_append_left hlt] at hj
      obtain h1 | h1 | h1 := h.forward p j hp hj hop
      · exact .inl h1
      · exact .inr (.inl (hX p h1))
      · exact .inr (.inr h1)
    · have hlen : p = s.code.length := by
        have := (List.getElem?_eq_some_iff.mp hj).1
        simp only [List.length_append, List.length_singleton] at this
        omega
      subst hlen
      rw [List.getElem?_concat_length] at hj
      cases hj
      exact .inr (.inl (hi hop))

theorem patchB_get (code : List CuOp) (p t q : Nat) :
    (patchB code p t)[q]? = if p = q then code[q]?.map fun i => { i with b := t } else code[q]? := by
  unfold patchB
  rw [List.getElem?_modify]
  split <;> simp_all

theorem patchB_prefix {code : List CuOp} (h : code0 <+: code) {p : Nat} (hp : code0.length ≤ p)
    (t : Nat) : code0 <+: patchB code p t := by
  obtain ⟨l, rfl⟩ := h
  refine ⟨patchB l (p - code0.length) t, List.ext_getElem? fun q => ?_⟩
  rw [patchB_get]
  obtain hlt | hge := Nat.lt_or_ge q code0.length
  · rw [if_neg (by omega), List.getElem?_append_left hlt, List.getElem?_append_left hlt]
  · rw [List.getElem?_append_right hge, List.getElem?_append_right hge, patchB_get]
    by_cases hpq : p = q
    · rw [if_pos hpq, if_pos (by omega)]
    · rw [if_neg hpq, if_neg (by omega)]

theorem patchB_length (code : List CuOp) (p t : Nat) : (patchB code p t).length = code.length :=
  List.length_modify ..

/-- Patching a branch of the function; a `BR_IF_NOT` that now leads forward leaves the exceptions. -/
theorem PassInv.patch (h : PassInv code0 consts0 X s) {p t : Nat} (hp : code0.length ≤ p)
    (ht : opAt s.code p = some .brIfNot → p < t) {X' : List Nat} (hX : ∀ q ∈ X, q ≠ p → q ∈ X')
    (hX' : ∀ q ∈ X', q ∈ X) : PassInv code0 consts0 X' { s with code := patchB s.code p t } where
  code := patchB_prefix h.code hp t
  consts := h.consts
  within q hq := by
    rw [patchB_length]
    exact h.within q (hX' q hq)
  frames c hc := (h.frames c hc).patchB p t
  forward q j hq hj hop := by
    rw [patchB_get] at hj
    by_cases hpq : p = q
    · subst hpq
      rw [if_pos rfl] at hj
      obtain ⟨i, hi, rfl⟩ := Option.map_eq_some_iff.mp hj
      refine .inl (ht ?_)
      unfold opAt
      rw [hi]
      exact congrArg some hop
    · rw [if_neg hpq] at hj
      obtain h1 | h1 | h1 := h.forward q j hq hj hop
      · exact .inl h1
      · exact .inr (.inl (hX q h1 (Ne.symm hpq)))
      · exact .inr (.inr h1)

/-- Changing what the pass tracks besides code and blocks. -/
theorem PassInv.track (h : PassInv code0 consts0 X s) (n : Nat) (dead : Bool) :
    PassInv code0 consts0 X { s with h := n, dead := dead } := ⟨h.1, h.2, h.3, h.4, h.5⟩

/-- Changing the open blocks: every open `if` is still there or becomes an exception. -/
theorem PassInv.ctrl (h : PassInv code0 consts0 X s) (ctrl : List Ctrl) {X' : List Nat}
    (hX : ∀ p ∈ X, p ∈ X' ∨ ∃ c ∈ ctrl, c.brIfNot = some p ∧ c.hasElse = false)
    (hw : ∀ p ∈ X', code0.length ≤ p ∧ p < s.code.length)
    (hf : ∀ c ∈ ctrl, FrameOk code0.length s.code c)
    (ho : ∀ c ∈ s.ctrl, ∀ p, c.brIfNot = some p → c.hasElse = false →
      p ∈ X' ∨ ∃ c ∈ ctrl, c.brIfNot = some p ∧ c.hasElse = false) :
    PassInv code0 consts0 X' { s with ctrl := ctrl } where
  code := h.code
  consts := h.consts
  within := hw
  frames := hf
  forward p i hp hi hop := by
    obtain h1 | h1 | ⟨c, hc, h2, h3⟩ := h.forward p i hp hi hop
    · exact .inl h1
    · exact .inr (hX p h1)
    · exact .inr (ho c hc p h2 h3)

end

/-! ## The operations of the pass -/

section

variable (code0 : List CuOp) (consts0 : List Slot) (X : List Nat)

theorem emit_pass (op : Opcode) (a b : Nat) (hop : op ≠ .brIfNot) :
    Spec (PassInv code0 consts0 X) (emit op a b)
      (fun p s => PassInv code0 consts0 X s ∧ code0.length ≤ p ∧ opAt s.code p = some op)
      (PassKept code0 consts0) := by
  refine Spec.get_bind fun s hs => ?_
  rintro _ rfl
  refine ⟨fun p s' h => ?_, fun e s' h => by cases h⟩
  cases h
  refine ⟨hs.emit _ (fun _ h => h) (fun _ h => .inl h) fun h => absurd h hop, hs.code.length_le, ?_⟩
  simp [opAt]

theorem emit_brIfNot_pass (a b : Nat) :
    Spec (PassInv code0 consts0 X) (emit .brIfNot a b)
      (fun p s => PassInv code0 consts0 (p :: X) s ∧ code0.length ≤ p ∧
        opAt s.code p = some .brIfNot)
      (PassKept code0 consts0) := by
  refine Spec.get_bind fun s hs => ?_
  rintro _ rfl
  refine ⟨fun p s' h => ?_, fun e s' h => by cases h⟩
  cases h
  refine ⟨hs.emit _ (fun _ h => .tail _ h) (fun q h => ?_) fun _ => .head _,
    hs.code.length_le, ?_⟩
  · obtain rfl | h := List.mem_cons.mp h
    · exact .inr rfl
    · exact .inl h
  · simp [opAt]

theorem emit_keeps_pass (op : Opcode) (a b : Nat) (hop : op ≠ .brIfNot) :
    Spec (PassInv code0 consts0 X) (emit op a b) (fun _ => PassInv code0 consts0 X)
      (PassKept code0 consts0) :=
  (emit_pass code0 consts0 X op a b hop).mono (fun _ h => h) (fun _ _ h => h.1) fun _ _ h => h

/-- Patching the innermost exception with the end of the code. -/
theorem patch_here_pass (p : Nat) :
    Spec (PassInv code0 consts0 (p :: X)) (do patch p (← get).code.length)
      (fun _ => PassInv code0 consts0 X) (PassKept code0 consts0) := by
  refine Spec.get_bind fun s hs => ?_
  rintro _ rfl
  refine ⟨fun _ s' h => ?_, fun e s' h => by cases h⟩
  cases h
  have hp := hs.within p (List.mem_cons_self ..)
  exact hs.patch hp.1 (fun _ => hp.2) (fun q hq hne => (List.mem_cons.mp hq).resolve_left hne)
    fun q hq => .tail _ hq

theorem intern_pass (x : Slot) :
    Spec (PassInv code0 consts0 X) (intern x) (fun _ => PassInv code0 consts0 X)
      (PassKept code0 consts0) := by
  refine Spec.get_bind fun s hs => ?_
  split
  · exact Spec.pure fun _ h => h ▸ hs
  · rintro _ rfl
    refine ⟨fun p s' h => ?_, fun e s' h => by cases h⟩
    cases h
    exact ⟨hs.1, hs.2.trans (List.prefix_append ..), hs.3, hs.4, hs.5⟩

theorem consume_pass (pops pushes : Nat) :
    Spec (PassInv code0 consts0 X) (consume pops pushes) (fun _ => PassInv code0 consts0 X)
      (PassKept code0 consts0) := by
  refine Spec.get_bind fun s hs => ?_
  refine Spec.ite (fun _ => Spec.pure fun _ h => h ▸ hs) fun _ => ?_
  refine Spec.guard (fun t _ ht => ht ▸ hs.kept _) fun _ => ?_
  rintro _ rfl
  refine ⟨fun p s' h => ?_, fun e s' h => by cases h⟩
  cases h
  exact hs.track _ _

theorem ofExcept_pass {α : Type} (x : Except String α) :
    Spec (PassInv code0 consts0 X) (ofExcept x) (fun _ => PassInv code0 consts0 X)
      (PassKept code0 consts0) := by
  cases x with
  | ok a => exact Spec.pure fun _ h => h
  | error e => exact Spec.throw fun _ h => h.kept e

theorem plain_pass (op : Opcode) (a b pops pushes : Nat) (hop : op ≠ .brIfNot) :
    Spec (PassInv code0 consts0 X) (plain op a b pops pushes) (fun _ => PassInv code0 consts0 X)
      (PassKept code0 consts0) :=
  Spec.bind (emit_keeps_pass code0 consts0 X op a b hop)
    fun _ => consume_pass code0 consts0 X pops pushes

theorem markDead_pass :
    Spec (PassInv code0 consts0 X) markDead (fun _ => PassInv code0 consts0 X)
      (PassKept code0 consts0) :=
  Spec.modify fun s hs => hs.track s.h true

theorem emitUnwind_pass (env : LowerEnv) (c : Ctrl) :
    Spec (PassInv code0 consts0 X) (emitUnwind env c) (fun _ => PassInv code0 consts0 X)
      (PassKept code0 consts0) := by
  refine Spec.get_bind fun s hs => ?_
  refine Spec.guard (fun t _ ht => ht ▸ hs.kept _) fun _ => ?_
  refine Spec.ite (fun _ => ?_) fun _ => Spec.pure fun _ h => h ▸ hs
  refine Spec.bind (Q := fun _ => PassInv code0 consts0 X) ?_ fun _ => Spec.pure fun _ h => h
  exact (emit_keeps_pass code0 consts0 X _ _ _ (by decide)).mono (fun _ h => h ▸ hs)
    (fun _ _ h => h) fun _ _ h => h

/-- Opening a block; the `BR_IF_NOT` of an `if` moves from the exceptions to the block. -/
theorem pushCtrl_pass (kind : CtrlKind) (np nr : Nat) (pc : Option Nat)
    (hk : kind ≠ .if_ → pc = none) :
    Spec (fun s => PassInv code0 consts0 (pc.toList ++ X) s ∧
        ∀ p, pc = some p → code0.length ≤ p ∧ opAt s.code p = some .brIfNot)
      (pushCtrl kind np nr pc) (fun _ => PassInv code0 consts0 X) (PassKept code0 consts0) := by
  refine Spec.get_bind fun s hs => ?_
  refine Spec.guard (fun t _ ht => ht ▸ hs.1.kept _) fun _ => ?_
  rintro _ rfl
  refine ⟨fun _ s' h => ?_, fun e s' h => by cases h⟩
  cases h
  refine hs.1.ctrl _ (fun p hp => ?_) (fun p hp => hs.1.within p (List.mem_append_right _ hp))
    (fun c hc => ?_) fun c hc p h1 h2 => .inr ⟨c, .tail _ hc, h1, h2⟩
  · obtain hp | hp := List.mem_append.mp hp
    · exact .inr ⟨_, .head _, Option.mem_toList.mp hp, rfl⟩
    · exact .inl hp
  · obtain rfl | hc := List.mem_cons.mp hc
    · exact ⟨fun _ h => (by cases h), fun _ h => (by cases h), hs.2, hk⟩
    · exact hs.1.frames c hc

theorem pushCtrl_none_pass (kind : CtrlKind) (np nr : Nat) :
    Spec (PassInv code0 consts0 X) (pushCtrl kind np nr) (fun _ => PassInv code0 consts0 X)
      (PassKept code0 consts0) :=
  (pushCtrl_pass code0 consts0 X kind np nr none fun _ => rfl).mono
    (fun _ h => ⟨h, fun _ h => by cases h⟩) (fun _ _ h => h) fun _ _ h => h

/-- Recording a branch in an open block keeps the rest of the block. -/
theorem mem_record {ctrl : List Ctrl} {idx p : Nat} {c : Ctrl}
    (h : c ∈ ctrl.modify idx fun c => { c with patches := c.patches ++ [p] }) :
    c ∈ ctrl ∨ ∃ d ∈ ctrl, c = { d with patches := d.patches ++ [p] } := by
  obtain ⟨k, hk⟩ := List.mem_iff_getElem?.mp h
  rw [List.getElem?_modify] at hk
  obtain ⟨d, hd, rfl⟩ := Option.map_eq_some_iff.mp hk
  have hmem := List.mem_iff_getElem?.mpr ⟨k, hd⟩
  split
  · exact .inr ⟨d, hmem, rfl⟩
  · exact .inl hmem

theorem record_mem {ctrl : List Ctrl} {c : Ctrl} (h : c ∈ ctrl) (idx p : Nat) :
    ∃ d ∈ ctrl.modify idx fun c => { c with patches := c.patches ++ [p] },
      d.brIfNot = c.brIfNot ∧ d.hasElse = c.hasElse := by
  obtain ⟨k, hk⟩ := List.mem_iff_getElem?.mp h
  refine ⟨if idx = k then { c with patches := c.patches ++ [p] } else c, ?_, ?_⟩
  · refine List.mem_iff_getElem?.mpr ⟨k, ?_⟩
    rw [List.getElem?_modify, hk]
    rfl
  · split <;> exact ⟨rfl, rfl⟩

theorem emitJump_pass (idx : Nat) (c : Ctrl) :
    Spec (PassInv code0 consts0 X) (emitJump idx c) (fun _ => PassInv code0 consts0 X)
      (PassKept code0 consts0) := by
  refine Spec.ite (fun _ => ?_) fun _ => ?_
  · exact Spec.bind (emit_keeps_pass code0 consts0 X _ _ _ (by decide))
      fun _ => Spec.pure fun _ h => h
  · refine Spec.bind (emit_pass code0 consts0 X _ _ _ (by decide)) fun p => ?_
    refine Spec.modify fun s hs => ?_
    obtain ⟨hs, hp, hop⟩ := hs
    refine hs.ctrl _ (fun _ h => .inl h) hs.within (fun d hd => ?_) fun d hd q h1 h2 => .inr ?_
    · obtain hd | ⟨d', hd', rfl⟩ := mem_record hd
      · exact hs.frames d hd
      · have hf := hs.frames d' hd'
        refine ⟨fun q hq => ?_, hf.elseBr, hf.brIfNot, hf.kind⟩
        obtain hq | hq := List.mem_append.mp hq
        · exact hf.patches q hq
        · cases List.mem_singleton.mp hq
          exact ⟨hp, hop⟩
    · obtain ⟨d', hd', h3, h4⟩ := record_mem hd idx p
      exact ⟨d', hd', h3.trans h1, h4.trans h2⟩

theorem branch_pass (env : LowerEnv) (depth : Nat) :
    Spec (PassInv code0 consts0 X) (branch env depth) (fun _ => PassInv code0 consts0 X)
      (PassKept code0 consts0) := by
  refine Spec.bind (Q := fun _ => PassInv code0 consts0 X) ?_ fun c => ?_
  · refine Spec.get_bind fun s hs => ?_
    split
    · exact Spec.throw fun _ h => h ▸ hs.kept _
    · exact Spec.pure fun _ h => h ▸ hs
  · refine Spec.get_bind fun s hs => ?_
    refine Spec.ite (fun _ => ?_) fun _ => ?_
    · refine Spec.bind (Q := fun _ => PassInv code0 consts0 X) ?_
        fun _ => emitJump_pass code0 consts0 X depth c
      exact (emitUnwind_pass code0 consts0 X env c).mono (fun _ h => h ▸ hs) (fun _ _ h => h)
        fun _ _ h => h
    · exact (emitJump_pass code0 consts0 X depth c).mono (fun _ h => h ▸ hs) (fun _ _ h => h)
        fun _ _ h => h

/-- A branch behind a `BR_IF_NOT` that skips it. -/
theorem skip_pass (env : LowerEnv) (depth : Nat) :
    Spec (PassInv code0 consts0 X)
      (do
        let skip ← emit .brIfNot 0 0
        branch env depth
        patch skip (← get).code.length)
      (fun _ => PassInv code0 consts0 X) (PassKept code0 consts0) := by
  refine Spec.bind (emit_brIfNot_pass code0 consts0 X 0 0) fun p => ?_
  refine Spec.bind (Q := fun _ => PassInv code0 consts0 (p :: X)) ?_
    fun _ => patch_here_pass code0 consts0 X p
  exact (branch_pass code0 consts0 (p :: X) env depth).mono (fun _ h => h.1) (fun _ _ h => h)
    fun _ _ h => h

theorem brTableArms_pass (env : LowerEnv) (scratch i : Nat) (targets : List Nat) :
    Spec (PassInv code0 consts0 X) (brTableArms env scratch i targets)
      (fun _ => PassInv code0 consts0 X) (PassKept code0 consts0) := by
  induction targets generalizing i with
  | nil => exact Spec.pure fun _ h => h
  | cons depth depths ih =>
    refine Spec.bind (intern_pass code0 consts0 X _) fun idxc => ?_
    refine Spec.bind (plain_pass code0 consts0 X _ _ _ _ _ (by decide)) fun _ => ?_
    refine Spec.bind (plain_pass code0 consts0 X _ _ _ _ _ (by decide)) fun _ => ?_
    refine Spec.bind (plain_pass code0 consts0 X _ _ _ _ _ (by decide)) fun _ => ?_
    refine Spec.bind (consume_pass code0 consts0 X _ _) fun _ => ?_
    refine Spec.bind (emit_brIfNot_pass code0 consts0 X 0 0) fun p => ?_
    refine Spec.bind (Q := fun _ => PassInv code0 consts0 (p :: X)) ?_ fun _ => ?_
    · exact (branch_pass code0 consts0 (p :: X) env depth).mono (fun _ h => h.1) (fun _ _ h => h)
        fun _ _ h => h
    · refine Spec.get_bind fun s hs => ?_
      refine Spec.bind (Q := fun _ => PassInv code0 consts0 X) ?_ fun _ => ih (i + 1)
      rintro t rfl
      exact patch_here_pass code0 consts0 X p t hs

theorem ifArm_pass (env : LowerEnv) (ty : BlockType) :
    Spec (PassInv code0 consts0 X) (ifArm env ty) (fun _ => PassInv code0 consts0 X)
      (PassKept code0 consts0) := by
  refine Spec.bind (ofExcept_pass code0 consts0 X _) fun a => ?_
  refine Spec.bind (consume_pass code0 consts0 X 1 0) fun _ => ?_
  refine Spec.bind (emit_brIfNot_pass code0 consts0 X 0 0) fun p => ?_
  refine (pushCtrl_pass code0 consts0 X .if_ a.1 a.2 (some p) fun h => absurd rfl h).mono
    (fun s hs => ⟨hs.1, fun q hq => ?_⟩) (fun _ _ h => h) fun _ _ h => h
  cases hq
  exact hs.2

theorem elseArm_pass :
    Spec (PassInv code0 consts0 X) elseArm (fun _ => PassInv code0 consts0 X)
      (PassKept code0 consts0) := by
  refine Spec.get_bind fun s hs => ?_
  split
  · exact Spec.throw fun _ h => h ▸ hs.kept _
  rename_i c rest hctrl
  refine Spec.guard (fun t _ ht => ht ▸ hs.kept _) fun hk => ?_
  rintro t rfl
  have h1 := hs.emit ⟨.br, 0, 0⟩ (fun _ h => h) (fun _ h => .inl h) (fun h => by cases h)
  have hc : c ∈ t.ctrl := by rw [hctrl]; exact .head _
  have hf := h1.frames c hc
  -- the `BR_IF_NOT` is an exception until it is patched
  have h2 := h1.ctrl ({ c with elseBr := some t.code.length, hasElse := true } :: rest)
    (fun p hp => .inl (List.mem_append_right c.brIfNot.toList hp)) (fun p hp => ?_)
    (fun d hd => ?_) fun d hd p hp hne => ?_
  · cases hb : c.brIfNot with
    | none =>
      rw [hb] at h2
      simp only
      refine ⟨fun _ s' h => ?_, fun e s' h => by cases h⟩
      cases h
      exact h2.track _ _
    | some p =>
      rw [hb] at h2
      simp only
      refine ⟨fun _ s' h => ?_, fun e s' h => by cases h⟩
      cases h
      have hp := h2.within p (List.mem_cons_self ..)
      exact (h2.patch hp.1 (fun _ => hp.2)
        (fun q hq hne => (List.mem_cons.mp hq).resolve_left hne) fun q hq => .tail _ hq).track _ _
  · obtain hp | hp := List.mem_append.mp hp
    · have := hf.brIfNot p (Option.mem_toList.mp hp)
      exact ⟨this.1, opAt_lt this.2⟩
    · exact h1.within p hp
  · obtain rfl | hd := List.mem_cons.mp hd
    · refine ⟨hf.patches, fun q hq => ?_, hf.brIfNot, hf.kind⟩
      cases hq
      refine ⟨hs.code.length_le, ?_⟩
      simp [opAt]
    · exact h1.frames d (by rw [hctrl]; exact .tail _ hd)
  · rw [hctrl] at hd
    obtain rfl | hd := List.mem_cons.mp hd
    · exact .inl (List.mem_append_left _ (Option.mem_toList.mpr hp))
    · exact .inr ⟨d, .tail _ hd, hp, hne⟩

/-- Patching the recorded branches of a block. -/
theorem patches_pass (ps : List Nat) (joinPc : Nat) :
    Spec (fun s => PassInv code0 consts0 X s ∧
        ∀ p ∈ ps, code0.length ≤ p ∧ opAt s.code p = some .br)
      (ps.forM fun p => patch p joinPc) (fun _ => PassInv code0 consts0 X)
      (PassKept code0 consts0) := by
  induction ps with
  | nil => exact Spec.pure fun _ h => h.1
  | cons p ps ih =>
    refine Spec.bind (Q := fun _ s => PassInv code0 consts0 X s ∧
      ∀ p ∈ ps, code0.length ≤ p ∧ opAt s.code p = some .br) ?_ fun _ => ih
    refine Spec.modify fun s hs => ⟨?_, fun q hq => ?_⟩
    · have hp := hs.2 p (List.mem_cons_self ..)
      exact hs.1.patch hp.1 (fun h => by rw [hp.2] at h; cases h) (fun _ h _ => h) fun _ h => h
    · rw [opAt_patchB]
      exact hs.2 q (.tail _ hq)

/-- The `BR_IF_NOT` that the end of a block has to patch. -/
def pendingIf (c : Ctrl) : List Nat := if c.hasElse then [] else c.brIfNot.toList

/-- The state in which `Operator::End` patches the block `c`, which it has just left. -/
structure Closing (c : Ctrl) (joinPc : Nat) (s : LState) : Prop where
  inv : PassInv code0 consts0 (pendingIf c ++ X) s
  frame : FrameOk code0.length s.code c
  join : ∀ p, c.brIfNot = some p → p < joinPc

theorem endPatches_pass (c : Ctrl) (joinPc : Nat) :
    Spec (Closing code0 consts0 X c joinPc) (endPatches c joinPc) (fun _ => PassInv code0 consts0 X)
      (PassKept code0 consts0) := by
  have hrest := patches_pass code0 consts0 X c.patches joinPc
  have hjump (br : Nat) (hbr : c.elseBr = some br ∧ c.hasElse = true ∨
      c.brIfNot = some br ∧ c.hasElse = false) :
      Spec (Closing code0 consts0 X c joinPc) (patch br joinPc)
        (fun _ s => PassInv code0 consts0 X s ∧
          ∀ p ∈ c.patches, code0.length ≤ p ∧ opAt s.code p = some .br)
        (PassKept code0 consts0) := by
    refine Spec.modify fun s ⟨hs, hf, hj⟩ => ⟨?_, (hf.patchB br joinPc).patches⟩
    obtain ⟨h1, h2⟩ | ⟨h1, h2⟩ := hbr
    · have h3 := hf.elseBr br h1
      have h4 : pendingIf c = [] := if_pos h2
      rw [h4] at hs
      exact hs.patch h3.1 (fun h => by rw [h3.2] at h; cases h) (fun _ h _ => h) fun _ h => h
    · have h4 : pendingIf c = [br] := by rw [pendingIf, h1, h2]; rfl
      rw [h4] at hs
      exact hs.patch (hf.brIfNot br h1).1 (fun _ => hj br h1)
        (fun q hq hne => (List.mem_cons.mp hq).resolve_left hne) fun q hq => .tail _ hq
  have hskip (hp : ∀ code, FrameOk code0.length code c → pendingIf c = []) :
      Spec (Closing code0 consts0 X c joinPc) (c.patches.forM fun p => patch p joinPc)
        (fun _ => PassInv code0 consts0 X) (PassKept code0 consts0) := by
    refine hrest.mono (fun s hs => ⟨?_, hs.frame.patches⟩) (fun _ _ h => h) fun _ _ h => h
    have := hs.inv
    rwa [hp s.code hs.frame] at this
  unfold endPatches
  dsimp only
  refine Spec.ite (fun hk => ?_) fun hk => ?_
  · refine Spec.ite (fun he => ?_) fun he => ?_
    · cases hb : c.elseBr with
      | none => exact hskip fun _ _ => if_pos he
      | some br => exact Spec.bind (hjump br (.inl ⟨hb, he⟩)) fun _ => hrest
    · cases hb : c.brIfNot with
      | none => exact hskip fun _ _ => by rw [pendingIf, hb]; split <;> rfl
      | some br =>
        exact Spec.bind (hjump br (.inr ⟨hb, Bool.eq_false_iff.mpr he⟩)) fun _ => hrest
  · exact hskip fun _ hf => by rw [pendingIf, hf.kind hk]; split <;> rfl

/-- Leaving the innermost block makes its `BR_IF_NOT` an exception. -/
theorem PassInv.pop {s : LState} (hs : PassInv code0 consts0 X s) {c : Ctrl} {rest : List Ctrl}
    (hctrl : s.ctrl = c :: rest) :
    PassInv code0 consts0 (pendingIf c ++ X) { s with ctrl := rest } := by
  have hf := hs.frames c (by rw [hctrl]; exact .head _)
  refine hs.ctrl _ (fun p hp => .inl (List.mem_append_right _ hp)) (fun p hp => ?_)
    (fun d hd => hs.frames d (by rw [hctrl]; exact .tail _ hd)) fun d hd p hp hne => ?_
  · obtain hp | hp := List.mem_append.mp hp
    · unfold pendingIf at hp
      split at hp
      · cases hp
      · have := hf.brIfNot p (Option.mem_toList.mp hp)
        exact ⟨this.1, opAt_lt this.2⟩
    · exact hs.within p hp
  · rw [hctrl] at hd
    obtain rfl | hd := List.mem_cons.mp hd
    · refine .inl (List.mem_append_left _ ?_)
      rw [pendingIf, hne, hp]
      exact .head _
    · exact .inr ⟨d, hd, hp, hne⟩

theorem endArm_pass (env : LowerEnv) :
    Spec (PassInv code0 consts0 X) (endArm env) (fun _ => PassInv code0 consts0 X)
      (PassKept code0 consts0) := by
  refine Spec.get_bind fun s hs => ?_
  split
  · exact Spec.throw fun _ h => h ▸ hs.kept _
  rename_i c rest hctrl
  have hpop := hs.pop code0 consts0 X hctrl
  have hf := hs.frames c (by rw [hctrl]; exact .head _)
  refine Spec.bind (Q := fun _ t => t = { s with ctrl := rest })
    (Spec.modify fun t ht => by rw [ht]) fun _ => ?_
  have hdone (joinPc : Nat) :
      Spec (Closing code0 consts0 X c joinPc)
        (do
          endPatches c joinPc
          modify fun s => { s with h := c.base + c.nResults, dead := c.deadOnEntry })
        (fun _ => PassInv code0 consts0 X) (PassKept code0 consts0) :=
    Spec.bind (endPatches_pass code0 consts0 X c joinPc)
      fun _ => Spec.modify fun t ht => ht.track _ _
  dsimp only
  refine Spec.ite (fun hk => ?_) fun hk => ?_
  · refine Spec.bind (Q := fun joinPc => Closing code0 consts0 X c joinPc) ?_ hdone
    rintro t rfl
    refine ⟨fun p s' h => ?_, fun e s' h => by cases h⟩
    cases h
    refine ⟨hpop.emit _ (fun _ h => h) (fun _ h => .inl h) (fun h => by cases h), hf.append _,
      fun p hp => ?_⟩
    rw [hf.kind (by rw [hk]; decide)] at hp
    cases hp
  · rintro t rfl
    exact hdone s.code.length _ ⟨hpop, hf, fun p hp => opAt_lt (hf.brIfNot p hp).2⟩

theorem NumOp.lower_ne (o : NumOp) : (NumOp.lower o).1 ≠ .brIfNot := by
  cases o <;> decide

theorem memArm_pass (mem : Nat) (op : Opcode) (a pops pushes : Nat) (hop : op ≠ .brIfNot) :
    Spec (PassInv code0 consts0 X) (memArm mem op a pops pushes)
      (fun _ => PassInv code0 consts0 X) (PassKept code0 consts0) := by
  unfold memArm
  exact Spec.guard (fun _ _ h => h.kept _) fun _ => plain_pass code0 consts0 X _ _ _ _ _ hop

theorem callArm_pass (env : LowerEnv) (functionIndex : Nat) :
    Spec (PassInv code0 consts0 X) (callArm env functionIndex) (fun _ => PassInv code0 consts0 X)
      (PassKept code0 consts0) := by
  refine Spec.bind (ofExcept_pass code0 consts0 X _) fun a => ?_
  refine Spec.ite (fun _ => ?_) fun _ => plain_pass code0 consts0 X _ _ _ _ _ (by decide)
  split
  · exact Spec.throw fun _ h => h.kept _
  · exact plain_pass code0 consts0 X _ _ _ _ _ (by decide)

theorem callIndirectArm_pass (env : LowerEnv) (typeIndex tableIndex : Nat) :
    Spec (PassInv code0 consts0 X) (callIndirectArm env typeIndex tableIndex)
      (fun _ => PassInv code0 consts0 X) (PassKept code0 consts0) := by
  unfold callIndirectArm
  refine Spec.guard (fun _ _ h => h.kept _) fun _ => ?_
  split
  · exact Spec.throw fun _ h => h.kept _
  · exact plain_pass code0 consts0 X _ _ _ _ _ (by decide)

theorem brTableArm_pass (env : LowerEnv) (targets : List Nat) (default : Nat) :
    Spec (PassInv code0 consts0 X) (brTableArm env targets default)
      (fun _ => PassInv code0 consts0 X) (PassKept code0 consts0) := by
  unfold brTableArm
  split
  · exact Spec.throw fun _ h => h.kept _
  · refine Spec.bind (plain_pass code0 consts0 X _ _ _ _ _ (by decide)) fun _ => ?_
    refine Spec.bind (brTableArms_pass code0 consts0 X env _ 0 targets) fun _ => ?_
    exact Spec.bind (branch_pass code0 consts0 X env default) fun _ => markDead_pass code0 consts0 X

/-- An instruction behind which the code is dead. -/
theorem emitDead_pass (op : Opcode) (a b : Nat) (hop : op ≠ .brIfNot) :
    Spec (PassInv code0 consts0 X) (do
        let _ ← emit op a b
        markDead) (fun _ => PassInv code0 consts0 X) (PassKept code0 consts0) :=
  Spec.bind (emit_keeps_pass code0 consts0 X op a b hop) fun _ => markDead_pass code0 consts0 X

/-- An instruction that is emitted as it is. -/
theorem emitOnly_pass (op : Opcode) (a b : Nat) (hop : op ≠ .brIfNot) :
    Spec (PassInv code0 consts0 X) (do let _ ← emit op a b) (fun _ => PassInv code0 consts0 X)
      (PassKept code0 consts0) :=
  Spec.bind (emit_keeps_pass code0 consts0 X op a b hop) fun _ => Spec.pure fun _ h => h

theorem operator_pass (env : LowerEnv) (o : Operator) :
    Spec (PassInv code0 consts0 X) (operator env o) (fun _ => PassInv code0 consts0 X)
      (PassKept code0 consts0) := by
  have hplain (op : Opcode) (a b pops pushes : Nat) (hop : op ≠ .brIfNot) :=
    plain_pass code0 consts0 X op a b pops pushes hop
  have harity (x : Except String (Nat × Nat)) := ofExcept_pass code0 consts0 X x
  have hoff (x : Except String Nat) := ofExcept_pass code0 consts0 X x
  cases o with
  | nop => exact Spec.pure fun _ h => h
  | unreachable => exact emitDead_pass code0 consts0 X _ _ _ (by decide)
  | const c => exact Spec.bind (intern_pass code0 consts0 X _) fun _ => hplain _ _ _ _ _ (by decide)
  | drop => exact hplain _ _ _ _ _ (by decide)
  | select => exact hplain _ _ _ _ _ (by decide)
  | typedSelect t => exact hplain _ _ _ _ _ (by decide)
  | num o => exact hplain _ _ _ _ _ (NumOp.lower_ne o)
  | globalGet i => exact hplain _ _ _ _ _ (by decide)
  | globalSet i => exact hplain _ _ _ _ _ (by decide)
  | localGet i => exact hplain _ _ _ _ _ (by decide)
  | localSet i => exact hplain _ _ _ _ _ (by decide)
  | localTee i =>
    exact Spec.bind (emit_keeps_pass code0 consts0 X _ _ _ (by decide))
      fun _ => emitOnly_pass code0 consts0 X _ _ _ (by decide)
  | block ty => exact Spec.bind (harity _) fun a => pushCtrl_none_pass code0 consts0 X _ a.1 a.2
  | loop ty => exact Spec.bind (harity _) fun a => pushCtrl_none_pass code0 consts0 X _ a.1 a.2
  | if_ ty => exact ifArm_pass code0 consts0 X env ty
  | else_ => exact elseArm_pass code0 consts0 X
  | end_ => exact endArm_pass code0 consts0 X env
  | br depth =>
    exact Spec.bind (branch_pass code0 consts0 X env depth) fun _ => markDead_pass code0 consts0 X
  | brIf depth =>
    exact Spec.bind (consume_pass code0 consts0 X 1 0) fun _ => skip_pass code0 consts0 X env depth
  | brTable targets default => exact brTableArm_pass code0 consts0 X env targets default
  | return_ => exact emitDead_pass code0 consts0 X _ _ _ (by decide)
  | call fi => exact callArm_pass code0 consts0 X env fi
  | returnCall fi =>
    unfold operator
    exact Spec.guard (fun _ _ h => h.kept _)
      fun _ => emitDead_pass code0 consts0 X _ _ _ (by decide)
  | callIndirect ti tab => exact callIndirectArm_pass code0 consts0 X env ti tab
  | load o ma => exact Spec.bind (hoff _) fun _ => hplain _ _ _ _ _ (by decide)
  | store o ma => exact Spec.bind (hoff _) fun _ => hplain _ _ _ _ _ (by decide)
  | memorySize mem => exact memArm_pass code0 consts0 X mem _ _ _ _ (by decide)
  | memoryGrow mem => exact memArm_pass code0 consts0 X mem _ _ _ _ (by decide)
  | memoryCopy dst src =>
    unfold operator
    exact Spec.guard (fun _ _ h => h.kept _) fun _ => hplain _ _ _ _ _ (by decide)
  | memoryFill mem => exact memArm_pass code0 consts0 X mem _ _ _ _ (by decide)
  | memoryInit di mem => exact memArm_pass code0 consts0 X mem _ _ _ _ (by decide)
  | dataDrop di => exact emitOnly_pass code0 consts0 X _ _ _ (by decide)
  | reinterpret r => exact consume_pass code0 consts0 X 1 1
  | refFunc i => exact Spec.throw fun _ h => h.kept _
  | refNull => exact Spec.throw fun _ h => h.kept _
  | other t => exact Spec.throw fun _ h => h.kept _

theorem operators_pass (env : LowerEnv) (os : List Operator) :
    Spec (PassInv code0 consts0 X) (operators env os) (fun _ => PassInv code0 consts0 X)
      (PassKept code0 consts0) := by
  induction os with
  | nil => exact Spec.pure fun _ h => h
  | cons o os ih => exact Spec.bind (operator_pass code0 consts0 X env o) fun _ => ih

end

end Lower

/-! ## Whole functions -/

/-- At the start of a function the only open block is the function itself. -/
theorem Lower.passInv_init (code : List CuOp) (consts : List Slot) (nResults : Nat) :
    Lower.PassInv code consts []
      { code := code, consts := consts, h := 0, dead := false
        ctrl := [funcCtrl code.length nResults] } where
  code := List.prefix_refl _
  consts := List.prefix_refl _
  within _ h := by cases h
  frames c hc := by
    cases List.mem_singleton.mp hc
    exact ⟨fun _ h => (by cases h), fun _ h => (by cases h), fun _ h => (by cases h), fun _ => rfl⟩
  forward p i hp hi _ := by
    have := (List.getElem?_eq_some_iff.mp hi).1
    dsimp only at this
    omega

variable {lm : LowerModule} {ops : List Operator} {nParams nResults nLocals : Nat}
  {code code' : List CuOp} {consts consts' : List Slot}

/-- The code and the constants are those that the last operator leaves. -/
theorem lowerOperators_final {r : Except String FuncMeta}
    (h : lowerOperators lm ops nParams nResults nLocals code consts = (r, code', consts')) :
    code' = (final (Lower.operators (lowerEnv lm ops nParams nResults nLocals) ops
        { code := code, consts := consts, h := 0, dead := false
          ctrl := [funcCtrl code.length nResults] })).code ∧
      consts' = (final (Lower.operators (lowerEnv lm ops nParams nResults nLocals) ops
        { code := code, consts := consts, h := 0, dead := false
          ctrl := [funcCtrl code.length nResults] })).consts := by
  unfold lowerOperators at h
  dsimp only at h
  split at h
  · rename_i e s hs
    cases h
    rw [hs]
    exact ⟨rfl, rfl⟩
  · rename_i a s hs
    rw [hs]
    split at h <;> cases h <;> exact ⟨rfl, rfl⟩

/-- Where a function is lowered, the pass comes to the end of the operators with no block open. -/
theorem lowerOperators_ok {f : FuncMeta}
    (h : lowerOperators lm ops nParams nResults nLocals code consts = (.ok f, code', consts')) :
    ∃ t, Lower.operators (lowerEnv lm ops nParams nResults nLocals) ops
        { code := code, consts := consts, h := 0, dead := false
          ctrl := [funcCtrl code.length nResults] } = .ok () t ∧
      t.ctrl = [] ∧ t.code = code' ∧ t.consts = consts' ∧
      f = { codeOff := code.length
            codeLen := code'.length - code.length
            nParams := nParams
            nResults := nResults
            nLocals := scratchLocals ops nLocals } := by
  unfold lowerOperators at h
  dsimp only at h
  split at h
  · cases h
  · rename_i t ht
    split at h
    · cases h
    · rename_i hctrl
      cases h
      exact ⟨t, ht, not_not.mp hctrl, rfl, rfl, rfl⟩

/-- The pass appends to the code and the constants, also when it fails. -/
theorem lowerOperators_grows {r : Except String FuncMeta}
    (h : lowerOperators lm ops nParams nResults nLocals code consts = (r, code', consts')) :
    code <+: code' ∧ consts <+: consts' := by
  obtain ⟨rfl, rfl⟩ := lowerOperators_final h
  obtain ⟨hok, herr⟩ := Lower.operators_pass code consts []
    (lowerEnv lm ops nParams nResults nLocals) ops _ (Lower.passInv_init code consts nResults)
  cases hs : Lower.operators (lowerEnv lm ops nParams nResults nLocals) ops
      { code := code, consts := consts, h := 0, dead := false
        ctrl := [funcCtrl code.length nResults] } with
  | error e s => exact herr e s hs
  | ok a s => exact ⟨(hok a s hs).code, (hok a s hs).consts⟩

/-- The code of a function that was lowered is what the pass appended. -/
theorem lowerOperators_meta {f : FuncMeta}
    (h : lowerOperators lm ops nParams nResults nLocals code consts = (.ok f, code', consts')) :
    f = { codeOff := code.length
          codeLen := code'.length - code.length
          nParams := nParams
          nResults := nResults
          nLocals := scratchLocals ops nLocals } := by
  obtain ⟨t, -, -, -, -, hf⟩ := lowerOperators_ok h
  exact hf

/-- Every `BR_IF_NOT` of a function that was lowered leads forward. -/
theorem lowerOperators_forward {f : FuncMeta}
    (h : lowerOperators lm ops nParams nResults nLocals code consts = (.ok f, code', consts'))
    {p : Nat} {i : CuOp} (hp : code.length ≤ p) (hi : code'[p]? = some i) (hop : i.op = .brIfNot) :
    p < i.b := by
  obtain ⟨t, ht, hctrl, rfl, rfl, -⟩ := lowerOperators_ok h
  obtain ⟨hok, -⟩ := Lower.operators_pass code consts []
    (lowerEnv lm ops nParams nResults nLocals) ops _ (Lower.passInv_init code consts nResults)
  rcases (hok () t ht).forward p i hp hi hop with h1 | h1 | ⟨c, hc, -⟩
  · exact h1
  · cases h1
  · rw [hctrl] at hc
    cases hc

end CuWasm
