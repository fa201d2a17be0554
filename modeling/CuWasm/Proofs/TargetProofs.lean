import CuWasm.Proofs.PassProofs
import CuWasm.Proofs.StructuredProofs
import CuWasm.Wasm.Heights

/-!
# Branch targets and trap instructions of a pass

What `lower_operators` leaves behind, also when it fails: a branch leads nowhere behind the end of the
code, and every `OP_UNREACHABLE` of the pass was emitted for an `unreachable`.
-/

namespace CuWasm

open Wasm Exit

namespace Lower

/-- No branch leads beyond `n` and no loop starts beyond `n`; every `OP_UNREACHABLE` is at a position
in `U`. -/
structure Bounded (U : Nat → Prop) (n : Nat) (s : LState) : Prop where
  le : n ≤ s.code.length
  targets : ∀ (p : Nat) (i : CuOp), s.code[p]? = some i → i.op = .br ∨ i.op = .brIfNot → i.b ≤ n
  starts : ∀ c ∈ s.ctrl, c.start ≤ n
  traps : ∀ p, opAt s.code p = some .unreachable → U p

/-- The invariant of a pass whose code has come at least to `n`: it is `Bounded` by the end of the
code. -/
structure Within (U : Nat → Prop) (n : Nat) (s : LState) : Prop where
  bounded : Bounded U s.code.length s
  low : n ≤ s.code.length

/-- The computation keeps the invariant, also when it fails. -/
def Maintains {α : Type} (U : Nat → Prop) (n : Nat) (x : Lower α) : Prop :=
  Spec (Within U n) x (fun _ => Within U n) fun _ => Within U n

section

variable {U : Nat → Prop} {n : Nat} {s : LState}

theorem Bounded.within {k : Nat} (h : Bounded U n s) (hk : k ≤ n) : Within U k s where
  bounded :=
    { le := le_rfl
      targets p i hi hop := (h.targets p i hi hop).trans h.le
      starts c hc := (h.starts c hc).trans h.le
      traps := h.traps }
  low := hk.trans h.le

theorem Bounded.emit (h : Bounded U n s) (i : CuOp) (hb : i.op = .br ∨ i.op = .brIfNot → i.b ≤ n)
    (hu : i.op = .unreachable → U s.code.length) :
    Bounded U n { s with code := s.code ++ [i] } where
  le := by
    rw [List.length_append]
    exact Nat.le_add_right_of_le h.le
  targets p j hj hop := by
    rcases Nat.lt_or_ge p s.code.length with hlt | hge
    · rw [List.getElem?_append_left hlt] at hj
      exact h.targets p j hj hop
    · rw [List.getElem?_append_right hge] at hj
      cases List.mem_singleton.mp (List.mem_of_getElem? hj)
      exact hb hop
  starts := h.starts
  traps p hp := by
    rcases Nat.lt_or_ge p s.code.length with hlt | hge
    · refine h.traps p ?_
      unfold opAt at hp ⊢
      rwa [List.getElem?_append_left hlt] at hp
    · have hlen : p = s.code.length := by
        have := opAt_lt hp
        simp only [List.length_append, List.length_singleton] at this
        omega
      subst hlen
      unfold opAt at hp
      rw [List.getElem?_concat_length] at hp
      exact hu (Option.some.inj hp)

theorem Bounded.patch (h : Bounded U n s) (p : Nat) {t : Nat} (ht : t ≤ n) :
    Bounded U n { s with code := patchB s.code p t } where
  le := by
    rw [patchB_length]
    exact h.le
  targets q j hj hop := by
    rw [patchB_get] at hj
    split_ifs at hj
    · obtain ⟨i, hi, rfl⟩ := Option.map_eq_some_iff.mp hj
      exact ht
    · exact h.targets q j hj hop
  starts := h.starts
  traps q hq := h.traps q (by rwa [opAt_patchB] at hq)

/-- Changing what the pass tracks besides the code. -/
theorem Bounded.track (h : Bounded U n s) (consts : List Slot) (k : Nat) (dead : Bool)
    {ctrl : List Ctrl} (hc : ∀ c ∈ ctrl, c.start ≤ n) :
    Bounded U n { code := s.code, consts := consts, h := k, dead := dead, ctrl := ctrl } :=
  ⟨h.le, h.targets, hc, h.traps⟩

theorem Within.mono {k : Nat} (h : Within U n s) (hk : k ≤ n) : Within U k s :=
  h.bounded.within (hk.trans h.low)

end

section

variable {U : Nat → Prop} {n : Nat}

theorem Maintains.bind {α β : Type} {x : Lower α} {g : α → Lower β} (hx : Maintains U n x)
    (hg : ∀ a, Maintains U n (g a)) : Maintains U n (x >>= g) := Spec.bind hx hg

theorem Maintains.pure {α : Type} (a : α) : Maintains U n (pure a : Lower α) := Spec.pure fun _ h => h

theorem Maintains.throw {α : Type} (e : String) : Maintains U n (throw e : Lower α) :=
  Spec.throw fun _ h => h

theorem Maintains.get : Maintains U n (get : Lower LState) :=
  Spec.get.mono (fun _ h => h) (fun _ _ h => h.2) fun _ _ h => h

theorem Maintains.ite {α : Type} {c : Prop} [Decidable c] {x y : Lower α} (hx : Maintains U n x)
    (hy : Maintains U n y) : Maintains U n (if c then x else y) := Spec.ite (fun _ => hx) fun _ => hy

theorem Maintains.modify {g : LState → LState} (h : ∀ s, Within U n s → Within U n (g s)) :
    Maintains U n (modify g : Lower PUnit) := Spec.modify h

theorem Maintains.ofExcept {α : Type} (x : Except String α) : Maintains U n (ofExcept x) := by
  cases x with
  | ok a => exact Maintains.pure a
  | error e => exact Maintains.throw e

/-- A computation that is known state by state. -/
theorem Maintains.of_final {α : Type} {x : Lower α} (h : ∀ s, Within U n s → Within U n (final (x s))) :
    Maintains U n x := by
  intro s hs
  have hf := h s hs
  constructor
  · intro a s' hx
    rwa [hx] at hf
  · intro e s' hx
    rwa [hx] at hf

theorem Maintains.final {α : Type} {x : Lower α} (h : Maintains U n x) {s : LState} (hs : Within U n s) :
    Within U n (final (x s)) := by
  obtain ⟨h1, h2⟩ := h s hs
  cases hx : x s with
  | ok a t => exact h1 a t hx
  | error e t => exact h2 e t hx

theorem emit_maintains (op : Opcode) (a b : Nat) (hb : b = 0 ∨ op ≠ .br ∧ op ≠ .brIfNot)
    (hu : op ≠ .unreachable) : Maintains U n (emit op a b) := by
  refine Maintains.of_final fun s hs => ?_
  refine (hs.bounded.emit ⟨op, a, b⟩ (fun hop => ?_) fun h => absurd h hu).within hs.low
  rcases hb with rfl | ⟨h1, h2⟩
  · exact Nat.zero_le _
  · exact absurd hop (by simp only [h1, h2, or_self, not_false_eq_true])

theorem consume_maintains (pops pushes : Nat) : Maintains U n (consume pops pushes) := by
  refine Maintains.of_final fun s hs => ?_
  rw [Structured.consume_apply]
  split_ifs
  · exact hs
  · exact hs
  · exact (hs.bounded.track _ _ _ hs.bounded.starts).within hs.low

theorem intern_maintains (x : Slot) : Maintains U n (intern x) := by
  refine Maintains.of_final fun s hs => ?_
  rw [Structured.intern_apply]
  exact (hs.bounded.track _ _ _ hs.bounded.starts).within hs.low

theorem plain_maintains (op : Opcode) (a b pops pushes : Nat)
    (hb : b = 0 ∨ op ≠ .br ∧ op ≠ .brIfNot) (hu : op ≠ .unreachable) :
    Maintains U n (plain op a b pops pushes) :=
  Maintains.bind (emit_maintains op a b hb hu) fun _ => consume_maintains pops pushes

theorem markDead_maintains : Maintains U n markDead :=
  Maintains.modify fun s hs => (hs.bounded.track s.consts s.h true hs.bounded.starts).within hs.low

/-- Patching an instruction with the end of the code. -/
theorem patchHere_maintains (p : Nat) : Maintains U n (do patch p (← get).code.length) :=
  Maintains.of_final fun _ hs => (hs.bounded.patch p le_rfl).within hs.low

theorem emitUnwind_maintains (env : LowerEnv) (c : Ctrl) : Maintains U n (emitUnwind env c) := by
  refine Maintains.get.bind fun s => Spec.guard (fun _ _ h => h) fun _ => Maintains.ite ?_ (.pure ())
  exact (emit_maintains _ _ _ (.inr (by decide)) (by decide)).bind fun _ => .pure ()

theorem record_starts {ctrl : List Ctrl} {idx p n : Nat} (h : ∀ c ∈ ctrl, c.start ≤ n) :
    ∀ c ∈ ctrl.modify idx fun c => { c with patches := c.patches ++ [p] }, c.start ≤ n := by
  intro c hc
  rcases mem_record hc with hc | ⟨d, hd, rfl⟩
  · exact h c hc
  · exact h d hd

theorem emitJump_maintains (idx : Nat) (c : Ctrl) :
    Spec (Within U (max n c.start)) (emitJump idx c) (fun _ => Within U n) fun _ => Within U n := by
  intro s hs
  have hlow := Nat.max_le.mp hs.low
  have hjump (t : Nat) (ht : t ≤ s.code.length) :
      Bounded U s.code.length { s with code := s.code ++ [⟨.br, 0, t⟩] } :=
    hs.bounded.emit _ (fun _ => ht) fun h => by cases h
  unfold emitJump
  simp only [ite_run, bind_apply, Structured.emit_apply, modify_apply]
  split_ifs
  · exact ⟨fun _ s' h => by cases h; exact (hjump _ hlow.2).within hlow.1, fun e s' h => by cases h⟩
  · refine ⟨fun _ s' h => ?_, fun e s' h => by cases h⟩
    cases h
    exact ((hjump 0 (Nat.zero_le _)).track s.consts s.h s.dead
      (record_starts hs.bounded.starts)).within hlow.1

theorem branch_maintains (env : LowerEnv) (depth : Nat) : Maintains U n (branch env depth) := by
  refine Spec.bind (Q := fun c => Within U (max n c.start)) ?_ fun c => ?_
  · refine Spec.get_bind fun s hs => ?_
    split
    · exact Spec.throw fun _ h => h ▸ hs
    · rename_i c hc
      refine Spec.pure fun t ht => ?_
      subst ht
      exact hs.bounded.within
        (Nat.max_le.mpr ⟨hs.low, hs.bounded.starts c (List.mem_of_getElem? hc)⟩)
  · refine Spec.bind (Q := fun _ => Within U (max n c.start)) ?_ fun s => Spec.ite (fun _ => ?_)
      fun _ => emitJump_maintains depth c
    · exact Maintains.get.mono (fun _ h => h) (fun _ _ h => h) fun _ _ h => h.mono (Nat.le_max_left ..)
    · refine Spec.bind (Q := fun _ => Within U (max n c.start)) ?_ fun _ => emitJump_maintains depth c
      exact (emitUnwind_maintains env c).mono (fun _ h => h) (fun _ _ h => h)
        fun _ _ h => h.mono (Nat.le_max_left ..)

/-- A branch behind a `BR_IF_NOT` that skips it. -/
theorem skip_maintains (env : LowerEnv) (depth : Nat) :
    Maintains U n (do
      let skip ← emit .brIfNot 0 0
      branch env depth
      patch skip (← get).code.length) :=
  Maintains.bind (emit_maintains _ _ _ (.inl rfl) (by decide)) fun p =>
    Maintains.bind (branch_maintains env depth) fun _ => patchHere_maintains p

theorem brTableArms_maintains (env : LowerEnv) (scratch i : Nat) (targets : List Nat) :
    Maintains U n (brTableArms env scratch i targets) := by
  induction targets generalizing i with
  | nil => exact Maintains.pure ()
  | cons depth depths ih =>
    refine (intern_maintains _).bind fun idxc => ?_
    refine (plain_maintains _ _ _ _ _ (.inl rfl) (by decide)).bind fun _ => ?_
    refine (plain_maintains _ _ _ _ _ (.inr (by decide)) (by decide)).bind fun _ => ?_
    refine (plain_maintains _ _ _ _ _ (.inl rfl) (by decide)).bind fun _ => ?_
    refine (consume_maintains _ _).bind fun _ => ?_
    refine (emit_maintains _ _ _ (.inl rfl) (by decide)).bind fun p => ?_
    refine (branch_maintains env depth).bind fun _ => ?_
    refine Spec.get_bind fun s hs => ?_
    rintro t rfl
    exact ((patchHere_maintains p).bind fun _ => ih (i + 1)) t hs

theorem pushCtrl_maintains (kind : CtrlKind) (np nr : Nat) (pc : Option Nat) :
    Maintains U n (pushCtrl kind np nr pc) := by
  refine Spec.get_bind fun s hs => ?_
  refine Spec.guard (fun t _ ht => ht ▸ hs) fun _ => ?_
  rintro s rfl
  refine ⟨fun _ s' h => ?_, fun e s' h => by cases h⟩
  cases h
  refine (hs.bounded.track s.consts s.h s.dead fun c hc => ?_).within hs.low
  rcases List.mem_cons.mp hc with rfl | hc
  · exact le_rfl
  · exact hs.bounded.starts c hc

theorem ifArm_maintains (env : LowerEnv) (ty : BlockType) : Maintains U n (ifArm env ty) :=
  (Maintains.ofExcept _).bind fun a => (consume_maintains 1 0).bind fun _ =>
    (emit_maintains _ _ _ (.inl rfl) (by decide)).bind fun p => pushCtrl_maintains .if_ a.1 a.2 (some p)

theorem elseArm_maintains : Maintains U n elseArm := by
  refine Spec.get_bind fun s hs => ?_
  split
  · exact Spec.throw fun _ h => h ▸ hs
  rename_i c rest hctrl
  refine Spec.guard (fun t _ ht => ht ▸ hs) fun _ => ?_
  have hstarts : ∀ d ∈ ({ c with elseBr := some s.code.length, hasElse := true } : Ctrl) :: rest,
      d.start ≤ s.code.length := by
    intro d hd
    rcases List.mem_cons.mp hd with rfl | hd
    · exact hs.bounded.starts c (by rw [hctrl]; exact .head _)
    · exact hs.bounded.starts d (by rw [hctrl]; exact .tail _ hd)
  refine Spec.bind (Q := fun br t => br = s.code.length ∧ t = { s with code := s.code ++ [⟨.br, 0, 0⟩] })
    ?_ fun br => ?_
  · rintro _ rfl
    exact ⟨fun p s' h => by cases h; exact ⟨rfl, rfl⟩, fun e s' h => by cases h⟩
  refine Spec.bind (Q := fun _ => Within U n) (Spec.modify ?_) fun _ => ?_
  · rintro t ⟨rfl, rfl⟩
    exact ((hs.bounded.emit ⟨.br, 0, 0⟩ (fun _ => Nat.zero_le _) fun h => by cases h).track _ _ _
      hstarts).within hs.low
  · have hdone : Maintains U n (modify fun s => { s with h := c.base + c.nParams, dead := false }) :=
      Maintains.modify fun t ht => (ht.bounded.track _ _ _ ht.bounded.starts).within ht.low
    dsimp only
    split
    · rename_i ifPc _
      refine Spec.get_bind fun t ht => ?_
      rintro t rfl
      exact ((patchHere_maintains ifPc).bind fun _ => hdone) t ht
    · exact hdone

theorem patchB_ops (code : List CuOp) (p t : Nat) :
    (patchB code p t).map (·.op) = code.map (·.op) := by
  refine List.ext_getElem? fun q => ?_
  rw [List.getElem?_map, List.getElem?_map]
  exact opAt_patchB code p t q

/-- Patches that lead to `joinPc`. -/
theorem endPatches_bounded (c : Ctrl) {joinPc n : Nat} (k : List Opcode) (hj : joinPc ≤ n) :
    Spec (fun s => Bounded U n s ∧ s.code.map (·.op) = k) (endPatches c joinPc)
      (fun _ s => Bounded U n s ∧ s.code.map (·.op) = k)
      fun _ s => Bounded U n s ∧ s.code.map (·.op) = k := by
  have hpatch (p : Nat) : Spec (fun s => Bounded U n s ∧ s.code.map (·.op) = k) (patch p joinPc)
      (fun _ s => Bounded U n s ∧ s.code.map (·.op) = k)
      fun _ s => Bounded U n s ∧ s.code.map (·.op) = k :=
    Spec.modify fun s hs => ⟨hs.1.patch p hj, (patchB_ops ..).trans hs.2⟩
  have hrest (ps : List Nat) : Spec (fun s => Bounded U n s ∧ s.code.map (·.op) = k)
      (ps.forM fun p => patch p joinPc) (fun _ s => Bounded U n s ∧ s.code.map (·.op) = k)
      fun _ s => Bounded U n s ∧ s.code.map (·.op) = k := by
    induction ps with
    | nil => exact Spec.pure fun _ h => h
    | cons p ps ih => exact Spec.bind (hpatch p) fun _ => ih
  unfold endPatches
  dsimp only
  refine Spec.ite (fun _ => ?_) fun _ => hrest _
  refine Spec.ite (fun _ => ?_) fun _ => ?_
  · split
    · exact Spec.bind (hpatch _) fun _ => hrest _
    · exact hrest _
  · split
    · exact Spec.bind (hpatch _) fun _ => hrest _
    · exact hrest _

/-- What `Operator::End` does once the end of the block is known. -/
theorem close_bounded (c : Ctrl) {joinPc n : Nat} (k : List Opcode) (hj : joinPc ≤ n) :
    Spec (fun s => Bounded U n s ∧ s.code.map (·.op) = k)
      (do
        endPatches c joinPc
        modify fun s => { s with h := c.base + c.nResults, dead := c.deadOnEntry })
      (fun _ s => Bounded U n s ∧ s.code.map (·.op) = k)
      fun _ s => Bounded U n s ∧ s.code.map (·.op) = k :=
  Spec.bind (endPatches_bounded c k hj) fun _ =>
    Spec.modify fun _ ht => ⟨ht.1.track _ _ _ ht.1.starts, ht.2⟩

/-- The end of the function itself: its `OP_END_FUNC` is the last place a branch leads to. -/
theorem endArm_func (env : LowerEnv) {s t : LState} {c : Ctrl} {rest : List Ctrl}
    (hs : Within U n s) (hctrl : s.ctrl = c :: rest) (hk : c.kind = .func)
    (h : endArm env s = .ok () t) :
    Bounded U s.code.length t ∧ t.code.map (·.op) = s.code.map (·.op) ++ [.endFunc] := by
  have hrest : ∀ d ∈ rest, d.start ≤ s.code.length :=
    fun d hd => hs.bounded.starts d (by rw [hctrl]; exact .tail _ hd)
  have hb := (hs.bounded.emit ⟨.endFunc, env.nResults, 0⟩ (fun h => by rcases h with h | h <;> cases h)
    fun h => by cases h).track s.consts s.h s.dead hrest
  unfold endArm at h
  simp only [bind_apply, get_apply, hctrl, modify_apply, hk, if_true, Structured.emit_apply] at h
  have hclose := close_bounded (U := U) c (s.code.map (·.op) ++ [.endFunc]) (le_refl s.code.length)
  refine (hclose _ ⟨hb, List.map_append⟩).1 () t ?_
  simpa only [bind_apply, modify_apply] using h

theorem endArm_maintains (env : LowerEnv) : Maintains U n (endArm env) := by
  refine Spec.get_bind fun s hs => ?_
  split
  · exact Spec.throw fun _ h => h ▸ hs
  rename_i c rest hctrl
  have hrest : ∀ d ∈ rest, d.start ≤ s.code.length :=
    fun d hd => hs.bounded.starts d (by rw [hctrl]; exact .tail _ hd)
  have hpop := hs.bounded.track s.consts s.h s.dead hrest
  refine Spec.bind (Q := fun _ t => t = { s with ctrl := rest })
    (Spec.modify fun t ht => by rw [ht]) fun _ => ?_
  have hdone : Spec (Bounded U s.code.length)
      (do
        endPatches c s.code.length
        modify fun s => { s with h := c.base + c.nResults, dead := c.deadOnEntry })
      (fun _ => Within U n) fun _ => Within U n :=
    fun t ht => (close_bounded c _ le_rfl).mono (fun _ h => h)
      (fun _ _ h => h.1.within hs.low) (fun _ _ h => h.1.within hs.low) t ⟨ht, rfl⟩
  dsimp only
  refine Spec.ite (fun hk => ?_) fun hk => ?_
  · refine Spec.bind (Q := fun p t => p = s.code.length ∧ Bounded U s.code.length t) ?_ fun p => ?_
    · rintro _ rfl
      refine ⟨fun p s' h => ?_, fun e s' h => by cases h⟩
      cases h
      exact ⟨rfl, hpop.emit _ (fun h => by rcases h with h | h <;> cases h) fun h => by cases h⟩
    · rintro t ⟨rfl, ht⟩
      exact hdone t ht
  · rintro _ rfl
    exact hdone _ hpop

theorem NumOp.lower_plain (o : NumOp) : (NumOp.lower o).1 ≠ .unreachable := by
  cases o <;> decide

theorem memArm_maintains (mem : Nat) (op : Opcode) (a pops pushes : Nat) (hu : op ≠ .unreachable) :
    Maintains U n (memArm mem op a pops pushes) := by
  unfold memArm
  exact Spec.guard (fun _ _ h => h) fun _ => plain_maintains _ _ _ _ _ (.inl rfl) hu

theorem callArm_maintains (env : LowerEnv) (functionIndex : Nat) :
    Maintains U n (callArm env functionIndex) := by
  refine (Maintains.ofExcept _).bind fun a => Maintains.ite ?_ ?_
  · split
    · exact Maintains.throw _
    · exact plain_maintains _ _ _ _ _ (.inr (by decide)) (by decide)
  · exact plain_maintains _ _ _ _ _ (.inr (by decide)) (by decide)

theorem callIndirectArm_maintains (env : LowerEnv) (typeIndex tableIndex : Nat) :
    Maintains U n (callIndirectArm env typeIndex tableIndex) := by
  unfold callIndirectArm
  refine Spec.guard (fun _ _ h => h) fun _ => ?_
  split
  · exact Maintains.throw _
  · exact plain_maintains _ _ _ _ _ (.inr (by decide)) (by decide)

theorem brTableArm_maintains (env : LowerEnv) (targets : List Nat) (default : Nat) :
    Maintains U n (brTableArm env targets default) := by
  unfold brTableArm
  split
  · exact Maintains.throw _
  · exact (plain_maintains _ _ _ _ _ (.inl rfl) (by decide)).bind fun _ =>
      (brTableArms_maintains env _ 0 targets).bind fun _ =>
        (branch_maintains env default).bind fun _ => markDead_maintains

/-- An operator other than `unreachable` emits no `OP_UNREACHABLE`. -/
theorem operator_maintains (env : LowerEnv) (o : Operator) (ho : o ≠ .unreachable) :
    Maintains U n (operator env o) := by
  have hzero (op : Opcode) (a pops pushes : Nat) (hu : op ≠ .unreachable) :
      Maintains U n (plain op a 0 pops pushes) := plain_maintains op a 0 pops pushes (.inl rfl) hu
  have hplain (op : Opcode) (a b pops pushes : Nat) (hb : op ≠ .br ∧ op ≠ .brIfNot)
      (hu : op ≠ .unreachable) : Maintains U n (plain op a b pops pushes) :=
    plain_maintains op a b pops pushes (.inr hb) hu
  have hemit (op : Opcode) (a : Nat) (hu : op ≠ .unreachable) : Maintains U n (emit op a 0) :=
    emit_maintains op a 0 (.inl rfl) hu
  cases o with
  | nop => exact Maintains.pure ()
  | unreachable => exact absurd rfl ho
  | const c => exact (intern_maintains _).bind fun _ => hplain _ _ _ _ _ (by decide) (by decide)
  | drop => exact hzero _ _ _ _ (by decide)
  | select => exact hzero _ _ _ _ (by decide)
  | typedSelect t => exact hzero _ _ _ _ (by decide)
  | num o => exact hzero _ _ _ _ (NumOp.lower_plain o)
  | globalGet i => exact hplain _ _ _ _ _ (by decide) (by decide)
  | globalSet i => exact hplain _ _ _ _ _ (by decide) (by decide)
  | localGet i => exact hzero _ _ _ _ (by decide)
  | localSet i => exact hzero _ _ _ _ (by decide)
  | localTee i =>
    exact (hemit _ _ (by decide)).bind fun _ => (hemit _ _ (by decide)).bind fun _ => Maintains.pure ()
  | block ty => exact (Maintains.ofExcept _).bind fun a => pushCtrl_maintains .block a.1 a.2 none
  | loop ty => exact (Maintains.ofExcept _).bind fun a => pushCtrl_maintains .loop a.1 a.2 none
  | if_ ty => exact ifArm_maintains env ty
  | else_ => exact elseArm_maintains
  | end_ => exact endArm_maintains env
  | br depth => exact (branch_maintains env depth).bind fun _ => markDead_maintains
  | brIf depth => exact (consume_maintains 1 0).bind fun _ => skip_maintains env depth
  | brTable targets default => exact brTableArm_maintains env targets default
  | return_ => exact (hemit _ _ (by decide)).bind fun _ => markDead_maintains
  | call fi => exact callArm_maintains env fi
  | returnCall fi =>
    unfold operator
    exact Spec.guard (fun _ _ h => h) fun _ =>
      (emit_maintains _ _ _ (.inr (by decide)) (by decide)).bind fun _ => markDead_maintains
  | callIndirect ti tab => exact callIndirectArm_maintains env ti tab
  | load o ma => exact (Maintains.ofExcept _).bind fun _ => hplain _ _ _ _ _ (by decide) (by decide)
  | store o ma => exact (Maintains.ofExcept _).bind fun _ => hplain _ _ _ _ _ (by decide) (by decide)
  | memorySize mem => exact memArm_maintains mem _ _ _ _ (by decide)
  | memoryGrow mem => exact memArm_maintains mem _ _ _ _ (by decide)
  | memoryCopy dst src =>
    unfold operator
    exact Spec.guard (fun _ _ h => h) fun _ => hzero _ _ _ _ (by decide)
  | memoryFill mem => exact memArm_maintains mem _ _ _ _ (by decide)
  | memoryInit di mem => exact memArm_maintains mem _ _ _ _ (by decide)
  | dataDrop di => exact (hemit _ _ (by decide)).bind fun _ => Maintains.pure ()
  | reinterpret r => exact consume_maintains 1 1
  | refFunc i => exact Maintains.throw _
  | refNull => exact Maintains.throw _
  | other t => exact Maintains.throw _

/-- An `unreachable` emits its instruction at the end of the code. -/
theorem unreachable_apply (env : LowerEnv) (s : LState) :
    operator env .unreachable s =
      .ok () { s with code := s.code ++ [{ op := .unreachable }], dead := true } := rfl

theorem unreachable_within (env : LowerEnv) {s : LState} (hs : Within U n s) (hU : U s.code.length) :
    Within U n (final (operator env .unreachable s)) := by
  rw [unreachable_apply]
  exact ((hs.bounded.emit { op := .unreachable } (fun h => by rcases h with h | h <;> cases h)
    fun _ => hU).track s.consts s.h true hs.bounded.starts).within hs.low

/-- A pass from `init` that has come to `s` and still has `todo` in front of it. The induction is on
`todo`; `U` must hold where the pass meets an `unreachable`. -/
theorem operators_within_from (env : LowerEnv) {init : LState} {ops : List Operator}
    (hU : ∀ pre post st, ops = pre ++ .unreachable :: post → operators env pre init = .ok () st →
      U st.code.length) (todo : List Operator) :
    ∀ {done : List Operator} {s : LState}, ops = done ++ todo → operators env done init = .ok () s →
      Within U n s → Within U n (final (operators env todo s)) := by
  induction todo with
  | nil => exact fun _ _ hs => hs
  | cons o todo ih =>
    intro done s hops hdone hs
    have ho : Within U n (final (operator env o s)) := by
      by_cases hun : o = .unreachable
      · subst hun
        exact unreachable_within env hs (hU done todo s hops hdone)
      · exact (operator_maintains env o hun).final hs
    have hcons : operators env (o :: todo) = (operator env o >>= fun _ => operators env todo) := rfl
    rw [hcons, bind_apply]
    cases hx : operator env o s with
    | error e t =>
      rw [hx] at ho
      exact ho
    | ok a t =>
      rw [hx] at ho
      have hops' : ops = (done ++ [o]) ++ todo := by
        rw [hops, List.append_assoc]
        rfl
      refine ih hops' ?_ ho
      rw [Structured.operators_append, bind_ok hdone]
      show (operator env o >>= fun _ => operators env []) s = .ok () t
      rw [bind_ok hx]
      rfl

theorem operators_within (env : LowerEnv) {init : LState} (ops : List Operator) (hs : Within U n init)
    (hU : ∀ pre post st, ops = pre ++ .unreachable :: post → operators env pre init = .ok () st →
      U st.code.length) : Within U n (final (operators env ops init)) :=
  operators_within_from env hU ops (List.nil_append ops).symm rfl hs

/-- A whole function: the branches stay in front of its `OP_END_FUNC`, or lead to it. -/
theorem function_bounded (env : LowerEnv) {b : Body} (hb : b.Plain) {init t : LState} {c : Ctrl}
    (hctrl : init.ctrl = [c]) (hk : c.kind = .func) (hs : Within U n init)
    (hU : ∀ pre post st, b.function = pre ++ .unreachable :: post →
      operators env pre init = .ok () st → U st.code.length)
    (h : operators env b.function init = .ok () t) :
    ∃ k, Bounded U k t ∧ t.code.length = k + 1 ∧ opAt t.code k = some .endFunc := by
  unfold Body.function at h hU
  rw [Structured.operators_append] at h
  obtain ⟨⟨⟩, s1, h1, h2⟩ := bind_eq_ok h
  have hw : Within U n s1 := by
    have hflat := operators_within env b.flatten hs fun pre post st hops =>
      hU pre (post ++ [.end_]) st (by rw [hops, List.append_assoc]; rfl)
    rwa [h1] at hflat
  have href := Structured.refines_body env b hb _ false init rfl
  unfold Structured.Refines at href
  rw [h1] at href
  have hc : ∃ c', s1.ctrl = [c'] ∧ c'.kind = .func := by
    cases hy : Structured.body env (init.ctrl.map Structured.label) false (Structured.view init) b with
    | none =>
      rw [hy] at href
      obtain ⟨e, s', he⟩ := href
      cases he
    | some p =>
      rw [hy] at href
      obtain ⟨-, heq⟩ := href
      cases heq
      have hrec : (Structured.extend init p.1 p.2).ctrl =
          [{ c with patches := c.patches ++ Structured.jumps 0 init.code.length p.1 }] := by
        show Structured.record _ _ init.ctrl = _
        rw [hctrl, Structured.record_cons _ _ _ _ 0]
        rfl
      exact ⟨_, hrec, hk⟩
  obtain ⟨c', hc', hk'⟩ := hc
  obtain ⟨⟨⟩, s2, h3, h4⟩ := bind_eq_ok h2
  cases h4
  obtain ⟨hb', hops⟩ := endArm_func env hw hc' hk' h3
  refine ⟨_, hb', ?_, ?_⟩
  · have hlen := congrArg List.length hops
    simpa only [List.length_map, List.length_append, List.length_singleton] using hlen
  · unfold opAt
    rw [← List.getElem?_map, hops, List.getElem?_append_right (by rw [List.length_map]),
      List.length_map, Nat.sub_self]
    rfl

/-- The code does not get shorter. -/
theorem operators_length (env : LowerEnv) (ops : List Operator) {s : LState} (hs : Within U n s) :
    s.code.length ≤ (final (operators env ops s)).code.length := by
  have hw : Within (fun _ => True) s.code.length s :=
    ⟨⟨le_rfl, hs.bounded.targets, hs.bounded.starts, fun _ _ => trivial⟩, le_rfl⟩
  exact (operators_within env ops hw fun _ _ _ _ _ => trivial).low

/-- A pass that succeeds has a case for every operator. -/
theorem operators_supported (env : LowerEnv) {ops : List Operator} {s t : LState}
    (h : operators env ops s = .ok () t) : ∀ o ∈ ops, o.supported = true := by
  induction ops generalizing s with
  | nil => exact fun o ho => by cases ho
  | cons o ops ih =>
    obtain ⟨⟨⟩, s1, h1, h2⟩ := bind_eq_ok h
    intro o' ho'
    rcases List.mem_cons.mp ho' with rfl | ho'
    · cases o' <;> first | rfl | cases h1
    · exact ih h2 o' ho'

end

end Lower

end CuWasm
