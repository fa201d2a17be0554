import CuWasm.Proofs.PassProofs

/-!
# Instructions that stay

The pass changes an instruction after it was emitted only where an open block has recorded a branch.
What is emitted for any other operator therefore stays as it is to the end of the function.
-/

namespace CuWasm

open Wasm Exit

namespace Lower

/-- The block has not recorded the position `p`. -/
structure Spares (p : Nat) (c : Ctrl) : Prop where
  patches : p ∉ c.patches
  elseBr : c.elseBr ≠ some p
  brIfNot : c.brIfNot ≠ some p

/-- The instruction `i` stands at `p`, and no open block is going to change it. -/
structure Pinned (p : Nat) (i : CuOp) (s : LState) : Prop where
  code : s.code[p]? = some i
  ctrl : ∀ c ∈ s.ctrl, Spares p c

/-- If the computation succeeds, the instruction is still there. -/
def Pins {α : Type} (p : Nat) (i : CuOp) (x : Lower α) : Prop :=
  Spec (Pinned p i) x (fun _ => Pinned p i) fun _ _ => True

section Pinned

variable {p : Nat} {i : CuOp} {s : LState}

theorem Pinned.lt (h : Pinned p i s) : p < s.code.length := (List.getElem?_eq_some_iff.mp h.code).1

theorem Pinned.append (h : Pinned p i s) (l : List CuOp) :
    Pinned p i { s with code := s.code ++ l } := by
  refine ⟨?_, h.ctrl⟩
  rw [List.getElem?_append_left h.lt]
  exact h.code

theorem Pinned.patch (h : Pinned p i s) {q : Nat} (hq : q ≠ p) (t : Nat) :
    Pinned p i { s with code := patchB s.code q t } := by
  refine ⟨?_, h.ctrl⟩
  rw [patchB_get, if_neg hq]
  exact h.code

end Pinned

section

variable {p : Nat} {i : CuOp}

theorem Pins.bind {α β : Type} {x : Lower α} {g : α → Lower β} (hx : Pins p i x)
    (hg : ∀ a, Pins p i (g a)) : Pins p i (x >>= g) := Spec.bind hx hg

theorem Pins.pure {α : Type} (a : α) : Pins p i (pure a : Lower α) := Spec.pure fun _ h => h

theorem Pins.throw {α : Type} (e : String) : Pins p i (throw e : Lower α) :=
  Spec.throw fun _ _ => trivial

theorem Pins.get : Pins p i (get : Lower LState) :=
  Spec.get.mono (fun _ h => h) (fun _ _ h => h.2) fun _ _ h => h

theorem Pins.ite {α : Type} {c : Prop} [Decidable c] {x y : Lower α} (hx : Pins p i x)
    (hy : Pins p i y) : Pins p i (if c then x else y) := Spec.ite (fun _ => hx) fun _ => hy

theorem Pins.guard {α : Type} {c : Prop} [Decidable c] {e : String} {k : PUnit → Lower α}
    (hk : Pins p i (k ⟨⟩)) : Pins p i (if c then Bind.bind (MonadExcept.throw e) k else k ⟨⟩) :=
  Spec.guard (fun _ _ _ => trivial) fun _ => hk

theorem Pins.ofExcept {α : Type} (x : Except String α) : Pins p i (ofExcept x) := by
  cases x with
  | ok a => exact Pins.pure a
  | error e => exact Pins.throw e

/-- A computation that goes on from the state it reads. -/
theorem Pins.get_bind {α : Type} {g : LState → Lower α}
    (h : ∀ s, Pinned p i s → ∀ a s', g s s = .ok a s' → Pinned p i s') :
    Pins p i (Bind.bind MonadState.get g) := by
  refine Spec.get_bind fun s hs => ?_
  rintro _ rfl
  exact ⟨fun a s' hx => h _ hs a s' hx, fun _ _ _ => trivial⟩

/-- What is emitted stands behind the pinned instruction. -/
theorem emit_pins (op : Opcode) (a b : Nat) :
    Spec (Pinned p i) (emit op a b) (fun q s => Pinned p i s ∧ q ≠ p) fun _ _ => True := by
  refine Spec.get_bind fun s hs => ?_
  rintro _ rfl
  refine ⟨fun q s' h => ?_, fun _ _ _ => trivial⟩
  cases h
  exact ⟨hs.append _, hs.lt.ne'⟩

theorem emit_keeps (op : Opcode) (a b : Nat) : Pins p i (emit op a b) :=
  (emit_pins op a b).mono (fun _ h => h) (fun _ _ h => h.1) fun _ _ _ => trivial

theorem consume_pins (pops pushes : Nat) : Pins p i (consume pops pushes) := by
  refine Pins.get_bind fun s hs a s' h => ?_
  split_ifs at h
  · cases h
    exact hs
  · cases h
  · cases h
    exact ⟨hs.code, hs.ctrl⟩

theorem intern_pins (x : Slot) : Pins p i (intern x) := by
  refine Pins.get_bind fun s hs a s' h => ?_
  cases hx : s.consts.findIdx? (· == x) with
  | some k =>
    rw [hx] at h
    cases h
    exact hs
  | none =>
    rw [hx] at h
    cases h
    exact ⟨hs.code, hs.ctrl⟩

theorem plain_pins (op : Opcode) (a b pops pushes : Nat) : Pins p i (plain op a b pops pushes) :=
  (emit_keeps op a b).bind fun _ => consume_pins pops pushes

theorem markDead_pins : Pins p i markDead := Spec.modify fun _ hs => ⟨hs.code, hs.ctrl⟩

theorem emitUnwind_pins (env : LowerEnv) (c : Ctrl) : Pins p i (emitUnwind env c) := by
  refine Pins.get.bind fun s => Pins.guard (Pins.ite ?_ (Pins.pure _))
  exact (emit_keeps _ _ _).bind fun _ => Pins.pure _

theorem pushCtrl_pins (kind : CtrlKind) (np nr : Nat) (pc : Option Nat) (hpc : pc ≠ some p) :
    Pins p i (pushCtrl kind np nr pc) := by
  refine Pins.get_bind fun s hs a s' h => ?_
  dsimp only at h
  by_cases hnp : ¬ s.dead ∧ s.h < np
  · rw [if_pos hnp] at h
    cases h
  · rw [if_neg hnp] at h
    cases h
    refine ⟨hs.code, fun c hc => ?_⟩
    rcases List.mem_cons.mp hc with rfl | hc
    · exact ⟨List.not_mem_nil, nofun, hpc⟩
    · exact hs.ctrl c hc

theorem emitJump_pins (idx : Nat) (c : Ctrl) : Pins p i (emitJump idx c) := by
  refine Pins.ite ((emit_keeps _ _ _).bind fun _ => Pins.pure _) ?_
  refine Spec.bind (emit_pins _ _ _) fun q => Spec.modify fun s hs => ?_
  obtain ⟨hs, hq⟩ := hs
  refine ⟨hs.code, fun d hd => ?_⟩
  rcases mem_record hd with hd | ⟨d', hd', rfl⟩
  · exact hs.ctrl d hd
  · have hsp := hs.ctrl d' hd'
    refine ⟨fun hmem => ?_, hsp.elseBr, hsp.brIfNot⟩
    rcases List.mem_append.mp hmem with hmem | hmem
    · exact hsp.patches hmem
    · exact hq (List.mem_singleton.mp hmem).symm

theorem branch_pins (env : LowerEnv) (depth : Nat) : Pins p i (branch env depth) := by
  refine Pins.bind ?_ fun c => Pins.get.bind fun s => ?_
  · refine Pins.get.bind fun s => ?_
    split
    · exact Pins.throw _
    · exact Pins.pure _
  · exact Pins.ite ((emitUnwind_pins env c).bind fun _ => emitJump_pins depth c)
      (emitJump_pins depth c)

theorem patch_pins {q : Nat} (hq : q ≠ p) (t : Nat) : Pins p i (patch q t) :=
  Spec.modify fun _ hs => hs.patch hq t

/-- A branch behind a `BR_IF_NOT` that skips it. -/
theorem skip_pins (env : LowerEnv) (depth : Nat) {α : Type} {g : Lower α} (hg : Pins p i g) :
    Pins p i (do
      let skip ← emit .brIfNot 0 0
      branch env depth
      patch skip (← get).code.length
      g) := by
  refine Spec.bind (emit_pins _ _ _) fun q => ?_
  by_cases hq : q = p
  · exact fun s hs => absurd hq hs.2
  · refine Spec.mono ?_ (fun s hs => hs.1) (fun _ _ h => h) fun _ _ h => h
    exact (branch_pins env depth).bind fun _ => Pins.get.bind fun s => (patch_pins hq _).bind fun _ => hg

theorem brTableArms_pins (env : LowerEnv) (scratch k : Nat) (targets : List Nat) :
    Pins p i (brTableArms env scratch k targets) := by
  induction targets generalizing k with
  | nil => exact Pins.pure _
  | cons depth depths ih =>
    refine (intern_pins _).bind fun c => (plain_pins _ _ _ _ _).bind fun _ => ?_
    refine (plain_pins _ _ _ _ _).bind fun _ => (plain_pins _ _ _ _ _).bind fun _ => ?_
    exact (consume_pins _ _).bind fun _ => skip_pins env depth (ih (k + 1))

theorem ifArm_pins (env : LowerEnv) (ty : BlockType) : Pins p i (ifArm env ty) := by
  refine (Pins.ofExcept _).bind fun a => (consume_pins 1 0).bind fun _ => ?_
  refine Spec.bind (emit_pins _ _ _) fun q => ?_
  by_cases hq : q = p
  · exact fun s hs => absurd hq hs.2
  · refine Spec.mono (pushCtrl_pins .if_ a.1 a.2 (some q) ?_) (fun s hs => hs.1) (fun _ _ h => h)
      fun _ _ h => h
    exact fun h => hq (Option.some.inj h)

theorem elseArm_pins : Pins p i elseArm := by
  refine Spec.get_bind fun s hs => ?_
  split
  · exact Spec.throw fun _ _ => trivial
  rename_i c rest hctrl
  refine Spec.guard (fun _ _ _ => trivial) fun _ => ?_
  have hc : Spares p c := hs.ctrl c (by rw [hctrl]; exact .head _)
  have hrest : ∀ d ∈ rest, Spares p d := fun d hd => hs.ctrl d (by rw [hctrl]; exact .tail _ hd)
  -- the frame of the `if` now remembers the jump behind its first arm
  have hpin : Pinned p i { s with
      code := s.code ++ [⟨.br, 0, 0⟩]
      ctrl := { c with elseBr := some s.code.length, hasElse := true } :: rest } := by
    refine ⟨(hs.append _).code, fun d hd => ?_⟩
    rcases List.mem_cons.mp hd with rfl | hd
    · exact ⟨hc.patches, fun h => hs.lt.ne' (Option.some.inj h), hc.brIfNot⟩
    · exact hrest d hd
  rintro t rfl
  refine ⟨fun _ s' h => ?_, fun _ _ _ => trivial⟩
  cases hb : c.brIfNot with
  | none =>
    rw [hb] at h hpin
    cases h
    exact ⟨hpin.code, hpin.ctrl⟩
  | some q =>
    have hq : q ≠ p := fun h => hc.brIfNot (hb.trans (congrArg some h))
    rw [hb] at h hpin
    cases h
    exact ⟨(hpin.patch hq _).code, hpin.ctrl⟩

theorem patches_pins (ps : List Nat) (hp : p ∉ ps) (t : Nat) :
    Pins p i (ps.forM fun q => patch q t) := by
  induction ps with
  | nil => exact Pins.pure _
  | cons q ps ih =>
    refine (patch_pins (fun h => hp ?_) t).bind fun _ => ih fun h => hp (.tail _ h)
    rw [h]
    exact .head _

theorem endPatches_pins {c : Ctrl} (hc : Spares p c) (joinPc : Nat) :
    Pins p i (endPatches c joinPc) := by
  have hrest : Pins p i (c.patches.forM fun q => patch q joinPc) :=
    patches_pins c.patches hc.patches joinPc
  unfold endPatches
  dsimp only
  refine Pins.ite (Pins.ite ?_ ?_) hrest
  · cases hb : c.elseBr with
    | none => exact hrest
    | some q =>
      exact (patch_pins (fun h => hc.elseBr (hb.trans (congrArg some h))) _).bind fun _ => hrest
  · cases hb : c.brIfNot with
    | none => exact hrest
    | some q =>
      exact (patch_pins (fun h => hc.brIfNot (hb.trans (congrArg some h))) _).bind fun _ => hrest

theorem endArm_pins (env : LowerEnv) : Pins p i (endArm env) := by
  refine Spec.get_bind fun s hs => ?_
  split
  · exact Spec.throw fun _ _ => trivial
  rename_i c rest hctrl
  have hc : Spares p c := hs.ctrl c (by rw [hctrl]; exact .head _)
  have hpop : Pinned p i { s with ctrl := rest } :=
    ⟨hs.code, fun d hd => hs.ctrl d (by rw [hctrl]; exact .tail _ hd)⟩
  refine Spec.bind (Q := fun _ => Pinned p i) (Spec.modify fun t ht => ht ▸ hpop) fun _ => ?_
  have hdone (joinPc : Nat) : Pins p i (do
      endPatches c joinPc
      modify fun s => { s with h := c.base + c.nResults, dead := c.deadOnEntry }) :=
    (endPatches_pins hc joinPc).bind fun _ => Spec.modify fun _ ht => ⟨ht.code, ht.ctrl⟩
  dsimp only
  exact Pins.ite ((emit_keeps _ _ _).bind hdone) (Pins.get.bind fun t => hdone _)

theorem memArm_pins (mem : Nat) (op : Opcode) (a pops pushes : Nat) :
    Pins p i (memArm mem op a pops pushes) := by
  unfold memArm
  exact Pins.guard (plain_pins _ _ _ _ _)

theorem callArm_pins (env : LowerEnv) (functionIndex : Nat) :
    Pins p i (callArm env functionIndex) := by
  refine (Pins.ofExcept _).bind fun a => Pins.ite ?_ (plain_pins _ _ _ _ _)
  split
  · exact Pins.throw _
  · exact plain_pins _ _ _ _ _

theorem callIndirectArm_pins (env : LowerEnv) (typeIndex tableIndex : Nat) :
    Pins p i (callIndirectArm env typeIndex tableIndex) := by
  unfold callIndirectArm
  refine Pins.guard ?_
  split
  · exact Pins.throw _
  · exact plain_pins _ _ _ _ _

theorem brTableArm_pins (env : LowerEnv) (targets : List Nat) (default : Nat) :
    Pins p i (brTableArm env targets default) := by
  unfold brTableArm
  split
  · exact Pins.throw _
  · exact (plain_pins _ _ _ _ _).bind fun _ => (brTableArms_pins env _ 0 targets).bind fun _ =>
      (branch_pins env default).bind fun _ => markDead_pins

theorem operator_pins (env : LowerEnv) (o : Operator) : Pins p i (operator env o) := by
  cases o with
  | nop => exact Pins.pure ()
  | unreachable => exact (emit_keeps _ _ _).bind fun _ => markDead_pins
  | const c => exact (intern_pins _).bind fun _ => plain_pins _ _ _ _ _
  | block ty => exact (Pins.ofExcept _).bind fun a => pushCtrl_pins .block a.1 a.2 none nofun
  | loop ty => exact (Pins.ofExcept _).bind fun a => pushCtrl_pins .loop a.1 a.2 none nofun
  | if_ ty => exact ifArm_pins env ty
  | else_ => exact elseArm_pins
  | end_ => exact endArm_pins env
  | br depth => exact (branch_pins env depth).bind fun _ => markDead_pins
  | brIf depth => exact (consume_pins 1 0).bind fun _ => skip_pins env depth (Pins.pure ())
  | brTable targets default => exact brTableArm_pins env targets default
  | return_ => exact (emit_keeps _ _ _).bind fun _ => markDead_pins
  | call fi => exact callArm_pins env fi
  | returnCall fi =>
    unfold operator
    exact Pins.guard ((emit_keeps _ _ _).bind fun _ => markDead_pins)
  | callIndirect ti tab => exact callIndirectArm_pins env ti tab
  | load o ma => exact (Pins.ofExcept _).bind fun _ => plain_pins _ _ _ _ _
  | store o ma => exact (Pins.ofExcept _).bind fun _ => plain_pins _ _ _ _ _
  | localTee k => exact (emit_keeps _ _ _).bind fun _ => (emit_keeps _ _ _).bind fun _ => Pins.pure ()
  | memorySize mem => exact memArm_pins mem _ _ _ _
  | memoryGrow mem => exact memArm_pins mem _ _ _ _
  | memoryCopy dst src =>
    unfold operator
    exact Pins.guard (plain_pins _ _ _ _ _)
  | memoryFill mem => exact memArm_pins mem _ _ _ _
  | memoryInit di mem => exact memArm_pins mem _ _ _ _
  | dataDrop di => exact (emit_keeps _ _ _).bind fun _ => Pins.pure ()
  | reinterpret r => exact consume_pins 1 1
  | refFunc k => exact Pins.throw _
  | refNull => exact Pins.throw _
  | other t => exact Pins.throw _
  | drop | select | typedSelect t | num o | globalGet k | globalSet k | localGet k | localSet k =>
    exact plain_pins _ _ _ _ _

/-- The rest of a pass keeps a pinned instruction. -/
theorem operators_pins (env : LowerEnv) (os : List Operator) : Pins p i (operators env os) := by
  induction os with
  | nil => exact Pins.pure ()
  | cons o os ih => exact (operator_pins env o).bind fun _ => ih

end

end Lower

end CuWasm
