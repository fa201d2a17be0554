import CuWasm.Proofs.CheckedLowerProofs

/-!
# Where the lowering overflows

`OperatorFits` reads off the heights before an operator whether its arithmetic fits. Operators with
several parts, such as `br_table`, push and pop on the way, so that the heights between their parts
have to be computed from the ones before. The run over a body follows by induction.
-/

namespace CuWasm.Checked

open Wasm Exit

namespace Lower

variable {X : List Nat} {env : LowerEnv}

/-! ## Operators with several parts -/

/-- The heights behind an operator that takes `pops` operands and pushes `pushes`. -/
def consumed (v : Heights) (pops pushes : Int) : Heights :=
  if v.dead then v else { v with h := v.h - pops + pushes }

theorem consume_ok (pops pushes : Int) {s : LState} {v : Heights} (hv : s.heights = v)
    (hp : v.dead = true ∨ pops ≤ v.h) (hf : v.ConsumeFits pops pushes) :
    ∃ t, consume .release pops pushes s = .ok () t ∧ t.heights = consumed v pops pushes := by
  subst hv
  rw [consume_apply]
  unfold consumed
  by_cases hd : s.dead = true
  · rw [if_pos hd, if_pos (show s.heights.dead = true from hd)]
    exact ⟨s, rfl, rfl⟩
  · have hge : ¬ s.h < pops := by
      rcases hp with hp | hp
      · exact absurd hp hd
      · exact Int.not_lt.mpr hp
    obtain ⟨h1, h2⟩ : FitsI32 (s.h - pops) ∧ FitsI32 (s.h - pops + pushes) := by
      rcases hf with hf | hf | hf
      · exact absurd hf hd
      · exact absurd hf hge
      · exact hf
    rw [← wrapI32_eq_iff] at h1 h2
    rw [if_neg hd, if_neg hge, if_neg (show ¬ s.heights.dead = true from hd)]
    simp only [arith, h1, h2]
    exact ⟨_, rfl, rfl⟩

theorem plain_ok (op : Opcode) (a b : Nat) (pops pushes : Int) {s : LState} {v : Heights}
    (hv : s.heights = v) (hp : v.dead = true ∨ pops ≤ v.h) (hf : v.ConsumeFits pops pushes) :
    ∃ t, plain .release op a b pops pushes s = .ok () t ∧
      t.heights = consumed v pops pushes := by
  unfold plain
  rw [bind_ok (emit_apply op a b s)]
  exact consume_ok pops pushes hv hp hf

theorem intern_ok (x : Slot) (s : LState) :
    ∃ i t, intern x s = .ok i t ∧ t.heights = s.heights := by
  unfold intern
  rw [bind_ok (get_apply s)]
  cases s.consts.findIdx? (· == x) with
  | some i => exact ⟨_, _, rfl, rfl⟩
  | none => exact ⟨_, _, rfl, rfl⟩

/-- The condition under which `testIndex` does not overflow. -/
def TestFits (v : Heights) : Prop := v.dead = true ∨ v.h + 2 < 2 ^ 31

/-- A height that is not negative. -/
def Level (v : Heights) : Prop := v.dead = true ∨ 0 ≤ v.h

theorem level_fits {v : Heights} {pops pushes : Int} (h0 : 0 ≤ pops ∧ pops ≤ v.h) (h1 : 0 ≤ pushes)
    (h2 : v.h < 2 ^ 31 ∧ v.h - pops + pushes < 2 ^ 31) : v.ConsumeFits pops pushes := by
  refine Or.inr (Or.inr ?_)
  unfold FitsI32
  omega

/-- The comparison leaves the heights as it finds them. -/
theorem testIndex_ok (scratch i : Nat) {s : LState} {v : Heights} (hv : s.heights = v)
    (hs : Level v) (hf : TestFits v) :
    ∃ t, testIndex .release scratch i s = .ok () t ∧ t.heights = v := by
  obtain ⟨idxc, t0, h0, ht0⟩ := intern_ok (BitVec.ofNat 64 (i % 2 ^ 32)) s
  obtain ⟨h, dead, labels⟩ := v
  unfold testIndex
  rw [bind_ok h0]
  cases dead with
  | true =>
    obtain ⟨t1, h1, ht1⟩ := plain_ok .localGet scratch 0 0 1 (ht0.trans hv) (.inl rfl) (.inl rfl)
    obtain ⟨t2, h2, ht2⟩ := plain_ok .i64Const 0 idxc 0 1 ht1 (.inl rfl) (.inl rfl)
    obtain ⟨t3, h3, ht3⟩ := plain_ok (.bin .i32Eq) 0 0 2 1 ht2 (.inl rfl) (.inl rfl)
    rw [bind_ok h1, bind_ok h2, bind_ok h3]
    exact consume_ok 1 0 ht3 (.inl rfl) (.inl rfl)
  | false =>
    have h0 : 0 ≤ h := by
      rcases hs with hs | hs
      · cases hs
      · exact hs
    have h2 : h + 2 < 2 ^ 31 := by
      rcases hf with hf | hf
      · cases hf
      · exact hf
    obtain ⟨t1, h1, ht1⟩ := plain_ok .localGet scratch 0 0 1 (ht0.trans hv) (.inr h0)
      (level_fits ⟨Int.le_refl 0, h0⟩ (by decide) (by dsimp only; omega))
    have ht1' : t1.heights = ⟨h + 1, false, labels⟩ := by
      rw [ht1]
      simp [consumed]
    obtain ⟨t2, h2, ht2⟩ := plain_ok .i64Const 0 idxc 0 1 ht1' (.inr (by dsimp only; omega))
      (level_fits (by dsimp only; omega) (by decide) (by dsimp only; omega))
    have ht2' : t2.heights = ⟨h + 2, false, labels⟩ := by
      rw [ht2]
      simp [consumed]
      omega
    obtain ⟨t3, h3, ht3⟩ := plain_ok (.bin .i32Eq) 0 0 2 1 ht2' (.inr (by dsimp only; omega))
      (level_fits (by dsimp only; omega) (by decide) (by dsimp only; omega))
    have ht3' : t3.heights = ⟨h + 1, false, labels⟩ := by
      rw [ht3]
      simp [consumed]
    obtain ⟨t4, h4, ht4⟩ := consume_ok 1 0 ht3' (.inr (by dsimp only; omega))
      (level_fits (by dsimp only; omega) (by decide) (by dsimp only; omega))
    rw [bind_ok h1, bind_ok h2, bind_ok h3]
    refine ⟨t4, h4, ?_⟩
    rw [ht4]
    simp [consumed]

theorem consume_level :
    Spec (Tracked X) (consume .release 1 0) (fun _ s => Level s.heights) fun _ _ => True := by
  intro s hs
  refine ⟨fun _ t h => ?_, fun _ _ _ => trivial⟩
  by_cases hd : s.dead = true
  · obtain ⟨t', h', ht'⟩ := consume_ok 1 0 (s := s) rfl (.inl hd) (.inl hd)
    cases h'.symm.trans h
    show Level t.heights
    rw [ht', consumed, if_pos (show s.heights.dead = true from hd)]
    exact .inl hd
  · by_cases hp : s.h < 1
    · rw [consume_apply, if_neg hd, if_pos hp] at h
      cases h
    · have hrange := hs.h.2
      obtain ⟨t', h', ht'⟩ := consume_ok 1 0 (s := s) rfl (.inr (Int.not_lt.mp hp))
        (level_fits (by simp only [LState.heights]; omega) (by decide)
          (by simp only [LState.heights]; omega))
      cases h'.symm.trans h
      show Level t.heights
      rw [ht', consumed, if_neg (show ¬ s.heights.dead = true from hd)]
      refine .inr ?_
      simp only [LState.heights]
      omega

theorem pushFits_iff {v : Heights} (hv : Level v) :
    v.ConsumeFits 0 1 ↔ v.dead = true ∨ v.h + 1 < 2 ^ 31 := by
  unfold Heights.ConsumeFits FitsI32
  rcases hv with hv | hv
  · simp [hv]
  · constructor
    · rintro (h | h | h)
      · exact .inl h
      · omega
      · exact .inr (by omega)
    · rintro (h | h)
      · exact .inl h
      · exact .inr (.inr (by omega))

/-- Two operands more, one after the other. -/
theorem testFits_iff {v : Heights} (hv : Level v) :
    v.ConsumeFits 0 1 ∧ (consumed v 0 1).ConsumeFits 0 1 ↔ TestFits v := by
  have hlevel : Level (consumed v 0 1) := by
    unfold consumed Level at *
    split
    · exact .inl ‹_›
    · rcases hv with hv | hv
      · exact .inl hv
      · refine .inr ?_
        dsimp only
        omega
  rw [pushFits_iff hv, pushFits_iff hlevel]
  obtain ⟨h, dead, labels⟩ := v
  cases dead with
  | true => simp [consumed, TestFits]
  | false =>
    simp only [consumed, TestFits, Bool.false_eq_true, if_false, false_or]
    constructor
    · rintro ⟨-, h2⟩
      omega
    · intro h2
      omega

theorem testIndex_differ (scratch i : Nat) :
    Guarded IsPanic (fun s => Tracked X s ∧ Level s.heights) (fun s => TestFits s.heights)
      (testIndex .dev scratch i) (testIndex .release scratch i)
      fun _ s => Tracked X s ∧ Level s.heights := by
  have hlast : Differ X (fun _ => True) (consume .dev 1 0) (consume .release 1 0)
      fun _ s => Tracked X s ∧ Level s.heights :=
    (consume_easy 1 0 (by decide) (by decide)).ensures consume_level
  have h := Guarded.refl_bind (intern_sure (BitVec.ofNat 64 (i % 2 ^ 32))).sound fun idxc =>
    (plain_differ .localGet scratch 0 0 1).bind fun _ =>
      (plain_differ .i64Const 0 idxc 0 1).bind fun _ =>
        (plain_easy (.bin .i32Eq) 0 0 2 1 (by decide) (by decide)).bind fun _ => hlast
  refine h.mono (fun _ hs => hs.1) (fun s hs => ?_) fun _ _ hs => hs
  obtain ⟨idxc, t0, hi, ht0⟩ := intern_ok (BitVec.ofNat 64 (i % 2 ^ 32)) s
  have hlevel : Level t0.heights := ht0 ▸ hs.2
  constructor
  · intro h
    obtain ⟨hf0, hnext⟩ := h idxc t0 hi
    obtain ⟨t1, h1, ht1⟩ := plain_ok .localGet scratch 0 0 1 rfl hlevel hf0
    rw [← ht0, ← testFits_iff hlevel, ← ht1]
    exact ⟨hf0, (hnext _ t1 h1).1⟩
  · intro hf a t ht
    cases hi.symm.trans ht
    rw [← ht0, ← testFits_iff hlevel] at hf
    refine ⟨hf.1, fun _ t1 h1 => ?_⟩
    obtain ⟨t1', h1', ht1⟩ := plain_ok .localGet scratch 0 0 1 rfl hlevel hf.1
    cases h1'.symm.trans h1
    rw [ht1]
    exact ⟨hf.2, fun _ _ _ => ⟨trivial, fun _ _ _ => trivial⟩⟩

theorem brArm_differ (henv : EnvOk env) (depth : Nat) :
    Differ X (fun s => s.heights.LabelFits depth) (brArm .dev env depth)
      (brArm .release env depth) fun _ => Tracked X :=
  (branch_differ henv depth).bind_refl fun _ => markDead_sure.sound

/-- The jumps of a `br_table`, the default one last. -/
theorem brTableJumps_differ (henv : EnvOk env) (scratch default : Nat) (targets : List Nat) :
    ∀ i, Guarded IsPanic (fun s => Tracked X s ∧ Level s.heights)
      (fun s => s.heights.TargetsFit default targets)
      (brTableArms .dev env scratch i targets >>= fun _ => brArm .dev env default)
      (brTableArms .release env scratch i targets >>= fun _ => brArm .release env default)
      fun _ => Tracked X := by
  induction targets with
  | nil =>
    intro i
    exact (brArm_differ henv default).mono (fun _ hs => hs.1) (fun _ _ => Iff.rfl) fun _ _ hs => hs
  | cons depth depths ih =>
    intro i
    have hkeep : Spec (fun s => Tracked X s ∧ Level s.heights) (skippedBranch .release env depth)
        (fun _ s => Level s.heights) fun _ _ => True := by
      intro s hs
      refine ⟨fun _ t h => ?_, fun _ _ _ => trivial⟩
      show Level t.heights
      rw [(skippedBranch_keeps .release env depth).ok h]
      exact hs.2
    have hskip : Guarded IsPanic (fun s => Tracked X s ∧ Level s.heights) _ _ _ _ :=
      ((skippedBranch_differ (X := X) henv depth).mono (fun _ hs => hs.1) (fun _ _ => Iff.rfl)
        fun _ _ hs => hs).ensures hkeep
    have h := (testIndex_differ (X := X) scratch i).bind fun _ => hskip.bind fun _ => ih (i + 1)
    simp only [brTableArms, bind_assoc]
    refine h.fits fun s hs => ?_
    refine and_congr_right fun hf => ?_
    obtain ⟨t, ht, htv⟩ := testIndex_ok scratch i rfl hs.2 hf
    have htracked : Tracked X t := (((testIndex_differ scratch i).spec s hs).1 _ t ht).1
    have hiff : s.heights.LabelFits depth →
        ((∃ u, skippedBranch .release env depth t = .ok () u) ↔ s.heights.Jumps depth) := by
      rw [← htv]
      exact skippedBranch_ok_iff henv htracked
    constructor
    · intro hnext
      obtain ⟨hl, hrest⟩ := hnext _ t ht
      rw [htv] at hl
      refine ⟨hl, fun hj => ?_⟩
      obtain ⟨u, hu⟩ := (hiff hl).mpr hj
      have hfit := hrest _ u hu
      rwa [(skippedBranch_keeps .release env depth).ok hu, htv] at hfit
    · rintro ⟨hl, hrest⟩ a t' ht'
      cases ht.symm.trans ht'
      refine ⟨?_, fun _ u hu => ?_⟩
      · rwa [← htv] at hl
      · rw [(skippedBranch_keeps .release env depth).ok hu, htv]
        exact hrest ((hiff hl).mp ⟨u, hu⟩)

/-- One operand less. -/
theorem pop_ok {s : LState} : (∃ t, consume .release 1 0 s = .ok () t) ↔ s.heights.Pops := by
  rw [consume_apply]
  by_cases hd : s.dead = true
  · simp [hd, Heights.Pops, LState.heights]
  · by_cases hp : s.h < 1
    · simp [hd, hp, Heights.Pops, LState.heights]
    · simp [hd, hp, arith, Heights.Pops, LState.heights]
      omega

/-- The heights behind an operator that takes one operand. -/
theorem pop_heights {s t : LState} (hs : FitsI32 s.h) (h : consume .release 1 0 s = .ok () t) :
    t.heights = s.heights.pop := by
  have hp := pop_ok.mp ⟨t, h⟩
  unfold FitsI32 at hs
  have hf : s.heights.ConsumeFits 1 0 := by
    rcases hp with hp | hp
    · exact .inl hp
    · exact level_fits ⟨by decide, hp⟩ (by decide) (by simp only [LState.heights]; omega)
  obtain ⟨t', h', ht'⟩ := consume_ok 1 0 rfl hp hf
  cases h'.symm.trans h
  rw [ht', consumed, Heights.pop]
  simp

theorem brIfArm_differ (henv : EnvOk env) (depth : Nat) :
    Differ X (fun s => s.heights.Pops → s.heights.LabelFits depth) (brIfArm .dev env depth)
      (brIfArm .release env depth) fun _ => Tracked X := by
  refine ((consume_easy 1 0 (by decide) (by decide)).bind fun _ =>
    skippedBranch_differ henv depth).fits fun s hs => ?_
  have hlabels : s.heights.pop.LabelFits depth ↔ s.heights.LabelFits depth := by
    unfold Heights.pop
    split
    · rfl
    · rfl
  constructor
  · rintro ⟨-, h⟩ hp
    obtain ⟨t, ht⟩ := pop_ok.mpr hp
    have hl := h _ t ht
    rwa [pop_heights hs.h ht, hlabels] at hl
  · intro h
    refine ⟨trivial, fun _ t ht => ?_⟩
    rw [pop_heights hs.h ht, hlabels]
    exact h (pop_ok.mp ⟨t, ht⟩)

theorem brTableArm_differ (henv : EnvOk env) (targets : List Nat) (default : Nat) :
    Differ X
      (fun s => env.scratch ≠ none → s.heights.Pops → s.heights.pop.TargetsFit default targets)
      (brTableArm .dev env targets default) (brTableArm .release env targets default)
      fun _ => Tracked X := by
  unfold brTableArm
  cases hscratch : env.scratch with
  | none => exact (Guarded.refl (throw_sound _ _ _)).fits fun s _ => by simp
  | some scratch =>
    have hset : Differ X (fun _ => True) (plain .dev .localSet scratch 0 1 0)
        (plain .release .localSet scratch 0 1 0) fun _ s => Tracked X s ∧ Level s.heights :=
      (plain_easy .localSet scratch 0 1 0 (by decide) (by decide)).ensures
        (((emit_sure .localSet scratch 0).mono (fun _ hs => hs) (fun _ _ hs => hs)
          fun _ _ _ => trivial).bind fun _ => consume_level)
    refine (hset.bind fun _ => brTableJumps_differ henv scratch default targets 0).fits
      fun s hs => ?_
    have hs' := hs.emit ⟨.localSet, scratch, 0⟩
    have hpop : (∃ t, plain .release .localSet scratch 0 1 0 s = .ok () t) ↔ s.heights.Pops :=
      pop_ok (s := { s with code := s.code ++ [⟨.localSet, scratch, 0⟩] })
    constructor
    · rintro ⟨-, h⟩ - hp
      obtain ⟨t, ht⟩ := hpop.mpr hp
      have hl := h _ t ht
      rwa [pop_heights hs'.h ht] at hl
    · intro h
      refine ⟨trivial, fun _ t ht => ?_⟩
      rw [pop_heights hs'.h ht]
      exact h (by simp) (hpop.mp ⟨t, ht⟩)

/-! ## Blocks -/

theorem pushCtrl_apply (p : Profile) (kind : CtrlKind) (np nr : Nat) (pc : Option Nat) {s : LState}
    (hs : FitsI32 s.h) :
    pushCtrl p kind np nr pc s =
      if ¬ s.dead = true ∧ s.h < np then .error (.err "block params underflow") s
      else .ok () { s with ctrl :=
        { kind := kind, start := s.code.length % 2 ^ 32, brIfNot := pc
          base := if s.dead = true then 0 else s.h - np, nParams := np, nResults := nr
          deadOnEntry := s.dead } :: s.ctrl } := by
  unfold pushCtrl
  rw [bind_ok (get_apply s)]
  by_cases hu : ¬ s.dead = true ∧ s.h < np
  · rw [if_pos hu, if_pos hu]
    rfl
  · rw [if_neg hu, if_neg hu]
    dsimp only
    rw [bind_ok (here_apply s)]
    by_cases hd : s.dead = true
    · simp only [hd, if_true]
      rfl
    · have hnp : np ≤ s.h := by
        by_contra hlt
        exact hu ⟨hd, Int.not_le.mp hlt⟩
      have hbase : wrapI32 (s.h - np) = s.h - np := by
        rw [wrapI32_eq_iff]
        unfold FitsI32 at *
        omega
      simp only [hd]
      cases p with
      | release => simp [arith, hbase, ofPanic]
      | dev => simp [arith, hbase, ofPanic]

theorem pushCtrl_differ (kind : CtrlKind) {np nr : Nat} (hnp : np < 2 ^ 16) (hnr : nr < 2 ^ 16)
    {pc : Option Nat} (hpc : ∀ q ∈ pc, q ∈ X) :
    Differ X (fun _ => True) (pushCtrl .dev kind np nr pc) (pushCtrl .release kind np nr pc)
      fun _ => Tracked X where
  spec := by
    intro s hs
    have hrange := hs.h
    unfold FitsI32 at hrange
    rw [pushCtrl_apply _ _ _ _ _ hs.h]
    by_cases hu : ¬ s.dead = true ∧ s.h < np
    · rw [if_pos hu]
      refine ⟨fun _ t h => (by cases h), fun e t h => ?_⟩
      cases h
      exact err_not_panic _
    · rw [if_neg hu]
      refine ⟨fun _ t h => ?_, fun e t h => by cases h⟩
      cases h
      refine ⟨hs.h, fun c hc => ?_, hs.pos⟩
      rcases List.mem_cons.mp hc with rfl | hc
      · constructor
        · dsimp only
          split
          · decide
          · rename_i hd
            have : ¬ s.h < np := fun hlt => hu ⟨hd, hlt⟩
            omega
        · exact hnp
        · exact hnr
        · exact fun q hq => hs.pos q (hpc q hq)
        · exact fun q hq => nomatch hq
        · exact fun q hq => nomatch hq
      · exact hs.ctrl c hc
  same := by
    intro s hs _
    rw [pushCtrl_apply _ _ _ _ _ hs.h, pushCtrl_apply _ _ _ _ _ hs.h]
  bad := fun _ _ h => absurd trivial h

theorem blockArity_lt {ty : BlockType} {fts : List FuncType} {np nr : Nat}
    (h : blockArity ty fts = .ok (np, nr)) : np < 2 ^ 16 ∧ nr < 2 ^ 16 := by
  unfold blockArity at h
  cases ty with
  | empty =>
    cases h
    decide
  | type t =>
    dsimp only at h
    split at h
    · cases h
    · cases h
      decide
  | funcType idx =>
    dsimp only at h
    cases hft : fts[idx]? with
    | none =>
      rw [hft] at h
      cases h
    | some ft =>
      rw [hft] at h
      cases h
      exact ⟨Nat.mod_lt _ (by decide), Nat.mod_lt _ (by decide)⟩

/-- A result that may be an error, without arithmetic. -/
theorem ofExcept_differ {α β : Type} (x : Except String α) {f g : α → Lower β}
    {F : α → LState → Prop} {Q : β → LState → Prop}
    (h : ∀ a, x = .ok a → Differ X (F a) (f a) (g a) Q) :
    Differ X (fun s => ∀ a, x = .ok a → F a s) (ofExcept x >>= f) (ofExcept x >>= g) Q := by
  cases x with
  | ok a =>
    show Differ X _ (pure a >>= f) (pure a >>= g) Q
    rw [pure_bind, pure_bind]
    exact (h a rfl).fits fun s _ => by simp
  | error e =>
    refine (Guarded.refl ((throw_sound (α := α) e _ fun _ _ => False).bind fun a => ?_)).fits
      fun s _ => by simp
    exact fun s hs => hs.elim

/-- A test that leaves the operator with an error. -/
theorem guard_differ {α : Type} {c : Prop} [Decidable c] {e : String} {f g : PUnit → Lower α}
    {P F : LState → Prop} {Q : α → LState → Prop}
    (h : ¬ c → Guarded IsPanic P F (f ⟨⟩) (g ⟨⟩) Q) :
    Guarded IsPanic P (fun s => ¬ c → F s) (if c then throw (.err e) >>= f else f ⟨⟩)
      (if c then throw (.err e) >>= g else g ⟨⟩) Q := by
  by_cases hc : c
  · rw [if_pos hc, if_pos hc]
    refine (Guarded.refl ((throw_sound (α := PUnit) e _ fun _ _ => False).bind fun a => ?_)).fits
      fun s _ => by simp [hc]
    exact fun s hs => hs.elim
  · rw [if_neg hc, if_neg hc]
    exact (h hc).fits fun s _ => by simp [hc]

theorem blockArm_differ (kind : CtrlKind) (ty : BlockType) :
    Differ X (fun _ => True) (blockArm .dev env kind ty) (blockArm .release env kind ty)
      fun _ => Tracked X := by
  refine (ofExcept_differ (F := fun _ _ => True) (blockArity ty env.funcTypes) fun a ha => ?_).fits
    fun s _ => by simp
  obtain ⟨hnp, hnr⟩ := blockArity_lt ha
  exact pushCtrl_differ kind hnp hnr fun q hq => nomatch hq

theorem ifArm_differ (ty : BlockType) :
    Differ X (fun _ => True) (ifArm .dev env ty) (ifArm .release env ty) fun _ => Tracked X := by
  refine (ofExcept_differ (F := fun _ _ => True) (blockArity ty env.funcTypes) fun a ha => ?_).fits
    fun s _ => by simp
  obtain ⟨hnp, hnr⟩ := blockArity_lt ha
  refine ((consume_easy 1 0 (by decide) (by decide)).bind fun _ =>
    Guarded.sure_bind (emit_sure .brIfNot 0 0) fun pc => Differ.tail <|
      pushCtrl_differ .if_ hnp hnr fun q hq => ?_).fits fun s _ => by simp
  cases hq
  exact .head _

theorem patchSome_sure {pc : Option Nat} (hpc : ∀ q ∈ pc, q ∈ X) (b : Nat) :
    Sure X (patchSome pc b) fun _ => Tracked X := by
  cases pc with
  | none => exact Spec.pure fun _ hs => hs
  | some q => exact patch_sure (hpc q rfl) b

/-- A height that is computed behind a block. -/
theorem setHeight_differ {x : Int} (hx : 0 ≤ x) (dead : Bool) :
    Differ X (fun _ => x < 2 ^ 31)
      (ofPanic (arith .dev wrapI32 x) >>= fun h => modify fun s => { s with h := h, dead := dead })
      (ofPanic (arith .release wrapI32 x) >>= fun h =>
        modify fun s => { s with h := h, dead := dead })
      fun _ => Tracked X := by
  refine ((arith_differ (Tracked X) wrapI32 x).bind_refl fun h => Spec.modify fun s hs => ?_).fits
    fun s _ => ?_
  · rw [hs.1]
    exact hs.2.track (wrapI32_fits x) dead
  · rw [wrapI32_eq_iff]
    unfold FitsI32
    omega

theorem elseArm_differ :
    Differ X (fun s => ∀ c ∈ s.ctrl.head?, c.kind = .if_ → c.base + c.nParams < 2 ^ 31)
      (elseArm .dev) (elseArm .release) fun _ => Tracked X := by
  refine Guarded.get_bind fun s hs => ?_
  cases hctrl : s.ctrl with
  | nil =>
    refine (Guarded.refl (throw_sound _ _ _)).fits fun t ht => ?_
    subst ht
    simp [hctrl]
  | cons c rest =>
    have hc := hs.ctrl c (hctrl ▸ .head _)
    dsimp only
    refine Guarded.fits (guard_differ (F := fun _ => c.base + c.nParams < 2 ^ 31) fun _ => ?_)
      fun t ht => by subst ht; simp [hctrl]
    have hs' : Tracked (c.brIfNot.toList ++ X) s := by
      refine ⟨hs.h, hs.ctrl, fun q hq => ?_⟩
      rcases List.mem_append.mp hq with hq | hq
      · exact hc.brIfNot q (Option.mem_toList.mp hq)
      · exact hs.pos q hq
    have hjump : Spec (fun t => t = s) (emit .br 0 0) (fun br t =>
        Tracked (br :: (c.brIfNot.toList ++ X)) t ∧ t.ctrl = c :: rest) fun _ _ => False := by
      rintro t rfl
      rw [emit_apply]
      refine ⟨fun a t h => ?_, fun e t h => (by cases h)⟩
      cases h
      exact ⟨hs'.emit _, hctrl⟩
    refine (Guarded.sure_bind hjump fun br => Guarded.sure_bind (Spec.modify fun t ht => ?_) fun _ =>
      Guarded.sure_bind (here_sure (X := br :: (c.brIfNot.toList ++ X))) fun dest =>
        Guarded.sure_bind (patchSome_sure ?_ dest) fun _ =>
          (setHeight_differ ?_ false).mono (fun _ ht => ht) (fun _ _ => Iff.rfl) ?_).fits ?_
    · obtain ⟨ht, hct⟩ := ht
      refine ⟨ht.h, fun d hd => ?_, ht.pos⟩
      rcases List.mem_cons.mp hd with rfl | hd
      · have hc' := ht.ctrl c (hct ▸ .head _)
        refine { hc' with elseBr := fun q hq => ?_ }
        cases hq
        exact ht.pos _ (.head _)
      · exact ht.ctrl d (hct ▸ .tail _ hd)
    · exact fun q hq => .tail _ (List.mem_append_left _ (Option.mem_toList.mpr hq))
    · have := hc.base.1
      omega
    · exact fun _ t ht => ht.mono fun q hq => .tail _ (List.mem_append_right _ hq)
    · intro t ht
      subst ht
      simp

theorem patches_sure (b : Nat) (ps : List Nat) (hps : ∀ q ∈ ps, q ∈ X) :
    Sure X (ps.forM fun pc => patch pc b) fun _ => Tracked X := by
  induction ps with
  | nil => exact Spec.pure fun _ hs => hs
  | cons q ps ih =>
    refine (patch_sure (hps q (.head _)) b).bind fun _ => ?_
    exact ih fun r hr => hps r (.tail _ hr)

/-- The instructions that are patched at the end of the block `c`. -/
def placeholders (c : Ctrl) : List Nat := c.brIfNot.toList ++ (c.elseBr.toList ++ c.patches)

theorem mem_placeholders {c : Ctrl} {q : Nat} :
    q ∈ placeholders c ↔ q ∈ c.brIfNot ∨ q ∈ c.elseBr ∨ q ∈ c.patches := by
  simp only [placeholders, List.mem_append, Option.mem_toList, Option.mem_def]

theorem endPatches_sure {c : Ctrl} (hX : ∀ q ∈ placeholders c, q ∈ X) (joinPc : Nat) :
    Sure X (endPatches c joinPc) fun _ => Tracked X := by
  have hrest := patches_sure joinPc c.patches
    fun q hq => hX q (mem_placeholders.mpr (.inr (.inr hq)))
  refine Spec.ite (fun _ => ?_) fun _ => hrest
  refine (patchSome_sure (fun q hq => ?_) joinPc).bind fun _ => hrest
  split at hq
  · exact hX q (mem_placeholders.mpr (.inr (.inl hq)))
  · exact hX q (mem_placeholders.mpr (.inl hq))

theorem endArm_differ :
    Differ X (fun s => ∀ c ∈ s.ctrl.head?, c.base + c.nResults < 2 ^ 31)
      (endArm .dev env) (endArm .release env) fun _ => Tracked X := by
  refine Guarded.get_bind fun s hs => ?_
  cases hctrl : s.ctrl with
  | nil =>
    refine (Guarded.refl (throw_sound _ _ _)).fits fun t ht => ?_
    subst ht
    simp [hctrl]
  | cons c rest =>
    have hc := hs.ctrl c (hctrl ▸ .head _)
    have hleave : Tracked (placeholders c ++ X) { s with ctrl := rest } := by
      refine ⟨hs.h, fun d hd => hs.ctrl d (hctrl ▸ .tail _ hd), fun q hq => ?_⟩
      rcases List.mem_append.mp hq with hq | hq
      · rcases mem_placeholders.mp hq with hq | hq | hq
        · exact hc.brIfNot q hq
        · exact hc.elseBr q hq
        · exact hc.patches q hq
      · exact hs.pos q hq
    have hclose {Y : List Nat} (hY : ∀ q ∈ placeholders c ++ X, q ∈ Y) (joinPc : Nat) :
        Differ Y (fun _ => c.base + c.nResults < 2 ^ 31)
          (endPatches c joinPc >>= fun _ =>
            ofPanic (arith .dev wrapI32 (c.base + c.nResults)) >>= fun h =>
              modify fun s => { s with h := h, dead := c.deadOnEntry })
          (endPatches c joinPc >>= fun _ =>
            ofPanic (arith .release wrapI32 (c.base + c.nResults)) >>= fun h =>
              modify fun s => { s with h := h, dead := c.deadOnEntry })
          fun _ => Tracked X := by
      refine Guarded.sure_bind (endPatches_sure ?_ joinPc) fun _ =>
        (setHeight_differ ?_ c.deadOnEntry).mono (fun _ ht => ht) (fun _ _ => Iff.rfl) ?_
      · exact fun q hq => hY q (List.mem_append_left _ hq)
      · have := hc.base.1
        omega
      · exact fun _ t ht => ht.mono fun q hq => hY q (List.mem_append_right _ hq)
    dsimp only
    refine (Guarded.sure_bind (φ := c.base + c.nResults < 2 ^ 31)
      (Spec.modify (Q := fun _ => Tracked (placeholders c ++ X)) fun t ht => ?_)
      fun _ => ?_).fits ?_
    · subst ht
      exact hleave
    · by_cases hk : c.kind = .func
      · rw [if_pos hk, if_pos hk]
        exact Guarded.sure_bind (emit_sure _ _ _) fun pc => hclose (fun q hq => .tail pc hq) pc
      · rw [if_neg hk, if_neg hk]
        exact Guarded.sure_bind here_sure (hclose fun q hq => hq)
    · intro t ht
      subst ht
      simp [hctrl]

/-! ## The operators -/

theorem callArm_differ (henv : EnvOk env) (fi : Nat) :
    Differ X (fun s => ∀ np nr, funcArity fi env.funcTypes env.funcTypeidx = .ok (np, nr) →
        s.heights.ConsumeFits np nr) (callArm .dev env fi) (callArm .release env fi)
      fun _ => Tracked X := by
  refine (ofExcept_differ (F := fun a s => s.heights.ConsumeFits a.1 a.2)
    (funcArity fi env.funcTypes env.funcTypeidx) fun a ha => ?_).fits fun s _ => Prod.forall
  dsimp only
  by_cases hfi : fi < env.nImports
  · rw [if_pos hfi, if_pos hfi]
    rw [henv.imports] at hfi
    rw [List.getElem?_eq_getElem hfi]
    exact plain_differ _ _ _ _ _
  · rw [if_neg hfi, if_neg hfi]
    exact plain_differ _ _ _ _ _

theorem callIndirectArm_differ (ti tab : Nat) :
    Differ X (fun s => tab = 0 → ∀ ft ∈ env.funcTypes[ti]?,
        1 + wrapI32 ft.1.length < 2 ^ 31 ∧
          s.heights.ConsumeFits (1 + wrapI32 ft.1.length) (wrapI32 ft.2.length))
      (callIndirectArm .dev env ti tab) (callIndirectArm .release env ti tab)
      fun _ => Tracked X := by
  unfold callIndirectArm
  refine Guarded.fits (guard_differ (F := fun s => ∀ ft ∈ env.funcTypes[ti]?,
    1 + wrapI32 ft.1.length < 2 ^ 31 ∧
      s.heights.ConsumeFits (1 + wrapI32 ft.1.length) (wrapI32 ft.2.length)) fun _ => ?_)
    fun s _ => by rw [not_not]
  cases env.funcTypes[ti]? with
  | none => exact (Guarded.refl (throw_sound _ _ _)).fits fun s _ => by simp
  | some ft =>
    have hft := wrapI32_fits ft.1.length
    have hwrap : wrapI32 (1 + wrapI32 ft.1.length) = 1 + wrapI32 ft.1.length ↔
        1 + wrapI32 ft.1.length < 2 ^ 31 := by
      rw [wrapI32_eq_iff]
      unfold FitsI32 at *
      omega
    refine Guarded.fits (Guarded.refl_bind (emit_sure .callIndirect 0 ti).sound fun pc =>
      (arith_differ (Tracked (pc :: X)) wrapI32 (1 + wrapI32 ft.1.length)).bind fun pops =>
        (consume_differ pops (wrapI32 ft.2.length)).mono (fun _ hs => hs.2) (fun _ _ => Iff.rfl)
          fun _ _ hs => hs.tail) fun s hs => ?_
    constructor
    · intro h ft' hft'
      cases hft'
      obtain ⟨h1, h2⟩ := h _ _ (emit_apply .callIndirect 0 ti s)
      have h3 := h2 _ _ rfl
      rw [h1] at h3
      exact ⟨hwrap.mp h1, h3⟩
    · intro h pc t ht
      cases ht
      obtain ⟨h1, h2⟩ := h ft rfl
      refine ⟨hwrap.mpr h1, fun pops u hu => ?_⟩
      obtain ⟨rfl, rfl⟩ : wrapI32 (1 + wrapI32 ft.1.length) = pops ∧ _ = u := by
        injection hu with hp hu
        exact ⟨hp, hu⟩
      rw [hwrap.mpr h1]
      exact h2

theorem memArm_differ (mem : Nat) (op : Opcode) (a : Nat) (pops pushes : Int) :
    Differ X (fun s => mem = 0 → s.heights.ConsumeFits pops pushes)
      (memArm .dev mem op a pops pushes) (memArm .release mem op a pops pushes)
      fun _ => Tracked X := by
  unfold memArm
  exact Guarded.fits (guard_differ fun _ => plain_differ op a 0 pops pushes)
    fun s _ => by rw [not_not]

theorem memArm_easy (mem : Nat) (op : Opcode) (a : Nat) (pops pushes : Int) (h0 : 0 ≤ pushes)
    (h : pushes ≤ pops) :
    Differ X (fun _ => True) (memArm .dev mem op a pops pushes)
      (memArm .release mem op a pops pushes) fun _ => Tracked X := by
  unfold memArm
  exact Guarded.fits (guard_differ fun _ => plain_easy op a 0 pops pushes h0 h)
    fun s _ => by simp

theorem memoryCopyArm_differ (dst src : Nat) :
    Differ X (fun _ => True) (memoryCopyArm .dev dst src) (memoryCopyArm .release dst src)
      fun _ => Tracked X := by
  unfold memoryCopyArm
  exact Guarded.fits (guard_differ fun _ => plain_easy .memoryCopy 0 0 3 0 (by decide) (by decide))
    fun s _ => by simp

theorem accessArm_differ (ma : MemArg) (op : Opcode) (a : Nat) (pops pushes : Int)
    (h0 : 0 ≤ pushes) (h : pushes ≤ pops) :
    Differ X (fun _ => True) (accessArm .dev ma op a pops pushes)
      (accessArm .release ma op a pops pushes) fun _ => Tracked X :=
  Guarded.fits (ofExcept_differ (F := fun _ _ => True) (checkMemarg ma) fun off _ =>
    plain_easy op a off pops pushes h0 h) fun s _ => by simp

theorem constArm_differ (c : ConstOp) :
    Differ X (fun s => s.heights.ConsumeFits 0 1) (constArm .dev c) (constArm .release c)
      fun _ => Tracked X := by
  refine (Guarded.refl_bind (intern_sure (ConstOp.slot c)).sound fun idx =>
    plain_differ .i64Const 0 idx 0 1).fits fun s _ => ?_
  obtain ⟨i, t, ht, hv⟩ := intern_ok (ConstOp.slot c) s
  rw [← hv]
  constructor
  · intro h
    exact h i t ht
  · intro h a u hu
    cases ht.symm.trans hu
    exact h

theorem emitDead_sound (op : Opcode) (a b : Nat) : Sound X (emitDead op a b) fun _ => Tracked X :=
  Sure.sound ((emit_sure op a b).bind fun _ =>
    markDead_sure.mono (fun _ hs => hs.tail) (fun _ _ hs => hs) fun _ _ he => he)

theorem localTeeArm_sound (i : Nat) : Sound X (localTeeArm i) fun _ => Tracked X :=
  Sure.sound ((emit_sure _ _ _).bind fun _ => (emit_sure _ _ _).bind fun _ =>
    Spec.pure fun _ hs => hs.tail.tail)

theorem returnCallArm_differ (fi : Nat) :
    Differ X (fun _ => True) (returnCallArm env fi) (returnCallArm env fi) fun _ => Tracked X := by
  unfold returnCallArm
  exact Guarded.fits (guard_differ fun _ => Guarded.refl (emitDead_sound .returnCall 0 fi))
    fun s _ => by simp

theorem numOp_easy (o : NumOp) :
    (NumOp.lower o).2.2.2 ≤ (NumOp.lower o).2.2.1 := by
  cases o <;> decide

theorem operator_differ (henv : EnvOk env) (o : Operator) :
    Differ X (fun s => OperatorFits env s o) (operator .dev env o) (operator .release env o)
      fun _ => Tracked X := by
  cases o with
  | nop => exact Guarded.refl (Spec.pure fun _ hs => hs)
  | unreachable => exact Guarded.refl (emitDead_sound _ _ _)
  | const c => exact constArm_differ c
  | drop => exact plain_easy _ _ _ _ _ (by decide) (by decide)
  | select => exact plain_easy _ _ _ _ _ (by decide) (by decide)
  | typedSelect _ => exact plain_easy _ _ _ _ _ (by decide) (by decide)
  | num o =>
    have h := numOp_easy o
    exact plain_easy _ _ _ (NumOp.lower o).2.2.1 (NumOp.lower o).2.2.2 (Int.natCast_nonneg _)
      (Int.ofNat_le.mpr h)
  | globalGet i => exact plain_differ _ _ _ _ _
  | globalSet i => exact plain_easy _ _ _ _ _ (by decide) (by decide)
  | localGet i => exact plain_differ _ _ _ _ _
  | localSet i => exact plain_easy _ _ _ _ _ (by decide) (by decide)
  | localTee i => exact Guarded.refl (localTeeArm_sound i)
  | block ty => exact blockArm_differ .block ty
  | loop ty => exact blockArm_differ .loop ty
  | if_ ty => exact ifArm_differ ty
  | else_ => exact elseArm_differ
  | end_ => exact endArm_differ
  | br depth => exact brArm_differ henv depth
  | brIf depth => exact brIfArm_differ henv depth
  | brTable targets default => exact brTableArm_differ henv targets default
  | return_ => exact Guarded.refl (emitDead_sound _ _ _)
  | call fi => exact callArm_differ henv fi
  | returnCall fi => exact returnCallArm_differ fi
  | callIndirect ti tab => exact callIndirectArm_differ ti tab
  | load o ma => exact accessArm_differ ma _ _ _ _ (by decide) (by decide)
  | store o ma => exact accessArm_differ ma _ _ _ _ (by decide) (by decide)
  | memorySize mem => exact memArm_differ mem _ _ _ _
  | memoryGrow mem => exact memArm_easy mem _ _ _ _ (by decide) (by decide)
  | memoryCopy dst src => exact memoryCopyArm_differ dst src
  | memoryFill mem => exact memArm_easy mem _ _ _ _ (by decide) (by decide)
  | memoryInit di mem => exact memArm_easy mem _ _ _ _ (by decide) (by decide)
  | dataDrop di =>
    exact Guarded.refl (Sure.sound ((emit_sure _ _ _).bind fun _ => Spec.pure fun _ hs => hs.tail))
  | reinterpret _ => exact consume_easy 1 1 (by decide) (by decide)
  | _ => exact Guarded.refl (throw_sound _ _ _)

/-- The loop: the profiles agree on it as long as the arithmetic of every operator fits. -/
theorem operators_differ (henv : EnvOk env) (os : List Operator) :
    Differ X (OperatorsFit env os) (operators .dev env os) (operators .release env os)
      fun _ => Tracked X := by
  induction os with
  | nil => exact Guarded.refl (Spec.pure fun _ hs => hs)
  | cons o os ih =>
    refine Guarded.fits ((operator_differ henv o).bind fun _ => ih) fun s _ => ?_
    constructor
    · rintro ⟨ho, hos⟩
      exact ⟨ho, hos ()⟩
    · rintro ⟨ho, hos⟩
      exact ⟨ho, fun _ => hos⟩

end Lower

end CuWasm.Checked
