import CuWasm.Overflow
import CuWasm.Lib.Guarded
import CuWasm.Proofs.PassProofs

/-!
# The lowering in both profiles

`dev` and `release` lower an operator alike unless an operation overflows. Every rule about a part of
the lowering therefore says three things: what a run keeps (`Tracked`), that the profiles agree where
the arithmetic fits, and that `dev` panics where it does not. Placeholders are patched in bounds
because the invariant keeps them inside the code.
-/

namespace CuWasm.Checked

open Wasm Exit

/-! ## Machine arithmetic -/

theorem wrapI32_eq_iff (x : Int) : wrapI32 x = x ↔ FitsI32 x := by
  unfold wrapI32 FitsI32
  rw [Int.bmod_def]
  split <;> constructor <;> intro h <;> omega

theorem wrapI32_fits (x : Int) : FitsI32 (wrapI32 x) := by
  unfold wrapI32 FitsI32
  rw [Int.bmod_def]
  split <;> constructor <;> omega

theorem wrapU32_eq_iff (x : Int) : wrapU32 x = x ↔ 0 ≤ x ∧ x < 2 ^ 32 := by
  unfold wrapU32
  omega

theorem wrapU16_eq_iff (x : Int) : wrapU16 x = x ↔ 0 ≤ x ∧ x < 2 ^ 16 := by
  unfold wrapU16
  omega

theorem arith_dev (wrap : Int → Int) (x : Int) :
    arith .dev wrap x = if wrap x = x then arith .release wrap x else .error .overflow := by
  unfold arith
  by_cases h : wrap x = x
  · simp only [h, if_true]
  · simp only [h, if_false]

namespace Lower

theorem emit_apply (op : Opcode) (a b : Nat) (s : LState) :
    emit op a b s = .ok (s.code.length % 2 ^ 32) { s with code := s.code ++ [CuOp.mk op a b] } := rfl

theorem here_apply (s : LState) : here s = .ok (s.code.length % 2 ^ 32) s := rfl

theorem consume_apply (p : Profile) (pops pushes : Int) (s : LState) :
    consume p pops pushes s =
      if s.dead then .ok () s
      else if s.h < pops then .error (.err "operand stack underflow") s
      else match arith p wrapI32 (s.h - pops) with
        | .error e => .error (.panic e) s
        | .ok d => match arith p wrapI32 (d + pushes) with
          | .error e => .error (.panic e) s
          | .ok h => .ok () { s with h := h } := by
  unfold consume
  rw [bind_ok (get_apply s)]
  by_cases hd : s.dead = true
  · simp only [hd, if_true]
    rfl
  · by_cases hp : s.h < pops
    · simp only [hd, hp, if_true]
      rfl
    · simp only [hd, hp, if_false]
      cases arith p wrapI32 (s.h - pops) with
      | error e => simp [ofPanic, bind_apply]
      | ok d =>
        cases h : arith p wrapI32 (d + pushes) with
        | error e => simp [ofPanic, bind_apply, h]
        | ok x => simp [ofPanic, bind_apply, h]

end Lower

/-! ## The invariant of the pass -/

/-- An exit with a panic. -/
def IsPanic (e : Stop) : Prop := ∃ p, e = .panic p

theorem err_not_panic (e : String) : ¬ IsPanic (.err e) := by
  rintro ⟨p, h⟩
  cases h

/-- The open block `c` of code of length `n`: its height is an `i32` that is not negative, and its
placeholders are in the code. -/
structure FrameTracked (n : Nat) (c : Ctrl) : Prop where
  base : 0 ≤ c.base ∧ c.base < 2 ^ 31
  params : c.nParams < 2 ^ 16
  results : c.nResults < 2 ^ 16
  brIfNot : ∀ q ∈ c.brIfNot, q < n
  elseBr : ∀ q ∈ c.elseBr, q < n
  patches : ∀ q ∈ c.patches, q < n

/-- The state of a pass that has emitted the instructions at the positions `X`. -/
structure Tracked (X : List Nat) (s : LState) : Prop where
  h : FitsI32 s.h
  ctrl : ∀ c ∈ s.ctrl, FrameTracked s.code.length c
  pos : ∀ q ∈ X, q < s.code.length

section

variable {X : List Nat} {s : LState}

theorem FrameTracked.mono {n n' : Nat} {c : Ctrl} (h : FrameTracked n c) (hn : n ≤ n') :
    FrameTracked n' c where
  base := h.base
  params := h.params
  results := h.results
  brIfNot := fun q hq => Nat.lt_of_lt_of_le (h.brIfNot q hq) hn
  elseBr := fun q hq => Nat.lt_of_lt_of_le (h.elseBr q hq) hn
  patches := fun q hq => Nat.lt_of_lt_of_le (h.patches q hq) hn

theorem FrameTracked.labelArity_lt {n : Nat} {c : Ctrl} (h : FrameTracked n c) :
    labelArity c < 2 ^ 16 := by
  unfold labelArity
  split
  · exact h.params
  · exact h.results

theorem Tracked.mono {X' : List Nat} (h : Tracked X s) (hX : ∀ q ∈ X', q ∈ X) : Tracked X' s :=
  ⟨h.h, h.ctrl, fun q hq => h.pos q (hX q hq)⟩

theorem Tracked.tail {q : Nat} (h : Tracked (q :: X) s) : Tracked X s :=
  h.mono fun _ hq => .tail _ hq

theorem Tracked.emit (h : Tracked X s) (i : CuOp) :
    Tracked (s.code.length % 2 ^ 32 :: X) { s with code := s.code ++ [i] } where
  h := h.h
  ctrl := fun c hc => (h.ctrl c hc).mono (by simp)
  pos := by
    intro q hq
    simp only [List.length_append, List.length_singleton]
    rcases List.mem_cons.mp hq with rfl | hq
    · exact Nat.lt_succ_of_le (Nat.mod_le _ _)
    · exact Nat.lt_succ_of_lt (h.pos q hq)

theorem Tracked.patch (h : Tracked X s) (pc b : Nat) :
    Tracked X { s with code := patchB s.code pc b } where
  h := h.h
  ctrl := fun c hc => by
    simp only [CuWasm.Lower.patchB_length]
    exact h.ctrl c hc
  pos := fun q hq => by
    simp only [CuWasm.Lower.patchB_length]
    exact h.pos q hq

theorem Tracked.track (h : Tracked X s) {x : Int} (hx : FitsI32 x) (dead : Bool) :
    Tracked X { s with h := x, dead := dead } :=
  ⟨hx, h.ctrl, h.pos⟩

end

/-- `x` keeps the invariant, except for what `Q` says, and does not panic. -/
abbrev Sound {α : Type} (X : List Nat) (x : Lower α) (Q : α → LState → Prop) : Prop :=
  Spec (Tracked X) x Q fun e _ => ¬ IsPanic e

/-- `x` succeeds and keeps the invariant, except for what `Q` says. -/
abbrev Sure {α : Type} (X : List Nat) (x : Lower α) (Q : α → LState → Prop) : Prop :=
  Spec (Tracked X) x Q fun _ _ => False

theorem Sure.sound {α : Type} {X : List Nat} {x : Lower α} {Q : α → LState → Prop}
    (h : Sure X x Q) : Sound X x Q :=
  Spec.mono h (fun _ hs => hs) (fun _ _ hq => hq) fun _ _ he => he.elim

namespace Lower

variable {X : List Nat}

theorem throw_sound {α : Type} (e : String) (P : LState → Prop) (Q : α → LState → Prop) :
    Spec P (throw (.err e) : Lower α) Q fun e _ => ¬ IsPanic e :=
  Spec.throw fun _ _ => err_not_panic e

theorem here_sure : Sure X here fun _ => Tracked X :=
  Spec.get_bind fun _ hs => Spec.pure fun _ ht => ht ▸ hs

theorem emit_sure (op : Opcode) (a b : Nat) :
    Sure X (emit op a b) fun pc => Tracked (pc :: X) := by
  intro s hs
  rw [emit_apply]
  refine ⟨fun pc t h => ?_, fun e t h => by cases h⟩
  cases h
  exact hs.emit _

theorem intern_sure (x : Slot) : Sure X (intern x) fun _ => Tracked X := by
  refine Spec.get_bind fun s hs => ?_
  cases s.consts.findIdx? (· == x) with
  | some i => exact Spec.pure fun t ht => ht ▸ hs
  | none =>
    refine Spec.bind (Q := fun _ => Tracked X) ?_ fun _ => Spec.pure fun t ht => ht
    exact Spec.modify fun t _ => ⟨hs.h, hs.ctrl, hs.pos⟩

theorem patch_sure {pc : Nat} (hpc : pc ∈ X) (b : Nat) :
    Sure X (patch pc b) fun _ => Tracked X := by
  refine Spec.get_bind fun s hs => ?_
  rw [if_pos (hs.pos pc hpc)]
  exact Spec.modify fun t _ => hs.patch pc b

theorem markDead_sure : Sure X markDead fun _ => Tracked X :=
  Spec.modify fun _ hs => hs.track hs.h true

/-! ## Arithmetic of the pass -/

/-- The profiles differ where the arithmetic overflows. -/
abbrev Differ {α : Type} (X : List Nat) (F : LState → Prop) (x y : Lower α)
    (Q : α → LState → Prop) : Prop :=
  Guarded IsPanic (Tracked X) F x y Q

theorem Differ.tail {α : Type} {pc : Nat} {F : LState → Prop} {x y : Lower α}
    (h : Differ (pc :: X) F x y fun _ => Tracked (pc :: X)) :
    Differ (pc :: X) F x y fun _ => Tracked X :=
  h.mono (fun _ hs => hs) (fun _ _ => Iff.rfl) fun _ _ hs => hs.tail

theorem arith_differ (P : LState → Prop) (wrap : Int → Int) (x : Int) :
    Guarded IsPanic P (fun _ => wrap x = x) (ofPanic (arith .dev wrap x))
      (ofPanic (arith .release wrap x)) fun a s => a = wrap x ∧ P s where
  spec := Spec.pure fun s hs => ⟨rfl, hs⟩
  same := by
    intro s _ h
    rw [arith_dev, if_pos h]
  bad := by
    intro s _ h
    rw [arith_dev, if_neg h]
    exact ⟨_, s, rfl, _, rfl⟩

theorem consume_differ (pops pushes : Int) :
    Differ X (fun s => s.heights.ConsumeFits pops pushes) (consume .dev pops pushes)
      (consume .release pops pushes) fun _ => Tracked X := by
  constructor
  · intro s hs
    rw [consume_apply]
    by_cases hd : s.dead = true
    · rw [if_pos hd]
      refine ⟨fun _ t h => ?_, fun e t h => by cases h⟩
      cases h
      exact hs
    · rw [if_neg hd]
      by_cases hp : s.h < pops
      · rw [if_pos hp]
        refine ⟨fun _ t h => (by cases h), fun e t h => ?_⟩
        cases h
        exact err_not_panic _
      · rw [if_neg hp]
        refine ⟨fun _ t h => ?_, fun e t h => by cases h⟩
        cases h
        exact hs.track (wrapI32_fits _) s.dead
  · rintro s - h
    rw [consume_apply, consume_apply]
    rcases h with hd | hp | ⟨h1, h2⟩
    · have hd' : s.dead = true := hd
      rw [if_pos hd', if_pos hd']
    · have hp' : s.h < pops := hp
      rw [if_pos hp', if_pos hp']
    · have h1' : wrapI32 (s.h - pops) = s.h - pops := (wrapI32_eq_iff _).mpr h1
      have h2' : wrapI32 (s.h - pops + pushes) = s.h - pops + pushes := (wrapI32_eq_iff _).mpr h2
      simp only [arith, h1', h2', if_true]
  · rintro s - h
    simp only [Heights.ConsumeFits, not_or, LState.heights] at h
    obtain ⟨hd, hp, hf⟩ := h
    rw [consume_apply, if_neg hd, if_neg hp]
    by_cases h1 : wrapI32 (s.h - pops) = s.h - pops
    · have h2 : ¬ wrapI32 (s.h - pops + pushes) = s.h - pops + pushes := fun h2 =>
        hf ⟨(wrapI32_eq_iff _).mp h1, (wrapI32_eq_iff _).mp h2⟩
      simp only [arith, h1, h2, if_true, if_false]
      exact ⟨_, s, rfl, _, rfl⟩
    · simp only [arith, h1, if_false]
      exact ⟨_, s, rfl, _, rfl⟩

/-- The operators that push at most what they pop. -/
theorem consume_easy (pops pushes : Int) (h0 : 0 ≤ pushes) (h : pushes ≤ pops) :
    Differ X (fun _ => True) (consume .dev pops pushes) (consume .release pops pushes)
      fun _ => Tracked X := by
  refine (consume_differ pops pushes).fits fun s hs => ?_
  have hh := hs.h
  unfold FitsI32 at hh
  simp only [iff_true]
  by_cases hp : s.h < pops
  · exact Or.inr (Or.inl hp)
  · refine Or.inr (Or.inr ?_)
    simp only [LState.heights, FitsI32]
    constructor <;> constructor <;> omega

theorem plain_differ (op : Opcode) (a b : Nat) (pops pushes : Int) :
    Differ X (fun s => s.heights.ConsumeFits pops pushes) (plain .dev op a b pops pushes)
      (plain .release op a b pops pushes) fun _ => Tracked X := by
  refine (Guarded.refl_bind (emit_sure op a b).sound fun pc =>
    (consume_differ pops pushes).tail).fits fun s _ => ?_
  constructor
  · intro h
    have h' := h _ _ (emit_apply op a b s)
    exact h'
  · intro h a t ht
    cases ht
    exact h

theorem plain_easy (op : Opcode) (a b : Nat) (pops pushes : Int) (h0 : 0 ≤ pushes)
    (h : pushes ≤ pops) :
    Differ X (fun _ => True) (plain .dev op a b pops pushes) (plain .release op a b pops pushes)
      fun _ => Tracked X :=
  (Guarded.refl_bind (emit_sure op a b).sound fun pc => (consume_easy pops pushes h0 h).tail).fits
    fun s _ => by simp

/-! ## Jumps -/

theorem emitUnwind_apply (p : Profile) (env : LowerEnv) (c : Ctrl) (s : LState) :
    emitUnwind p env c s =
      match arith p wrapI32 (labelHeight c) with
      | .error e => .error (.panic e) s
      | .ok d =>
        if s.h < d then .error (.err "branch stack underflow") s
        else if s.h > d then
          match arith p wrapU32 (env.nParams + env.nLocals) with
          | .error e => .error (.panic e) s
          | .ok r => match arith p wrapU32 (r + wrapU32 d) with
            | .error e => .error (.panic e) s
            | .ok r =>
              .ok () { s with code := s.code ++ [CuOp.mk .unwind (labelArity c) r.toNat] }
        else .ok () s := by
  unfold emitUnwind
  rw [bind_ok (get_apply s)]
  show (ofPanic (arith p wrapI32 (labelHeight c)) >>= _) s = _
  cases arith p wrapI32 (labelHeight c) with
  | error e => simp [ofPanic, bind_apply]
  | ok d =>
    rw [bind_ok (show ofPanic (.ok d) s = .ok d s from rfl)]
    by_cases hlt : s.h < d
    · simp [hlt, bind_apply]
    · by_cases hgt : s.h > d
      · simp only [hlt, hgt, if_true, if_false]
        cases arith p wrapU32 (env.nParams + env.nLocals) with
        | error e => simp [ofPanic, bind_apply]
        | ok r =>
          rw [bind_ok (show ofPanic (.ok r) s = .ok r s from rfl)]
          dsimp only
          cases arith p wrapU32 (r + wrapU32 d) with
          | error e => simp [ofPanic, bind_apply]
          | ok r => rfl
      · simp [hlt, hgt]

end Lower

/-- The arguments of the pass are in range. -/
structure EnvOk (env : LowerEnv) : Prop where
  nParams : env.nParams < 2 ^ 16
  nLocals : env.nLocals < 2 ^ 16
  nResults : env.nResults < 2 ^ 16
  imports : env.nImports = env.hostFnIds.length

namespace Lower

variable {env : LowerEnv}

/-- Where the height of the label fits, the profiles agree. -/
theorem emitUnwind_of_fits (henv : EnvOk env) {n : Nat} {c : Ctrl} (hc : FrameTracked n c)
    (h : labelHeight c < 2 ^ 31) (p : Profile) (s : LState) :
    emitUnwind p env c s =
      if s.h < labelHeight c then .error (.err "branch stack underflow") s
      else if s.h > labelHeight c then
        .ok () { s with code := s.code ++ [CuOp.mk .unwind (labelArity c)
          (env.nParams + env.nLocals + labelHeight c).toNat] }
      else .ok () s := by
  have hbase := hc.base
  have h1 : wrapI32 (labelHeight c) = labelHeight c := by
    rw [wrapI32_eq_iff]
    unfold FitsI32 labelHeight at *
    omega
  have h2 : wrapU32 (env.nParams + env.nLocals) = env.nParams + env.nLocals := by
    rw [wrapU32_eq_iff]
    have := henv.nParams
    have := henv.nLocals
    omega
  have h3 : wrapU32 (labelHeight c) = labelHeight c := by
    rw [wrapU32_eq_iff]
    unfold labelHeight at *
    omega
  have h4 : wrapU32 (env.nParams + env.nLocals + labelHeight c) =
      env.nParams + env.nLocals + labelHeight c := by
    rw [wrapU32_eq_iff]
    have := henv.nParams
    have := henv.nLocals
    unfold labelHeight at *
    omega
  rw [emitUnwind_apply]
  cases p <;> simp only [arith, h1, h2, h3, h4, if_true]

theorem emitUnwind_differ (henv : EnvOk env) {n : Nat} {c : Ctrl} (hc : FrameTracked n c) :
    Differ X (fun _ => labelHeight c < 2 ^ 31) (emitUnwind .dev env c) (emitUnwind .release env c)
      fun _ => Tracked X := by
  have hbase := hc.base
  have harity := hc.labelArity_lt
  have hfits : wrapI32 (labelHeight c) = labelHeight c ↔ labelHeight c < 2 ^ 31 := by
    rw [wrapI32_eq_iff]
    unfold FitsI32 labelHeight
    omega
  constructor
  · intro s hs
    rw [emitUnwind_apply]
    dsimp only [arith]
    by_cases hlt : s.h < wrapI32 (labelHeight c)
    · rw [if_pos hlt]
      refine ⟨fun _ t h => (by cases h), fun e t h => ?_⟩
      cases h
      exact err_not_panic _
    · rw [if_neg hlt]
      by_cases hgt : s.h > wrapI32 (labelHeight c)
      · rw [if_pos hgt]
        refine ⟨fun _ t h => ?_, fun e t h => by cases h⟩
        cases h
        exact (hs.emit _).tail
      · rw [if_neg hgt]
        refine ⟨fun _ t h => ?_, fun e t h => by cases h⟩
        cases h
        exact hs
  · intro s _ h
    rw [emitUnwind_of_fits henv hc h, emitUnwind_of_fits henv hc h]
  · intro s _ h
    have h1 : ¬ wrapI32 (labelHeight c) = labelHeight c := fun h1 => h (hfits.mp h1)
    rw [emitUnwind_apply]
    simp only [arith, h1, if_false]
    exact ⟨_, s, rfl, _, rfl⟩

theorem emitJump_sure (idx : Nat) (c : Ctrl) : Sure X (emitJump idx c) fun _ => Tracked X := by
  unfold emitJump
  refine Spec.ite (fun _ => ?_) fun _ => ?_
  · refine (emit_sure _ _ _).bind fun pc => Spec.pure fun s hs => ?_
    exact hs.tail
  · refine (emit_sure _ _ _).bind fun pc => Spec.modify fun s hs => ?_
    refine ⟨hs.h, fun c' hc' => ?_, fun q hq => hs.pos q (.tail _ hq)⟩
    obtain ⟨i, hi⟩ := List.getElem?_of_mem hc'
    simp only [List.getElem?_modify] at hi
    cases hs' : s.ctrl[i]? with
    | none => rw [hs'] at hi; cases hi
    | some d =>
      have hd := hs.ctrl d (List.mem_of_getElem? hs')
      rw [hs'] at hi
      by_cases hidx : idx = i
      · simp only [hidx, if_true, Option.map_eq_map, Option.map_some, Option.some.injEq] at hi
        subst hi
        refine { hd with patches := fun q hq => ?_ }
        rcases List.mem_append.mp hq with hq | hq
        · exact hd.patches q hq
        · exact List.mem_singleton.mp hq ▸ hs.pos pc (.head _)
      · simp only [hidx, if_false, Option.map_eq_map, Option.map_some, Option.some.injEq] at hi
        exact hi ▸ hd

theorem emitJump_ok (idx : Nat) (c : Ctrl) (s : LState) : ∃ t, emitJump idx c s = .ok () t := by
  unfold emitJump
  split
  · exact ⟨_, rfl⟩
  · exact ⟨_, rfl⟩

theorem resolveBr_apply (depth : Nat) (s : LState) :
    resolveBr depth s = match s.ctrl[depth]? with
      | none => .error (.err ("br depth " ++ toString depth ++ " out of range")) s
      | some c => .ok c s := by
  unfold resolveBr
  rw [bind_ok (get_apply s)]
  cases s.ctrl[depth]? with
  | none => rfl
  | some c => rfl

theorem resolveBr_eq_ok {depth : Nat} {s t : LState} {c : Ctrl} :
    resolveBr depth s = .ok c t ↔ s.ctrl[depth]? = some c ∧ t = s := by
  rw [resolveBr_apply]
  cases s.ctrl[depth]? with
  | none => exact ⟨fun h => (by cases h), fun h => (by cases h.1)⟩
  | some d =>
    constructor
    · intro h
      cases h
      exact ⟨rfl, rfl⟩
    · rintro ⟨h, rfl⟩
      cases h
      rfl

theorem resolveBr_sound (depth : Nat) :
    Sound X (resolveBr depth) fun c s => s.ctrl[depth]? = some c ∧ Tracked X s := by
  intro s hs
  refine ⟨fun c t h => ?_, fun e t h => ?_⟩
  · obtain ⟨hc, rfl⟩ := resolveBr_eq_ok.mp h
    exact ⟨hc, hs⟩
  · rw [resolveBr_apply] at h
    cases hc : s.ctrl[depth]? with
    | none =>
      rw [hc] at h
      cases h
      exact err_not_panic _
    | some c =>
      rw [hc] at h
      cases h

theorem labelFits_iff (s : LState) (depth : Nat) :
    s.heights.LabelFits depth ↔
      ∀ c t, resolveBr depth s = .ok c t → t.dead ≠ true → labelHeight c < 2 ^ 31 := by
  simp only [Heights.LabelFits, LState.heights, List.getElem?_map, resolveBr_eq_ok]
  constructor
  · rintro h c t ⟨hc, rfl⟩ hd
    rcases h with h | h
    · exact absurd h hd
    · exact h _ (by rw [hc]; rfl)
  · intro h
    by_cases hd : s.dead = true
    · exact Or.inl hd
    · refine Or.inr fun x hx => ?_
      cases hc : s.ctrl[depth]? with
      | none => rw [hc] at hx; cases hx
      | some c =>
        rw [hc] at hx
        cases hx
        exact h c s ⟨hc, rfl⟩ hd

theorem branch_differ (henv : EnvOk env) (depth : Nat) :
    Differ X (fun s => s.heights.LabelFits depth) (branch .dev env depth)
      (branch .release env depth) fun _ => Tracked X := by
  refine Guarded.fits ?_ fun s _ => (labelFits_iff s depth).symm
  refine Guarded.refl_bind (resolveBr_sound depth) fun c => ?_
  refine Guarded.get_bind fun s hs => ?_
  have hc := hs.2.ctrl c (List.mem_of_getElem? hs.1)
  by_cases hd : s.dead = true
  · simp only [hd, not_true, if_false]
    refine (Guarded.refl (emitJump_sure depth c).sound).mono ?_ ?_ fun _ _ h => h
    · rintro t rfl
      exact hs.2
    · rintro t rfl
      simp [hd]
  · rw [if_pos hd, if_pos hd]
    refine ((emitUnwind_differ henv hc).bind_refl fun _ => (emitJump_sure depth c).sound).mono ?_ ?_
      fun _ _ h => h
    · rintro t rfl
      exact hs.2
    · rintro t rfl
      simp [hd]

theorem map_modify_same {α β : Type} {g : α → β} {f : α → α} (h : ∀ a, g (f a) = g a)
    (xs : List α) (i : Nat) : (xs.modify i f).map g = xs.map g := by
  apply List.ext_getElem?
  intro j
  rw [List.getElem?_map, List.getElem?_map, List.getElem?_modify]
  cases xs[j]? with
  | none => rfl
  | some a =>
    by_cases hij : i = j
    · simp [hij, h]
    · simp [hij]

theorem emitJump_keeps (idx : Nat) (c : Ctrl) : Keeps LState.heights (emitJump idx c) := by
  unfold emitJump
  refine Keeps.ite ?_ ?_
  · exact Keeps.bind (fun s => rfl) fun _ => Keeps.pure _
  · refine Keeps.bind (fun s => rfl) fun pc => Keeps.modify fun s => ?_
    simp only [LState.heights, Heights.mk.injEq, true_and]
    apply map_modify_same
    intro c
    rfl

theorem emitUnwind_keeps (p : Profile) (env : LowerEnv) (c : Ctrl) :
    Keeps LState.heights (emitUnwind p env c) := by
  intro s
  rw [emitUnwind_apply]
  cases arith p wrapI32 (labelHeight c) with
  | error e => rfl
  | ok d =>
    dsimp only
    split
    · rfl
    · split
      · cases arith p wrapU32 (env.nParams + env.nLocals) with
        | error e => rfl
        | ok r =>
          dsimp only
          cases arith p wrapU32 (r + wrapU32 d) with
          | error e => rfl
          | ok r => rfl
      · rfl

theorem resolveBr_keeps (depth : Nat) : Keeps LState.heights (resolveBr depth) := by
  intro s
  rw [resolveBr_apply]
  cases s.ctrl[depth]? with
  | none => rfl
  | some c => rfl

theorem branch_keeps (p : Profile) (env : LowerEnv) (depth : Nat) :
    Keeps LState.heights (branch p env depth) := by
  refine (resolveBr_keeps depth).bind fun c => Keeps.get.bind fun s => ?_
  refine Keeps.ite ?_ (emitJump_keeps depth c)
  exact (emitUnwind_keeps p env c).bind fun _ => emitJump_keeps depth c

theorem patch_keeps (pc b : Nat) : Keeps LState.heights (patch pc b) := by
  intro s
  unfold patch
  rw [bind_ok (get_apply s)]
  by_cases h : pc < s.code.length
  · rw [if_pos h]
    rfl
  · rw [if_neg h]
    rfl

theorem skippedBranch_keeps (p : Profile) (env : LowerEnv) (depth : Nat) :
    Keeps LState.heights (skippedBranch p env depth) :=
  Keeps.bind (fun _ => rfl) fun skip => (branch_keeps p env depth).bind fun _ =>
    Keeps.bind (fun _ => rfl) fun dest => patch_keeps skip dest

theorem skippedBranch_differ (henv : EnvOk env) (depth : Nat) :
    Differ X (fun s => s.heights.LabelFits depth) (skippedBranch .dev env depth)
      (skippedBranch .release env depth) fun _ => Tracked X := by
  refine (Guarded.refl_bind (emit_sure .brIfNot 0 0).sound fun skip =>
    (branch_differ henv depth).bind_refl fun _ => ?_).fits fun s _ => ?_
  · refine Sure.sound (here_sure.bind fun dest => ?_)
    exact (patch_sure (.head _) dest).mono (fun _ hs => hs) (fun _ _ hs => hs.tail)
      fun _ _ he => he
  · constructor
    · intro h
      have h' := h _ _ (emit_apply .brIfNot 0 0 s)
      exact h'
    · intro h a t ht
      cases ht
      exact h

/-- Where the height of the label fits, the jump is lowered if there is a label and the operands
that it takes. -/
theorem branch_ok_iff (henv : EnvOk env) {s : LState} (hs : Tracked X s) {depth : Nat}
    (hf : s.heights.LabelFits depth) :
    (∃ t, branch .release env depth s = .ok () t) ↔ s.heights.Jumps depth := by
  unfold branch
  cases hc : s.ctrl[depth]? with
  | none =>
    rw [bind_apply, resolveBr_apply, hc]
    simp [Heights.Jumps, LState.heights, hc]
  | some c =>
    have hframe := hs.ctrl c (List.mem_of_getElem? hc)
    rw [bind_ok (resolveBr_eq_ok.mpr ⟨hc, rfl⟩), bind_ok (get_apply s)]
    simp only [Heights.Jumps, LState.heights, List.getElem?_map, hc, Option.map_some,
      Option.some.injEq, exists_eq_left']
    by_cases hd : s.dead = true
    · simp only [hd, not_true, if_false, true_or, iff_true]
      exact emitJump_ok depth c s
    · have hlabel : labelHeight c < 2 ^ 31 := by
        rcases hf with hf | hf
        · exact absurd hf hd
        · exact hf _ (by simp [LState.heights, hc])
      have hd' : s.dead = false := Bool.eq_false_iff.mpr hd
      have hu := emitUnwind_of_fits henv hframe hlabel .release s
      simp only [hd', Bool.false_eq_true, not_false_iff, if_true, false_or]
      by_cases hlt : s.h < labelHeight c
      · rw [if_pos hlt] at hu
        rw [bind_error hu]
        simp [hlt]
      · rw [if_neg hlt] at hu
        simp only [Int.not_lt.mp hlt, iff_true]
        by_cases hgt : s.h > labelHeight c
        · rw [if_pos hgt] at hu
          rw [bind_ok hu]
          exact emitJump_ok depth c _
        · rw [if_neg hgt] at hu
          rw [bind_ok hu]
          exact emitJump_ok depth c s

theorem patch_ok {pc : Nat} {s : LState} (h : pc < s.code.length) (b : Nat) :
    ∃ t, patch pc b s = .ok () t := by
  unfold patch
  rw [bind_ok (get_apply s), if_pos h]
  exact ⟨_, rfl⟩

theorem skippedBranch_ok_iff (henv : EnvOk env) {s : LState} (hs : Tracked X s) {depth : Nat}
    (hf : s.heights.LabelFits depth) :
    (∃ t, skippedBranch .release env depth s = .ok () t) ↔ s.heights.Jumps depth := by
  have hs' := hs.emit ⟨.brIfNot, 0, 0⟩
  have hiff := branch_ok_iff henv hs' hf
  unfold skippedBranch
  rw [bind_ok (emit_apply .brIfNot 0 0 s)]
  constructor
  · rintro ⟨t, ht⟩
    obtain ⟨_, u, hu, -⟩ := bind_eq_ok ht
    exact hiff.mp ⟨u, hu⟩
  · intro h
    obtain ⟨u, hu⟩ := hiff.mpr h
    have hut := ((branch_differ henv depth).spec _ hs').1 _ _ hu
    rw [bind_ok hu, bind_ok (here_apply u)]
    exact patch_ok (hut.pos _ (.head _)) _

end Lower

end CuWasm.Checked
