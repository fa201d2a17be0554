import CuWasm.Handles
import CuWasm.Proofs.DispatchProofs
import CuWasm.Proofs.HostObjectProofs

/-!
# Relative handles round-trip below the top of the index range

The table of objects only grows, so what a handle means does not change. A handle is twice the index
in 32 bits: from the index `2 ^ 31` on the shift drops the top bit, and the handle is that of the entry
`2 ^ 31` places earlier.
-/

namespace CuWasm.Dispatch

open Exit

variable {H : Type} {S : Soroban H}

/-! ## The table only grows -/

/-- The computation leaves every entry of the table where it is. -/
def Grows {α : Type} (x : Method H α) : Prop :=
  ∀ ctx, ctx.relativeObjects <+: (final (x ctx)).relativeObjects

section Grows

variable {α β : Type}

theorem Grows.bind {x : Method H α} {f : α → Method H β} (hx : Grows x) (hf : ∀ a, Grows (f a)) :
    Grows (x >>= f) := by
  intro ctx
  have h := hx ctx
  rw [bind_apply]
  cases hr : x ctx with
  | ok a ctx' =>
    rw [hr] at h
    exact h.trans (hf a ctx')
  | error e ctx' =>
    rw [hr] at h
    exact h

theorem Grows.pure (a : α) : Grows (pure a : Method H α) := fun _ => List.prefix_rfl

theorem Grows.get : Grows (get : Method H (DispatchCtx H)) := fun _ => List.prefix_rfl

theorem Grows.throw (e : String) : Grows (throw e : Method H α) := fun _ => List.prefix_rfl

theorem Grows.modify {f : DispatchCtx H → DispatchCtx H}
    (h : ∀ ctx, ctx.relativeObjects <+: (f ctx).relativeObjects) :
    Grows (modify f : Method H PUnit) := h

theorem Grows.ite {c : Prop} [Decidable c] {x y : Method H α} (hx : Grows x) (hy : Grows y) :
    Grows (if c then x else y) := by
  by_cases hc : c
  · rw [if_pos hc]
    exact hx
  · rw [if_neg hc]
    exact hy

theorem grows_ofExcept (x : Except String α) : Grows (ofExcept x : Method H α) := by
  cases x
  · exact Grows.throw _
  · exact Grows.pure _

theorem grows_ask (name : String) (f : H → Except String (α × H)) : Grows (ask name f) := by
  refine Grows.bind .get fun ctx => ?_
  cases f ctx.host
  · exact Grows.throw _
  · exact Grows.bind (.modify fun _ => List.prefix_rfl) fun _ => .pure _

theorem grows_tell (name : String) (f : H → Except String H) : Grows (tell name f) :=
  grows_ask name _

theorem grows_decode (raw : Slot) : Grows (decode S raw) :=
  Grows.bind .get fun _ => grows_ofExcept _

theorem grows_expectTag (tag : Byte) (text : String) (x : Slot) :
    Grows (expectTag tag text x : Method H Slot) :=
  Grows.ite (.pure _) (.throw _)

theorem grows_toRelative (x : Slot) : Grows (toRelative S x) := by
  refine Grows.ite ?_ (.pure _)
  refine Grows.bind .get fun ctx => Grows.bind (.modify fun _ => List.prefix_append _ _) fun _ => ?_
  exact Grows.bind (grows_ofExcept _) fun _ => .pure _

theorem grows_writeValsFrom (pos : Nat) (xs : List Slot) (i : Nat) :
    Grows (writeValsFrom S pos i xs) := by
  induction xs generalizing i with
  | nil => exact Grows.pure _
  | cons x xs ih =>
    refine Grows.bind (grows_toRelative x) fun r => ?_
    exact Grows.bind (.modify fun _ => List.prefix_rfl) fun _ => ih (i + 1)

theorem grows_writeVals (pos : Nat) (xs : List Slot) : Grows (writeVals S pos xs) := by
  refine Grows.bind .get fun ctx => Grows.ite ?_ (grows_writeValsFrom pos xs 0)
  exact Grows.bind (.throw _) fun _ => grows_writeValsFrom pos xs 0

theorem grows_finish (mb : HostMailbox) (res : Option Slot) : Grows (finish S mb res) := by
  cases res with
  | none => exact Grows.pure _
  | some x =>
    refine Grows.ite (c := isObjectVal S x = true) ?_ ?_
    · exact Grows.bind (grows_toRelative x) fun _ => .pure _
    · exact Grows.pure _

theorem grows_describeVal (raw : Slot) : Grows (describeVal S raw) := by
  refine Grows.modify fun ctx => ?_
  cases decodeVal S ctx raw <;> exact List.prefix_rfl

theorem grows_recordTrace (mb : HostMailbox) (name : String) : Grows (recordTrace S mb name) := by
  refine Grows.bind .get fun ctx => Grows.bind ?_ fun _ => .modify fun _ => List.prefix_rfl
  induction describedVals mb name with
  | nil => exact Grows.pure _
  | cons x xs ih => exact Grows.bind (grows_describeVal x) fun _ => ih

theorem grows_arm (mb : HostMailbox) (name : String) : Grows (arm S mb name) := by
  unfold arm
  split
  all_goals
    repeat' with_reducible first
      | refine Grows.bind ?_ fun _ => ?_
      | exact grows_ofExcept _
      | exact grows_ask _ _
      | exact grows_tell _ _
      | exact grows_decode _
      | exact grows_expectTag _ _ _
      | exact grows_writeVals _ _
      | exact grows_finish _ _
      | exact Grows.get
      | exact Grows.pure _
      | exact Grows.throw _

theorem grows_dispatch (mb : HostMailbox) : Grows (dispatch S mb) := by
  refine Grows.bind (.modify fun _ => List.prefix_rfl) fun _ => ?_
  refine Grows.bind (grows_arm mb _) fun a => ?_
  cases a with
  | result res =>
    exact Grows.bind (grows_finish mb res) fun mb' =>
      Grows.bind (grows_recordTrace mb' _) fun _ => .pure _
  | done mb' recorded =>
    cases recorded
    · exact Grows.pure _
    · exact Grows.bind (grows_recordTrace mb' _) fun _ => .pure _

end Grows

theorem CtxStep.grows {ctx ctx' : DispatchCtx H} (h : CtxStep S ctx ctx') :
    ctx.relativeObjects <+: ctx'.relativeObjects := by
  cases h with
  | relative x => exact grows_toRelative x ctx
  | dispatch mb => exact grows_dispatch mb ctx
  | guest mem memSize => exact List.prefix_rfl

/-- Over a whole run the table only grows. -/
theorem Later.grows {ctx later : DispatchCtx H} (h : Later S ctx later) :
    ctx.relativeObjects <+: later.relativeObjects := by
  induction h with
  | refl => exact List.prefix_rfl
  | tail _ hstep ih => exact ih.trans hstep.grows

/-! ## What a handle means -/

/-- The answer to a request for a handle. -/
theorem toRelative_apply (x : Slot) (ctx : DispatchCtx H) :
    toRelative S x ctx =
      if isObjectVal S x then
        if ctx.relativeObjects.length < 2 ^ 32 then
          .ok (sorobanMakeObj (ctx.relativeObjects.length * 2 % 2 ^ 32) (sorobanTag x))
            { ctx with relativeObjects := ctx.relativeObjects ++ [x] }
        else .error "relative object index overflow"
          { ctx with relativeObjects := ctx.relativeObjects ++ [x] }
      else .ok x ctx := by
  unfold toRelative
  rw [ite_run]
  by_cases hobj : isObjectVal S x = true
  · rw [if_pos hobj, if_pos hobj, bind_ok (get_apply ctx), bind_ok (modify_apply _ ctx)]
    unfold indexToRelativeHandle
    by_cases hlt : ctx.relativeObjects.length < 2 ^ 32
    · rw [if_pos hlt, if_pos hlt]
      rfl
    · rw [if_neg hlt, if_neg hlt]
      rfl
  · rw [if_neg hobj, if_neg hobj]
    rfl

theorem getElem?_of_begins {α : Type} {xs ys : List α} (h : xs <+: ys) {k : Nat} {y : α}
    (hk : xs[k]? = some y) : ys[k]? = some y := by
  obtain ⟨zs, rfl⟩ := h
  rw [List.getElem?_append_left (List.getElem?_eq_some_iff.mp hk).1]
  exact hk

/-- The index behind the handle for the index `n`. -/
def wrapped (n : Nat) : Nat := if n < 2 ^ 31 then n else n - 2 ^ 31

theorem handleToIndex_wrapped {n : Nat} (h : n < 2 ^ 32) :
    handleToIndex (n * 2 % 2 ^ 32) = wrapped n := by
  unfold handleToIndex wrapped
  split_ifs <;> omega

/-- What the handle for the index `n` and the tag of `x` means in a context that has an entry there. -/
theorem toAbsolute_handle {x y : Slot} {n : Nat} {ctx : DispatchCtx H} (hobj : isObjectVal S x = true)
    (hn : n < 2 ^ 32) (hy : ctx.relativeObjects[wrapped n]? = some y) :
    toAbsolute S ctx (sorobanMakeObj (n * 2 % 2 ^ 32) (sorobanTag x)) =
      if sorobanTag y ≠ sorobanTag x then .error "relative object tag mismatch" else .ok y := by
  have hobj' : isObjectVal S (sorobanMakeObj (n * 2 % 2 ^ 32) (sorobanTag x)) = true := by
    unfold isObjectVal at hobj ⊢
    rw [sorobanTag_makeObj]
    exact hobj
  have hrel : isRelativeHandle (n * 2 % 2 ^ 32) = true := by
    simp only [isRelativeHandle, beq_iff_eq]
    omega
  unfold toAbsolute
  simp only [hobj', if_true, sorobanHandle_makeObj (Nat.mod_lt _ (by decide)), hrel,
    handleToIndex_wrapped hn, hy, sorobanTag_makeObj]

/-- A handle means its value ever after just when the entry it wraps around to holds that value: always
below the index `2 ^ 31`. -/
theorem roundTrips_iff (ctx : DispatchCtx H) (x : Slot) :
    RoundTrips S ctx x ↔
      (isObjectVal S x = true → 2 ^ 31 ≤ ctx.relativeObjects.length →
        ctx.relativeObjects.length < 2 ^ 32 →
        ctx.relativeObjects[ctx.relativeObjects.length - 2 ^ 31]? = some x) := by
  have happly := toRelative_apply (S := S) x ctx
  by_cases hobj : isObjectVal S x = true
  swap
  · refine iff_of_true (.inr ⟨x, ctx, ?_, fun later _ => ?_⟩) fun h => absurd h hobj
    · rw [happly, if_neg hobj]
    · unfold toAbsolute
      rw [if_neg hobj]
  rw [if_pos hobj] at happly
  by_cases hlt : ctx.relativeObjects.length < 2 ^ 32
  swap
  · rw [if_neg hlt] at happly
    exact iff_of_true (.inl ⟨_, _, happly⟩) fun _ _ h => absurd h hlt
  rw [if_pos hlt] at happly
  -- the entry that the handle stands for, now and in every later context
  obtain ⟨y, hy⟩ : ∃ y, (ctx.relativeObjects ++ [x])[wrapped ctx.relativeObjects.length]? = some y := by
    refine ⟨_, List.getElem?_eq_getElem ?_⟩
    unfold wrapped
    rw [List.length_append, List.length_singleton]
    split_ifs <;> omega
  have hmeans : ∀ later, Later S { ctx with relativeObjects := ctx.relativeObjects ++ [x] } later →
      toAbsolute S later
          (sorobanMakeObj (ctx.relativeObjects.length * 2 % 2 ^ 32) (sorobanTag x)) =
        if sorobanTag y ≠ sorobanTag x then .error "relative object tag mismatch" else .ok y :=
    fun later hl => toAbsolute_handle hobj hlt (getElem?_of_begins hl.grows hy)
  have hiff : RoundTrips S ctx x ↔ y = x := by
    constructor
    · rintro (⟨e, ctx', he⟩ | ⟨r, ctx', hr, hr'⟩)
      · rw [happly] at he
        cases he
      · rw [happly] at hr
        cases hr
        have h := (hmeans _ .refl).symm.trans (hr' _ .refl)
        split_ifs at h
        exact Except.ok.inj h
    · intro hyx
      refine .inr ⟨_, _, happly, fun later hl => ?_⟩
      rw [hmeans later hl, hyx, if_neg (by simp)]
  rw [hiff]
  unfold wrapped at hy
  by_cases h31 : ctx.relativeObjects.length < 2 ^ 31
  · rw [if_pos h31, List.getElem?_concat_length] at hy
    exact iff_of_true (Option.some.inj hy).symm fun _ h => by omega
  · rw [if_neg h31, List.getElem?_append_left (by omega)] at hy
    rw [hy, Option.some.injEq]
    exact ⟨fun h _ _ _ => h, fun h => h hobj (by omega) hlt⟩

/-- The handle for the index `2 ^ 31` is that of the first entry. -/
theorem toRelative_wraps {ctx : DispatchCtx H} {x y : Slot}
    (hlen : ctx.relativeObjects.length = 2 ^ 31) (hy : ctx.relativeObjects[0]? = some y)
    (hobj : isObjectVal S x = true) (htag : sorobanTag y = sorobanTag x) :
    ∃ ctx', toRelative S x ctx = .ok (sorobanMakeObj 0 (sorobanTag x)) ctx' ∧
      toAbsolute S ctx' (sorobanMakeObj 0 (sorobanTag x)) = .ok y := by
  have hw : wrapped (2 ^ 31) = 0 := by
    unfold wrapped
    rw [if_neg (lt_irrefl _), Nat.sub_self]
  refine ⟨{ ctx with relativeObjects := ctx.relativeObjects ++ [x] }, ?_, ?_⟩
  · rw [toRelative_apply, if_pos hobj, if_pos (by omega), hlen]
    rfl
  · have hentry : ({ ctx with relativeObjects := ctx.relativeObjects ++ [x] } :
        DispatchCtx H).relativeObjects[wrapped (2 ^ 31)]? = some y := by
      rw [hw]
      exact getElem?_of_begins (List.prefix_append _ [x]) hy
    have hmeans := toAbsolute_handle (S := S) (n := 2 ^ 31) hobj (by omega) hentry
    rw [htag] at hmeans
    exact hmeans.trans (if_neg (by simp))

/-- Relative handles round-trip for ever, unless the handle wraps around to an entry with another value;
two values that round-trip never share a handle. -/
theorem relative_handles (S : Soroban H) (ctx : DispatchCtx H) (x : Slot) :
    (RoundTrips S ctx x ↔
      (isObjectVal S x = true → 2 ^ 31 ≤ ctx.relativeObjects.length →
        ctx.relativeObjects.length < 2 ^ 32 →
        ctx.relativeObjects[ctx.relativeObjects.length - 2 ^ 31]? = some x)) ∧
      ∀ y r ctx' later ctx'', toRelative S x ctx = .ok r ctx' → Later S ctx' later →
        toRelative S y later = .ok r ctx'' → RoundTrips S ctx x → RoundTrips S later y → x = y := by
  refine ⟨roundTrips_iff ctx x, fun y r ctx' later ctx'' hx hl hy h1 h2 => ?_⟩
  have hlast : Later S ctx' ctx'' := by
    have hstep := CtxStep.relative (S := S) later y
    rw [hy] at hstep
    exact hl.tail hstep
  have hmx : toAbsolute S ctx'' r = .ok x := by
    rcases h1 with ⟨e, c, he⟩ | ⟨r', c, hr, hmeans⟩
    · rw [hx] at he
      cases he
    · rw [hx] at hr
      cases hr
      exact hmeans ctx'' hlast
  have hmy : toAbsolute S ctx'' r = .ok y := by
    rcases h2 with ⟨e, c, he⟩ | ⟨r', c, hr, hmeans⟩
    · rw [hy] at he
      cases he
    · rw [hy] at hr
      cases hr
      exact hmeans ctx'' .refl
  exact Except.ok.inj (hmx.symm.trans hmy)

/-- The context of a guest that has asked for `n` handles of the address object with the host's
handle 1. -/
def askedFor (n : Nat) : DispatchCtx Unit where
  host := ()
  mem := fun _ => 0
  memSize := 0
  relativeObjects := List.replicate n (sorobanMakeObj 1 SOROBAN_TAG_ADDRESS_OBJECT)

theorem askedFor_later {k n : Nat} (hk : k ≤ n) (hn : n ≤ 2 ^ 32) :
    Later silentHost (askedFor k) (askedFor n) := by
  induction n, hk using Nat.le_induction with
  | base => exact .refl
  | succ n _ ih =>
    have hstep := CtxStep.relative (S := silentHost) (askedFor n)
      (sorobanMakeObj 1 SOROBAN_TAG_ADDRESS_OBJECT)
    have hlen : (askedFor n).relativeObjects.length = n := List.length_replicate
    have hobj : isObjectVal silentHost (sorobanMakeObj 1 SOROBAN_TAG_ADDRESS_OBJECT) = true := by decide
    rw [toRelative_apply, if_pos hobj, if_pos (by rw [hlen]; omega)] at hstep
    have hnext : askedFor (n + 1) = { askedFor n with relativeObjects :=
        (askedFor n).relativeObjects ++ [sorobanMakeObj 1 SOROBAN_TAG_ADDRESS_OBJECT] } := by
      unfold askedFor
      rw [List.replicate_succ']
    rw [hnext]
    exact (ih (by omega)).tail hstep

theorem askedFor_first (n : Nat) : (askedFor (n + 1)).relativeObjects[0]? =
    some (sorobanMakeObj 1 SOROBAN_TAG_ADDRESS_OBJECT) := by
  show (List.replicate (n + 1) _)[0]? = _
  rw [List.getElem?_replicate, if_pos (Nat.succ_pos n)]

/-- After `2 ^ 31` handles for one address, that address gets the handle 0 a second time. Both requests
round-trip, and it is one value that they ask for. -/
theorem shared_handle_same : ∃ x y r ctx' ctx'', toRelative silentHost x (askedFor 0) = .ok r ctx' ∧
    Later silentHost ctx' (askedFor (2 ^ 31)) ∧
    toRelative silentHost y (askedFor (2 ^ 31)) = .ok r ctx'' ∧ isObjectVal silentHost x = true ∧
    RoundTrips silentHost (askedFor 0) x ∧ RoundTrips silentHost (askedFor (2 ^ 31)) y ∧ x = y := by
  have hlen : (askedFor (2 ^ 31)).relativeObjects.length = 2 ^ 31 := List.length_replicate
  have hobj : isObjectVal silentHost (sorobanMakeObj 1 SOROBAN_TAG_ADDRESS_OBJECT) = true := by decide
  have hfirst := askedFor_first (2 ^ 31 - 1)
  rw [Nat.sub_add_cancel (by omega)] at hfirst
  have hx : toRelative silentHost (sorobanMakeObj 1 SOROBAN_TAG_ADDRESS_OBJECT) (askedFor 0) =
      .ok (sorobanMakeObj 0 SOROBAN_TAG_ADDRESS_OBJECT) (askedFor 1) := rfl
  obtain ⟨ctx'', hy, -⟩ := toRelative_wraps hlen hfirst hobj rfl
  have hl : Later silentHost (askedFor 1) (askedFor (2 ^ 31)) := askedFor_later (by omega) (by omega)
  have hrx : RoundTrips silentHost (askedFor 0) (sorobanMakeObj 1 SOROBAN_TAG_ADDRESS_OBJECT) :=
    (relative_handles silentHost (askedFor 0) _).1.mpr fun _ h => absurd h (by decide)
  have hry : RoundTrips silentHost (askedFor (2 ^ 31)) (sorobanMakeObj 1 SOROBAN_TAG_ADDRESS_OBJECT) := by
    refine (relative_handles silentHost (askedFor (2 ^ 31)) _).1.mpr fun _ _ _ => ?_
    rw [hlen, Nat.sub_self]
    exact hfirst
  exact ⟨_, _, _, _, _, hx, hl, hy, hobj, hrx, hry,
    (relative_handles silentHost (askedFor 0) _).2 _ _ _ _ _ hx hl hy hrx hry⟩

/-- After `2 ^ 31` handles for one address, another address gets the handle 0, which means the first. -/
theorem handle_wraps :
    Later silentHost (askedFor 0) (askedFor (2 ^ 31)) ∧
      ¬ RoundTrips silentHost (askedFor (2 ^ 31)) (sorobanMakeObj 3 SOROBAN_TAG_ADDRESS_OBJECT) ∧
      (∃ ctx', toRelative silentHost (sorobanMakeObj 3 SOROBAN_TAG_ADDRESS_OBJECT)
          (askedFor (2 ^ 31)) = .ok (sorobanMakeObj 0 SOROBAN_TAG_ADDRESS_OBJECT) ctx' ∧
        toAbsolute silentHost ctx' (sorobanMakeObj 0 SOROBAN_TAG_ADDRESS_OBJECT) =
          .ok (sorobanMakeObj 1 SOROBAN_TAG_ADDRESS_OBJECT)) := by
  have hlen : (askedFor (2 ^ 31)).relativeObjects.length = 2 ^ 31 := List.length_replicate
  have hobj : isObjectVal silentHost (sorobanMakeObj 3 SOROBAN_TAG_ADDRESS_OBJECT) = true := by decide
  have hfirst := askedFor_first (2 ^ 31 - 1)
  rw [Nat.sub_add_cancel (by omega)] at hfirst
  refine ⟨askedFor_later (Nat.zero_le _) (by omega), fun h => ?_, ?_⟩
  · have hget := (roundTrips_iff _ _).mp h hobj (by rw [hlen]) (by rw [hlen]; omega)
    rw [hlen, Nat.sub_self, hfirst] at hget
    exact absurd (Option.some.inj hget) (by decide)
  · exact toRelative_wraps hlen hfirst hobj (by decide)

end CuWasm.Dispatch
