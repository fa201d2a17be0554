import CuWasm.Lib.BlockMove
import CuWasm.Proofs.HandleProofs

/-!
# Slices of Vals in guest memory

`write_vals` puts one payload behind the other; each object gets a relative handle of its own. What is
kept along the loop is that a written word means its `Val` in every later context (`WordMeans`).
-/

namespace CuWasm.Dispatch

open Exit

section Words

variable {H : Type} {S : Soroban H} {ctx ctx' : DispatchCtx H} {x : Slot} {pos a k : Nat}

/-- The eight bytes at `a` are those of a payload that means `x` in every context from `ctx` on. -/
def WordMeans (S : Soroban H) (ctx : DispatchCtx H) (a : Nat) (x : Slot) : Prop :=
  ∃ r : Slot, (∀ b, b < 8 → ctx.mem (a + b) = (r >>> (8 * b)).setWidth 8) ∧
    ∀ later, Later S ctx later → toAbsolute S later r = .ok x

/-- The word still means its `Val` in a later context, if its bytes are untouched. -/
theorem WordMeans.mono (h : WordMeans S ctx a x) (hl : Later S ctx ctx')
    (hmem : ∀ b, b < 8 → ctx'.mem (a + b) = ctx.mem (a + b)) : WordMeans S ctx' a x := by
  obtain ⟨r, hbytes, hmeans⟩ := h
  refine ⟨r, fun b hb => ?_, fun later hl' => hmeans later (hl.trans hl')⟩
  rw [hmem b hb, hbytes b hb]

theorem WordMeans.read (h : WordMeans S ctx (pos + k * 8) x) :
    toAbsolute S ctx (wordAt ctx pos k) = .ok x := by
  obtain ⟨r, hbytes, hmeans⟩ := h
  have hword : wordAt ctx pos k = r := memLoadLe_of_bytes hbytes
  rw [hword]
  exact hmeans ctx .refl

theorem memStoreLe_byte (mem : Nat → Byte) (a : Nat) (r : Slot) {b : Nat} (hb : b < 8) :
    memStoreLe mem a 8 r (a + b) = (r >>> (8 * b)).setWidth 8 := by
  rw [memStoreLe, BlockMove.fillAsc_apply, if_pos (by omega), Nat.add_sub_cancel_left]

theorem memStoreLe_of_not_mem (mem : Nat → Byte) (r : Slot) {c : Nat} (h : c < a ∨ a + 8 ≤ c) :
    memStoreLe mem a 8 r c = mem c := by
  rw [memStoreLe, BlockMove.fillAsc_apply, if_neg (by omega)]

end Words

section Slices

variable {H : Type} {S : Soroban H} {ctx : DispatchCtx H} {x : Slot} {xs : List Slot} {pos i : Nat}

/-- The context with another memory and handles for the objects among `xs`. -/
def DispatchCtx.wrote (S : Soroban H) (ctx : DispatchCtx H) (mem : Nat → Byte) (xs : List Slot) :
    DispatchCtx H :=
  { ctx with mem := mem, relativeObjects := ctx.relativeObjects ++ xs.filter (isObjectVal S) }

theorem wrote_nil : ctx.wrote S ctx.mem [] = ctx := by
  rw [DispatchCtx.wrote, List.filter_nil, List.append_nil]

theorem wrote_wrote (mem mem' : Nat → Byte) :
    (ctx.wrote S mem [x]).wrote S mem' xs = ctx.wrote S mem' (x :: xs) := by
  have hfilter : (x :: xs).filter (isObjectVal S) =
      [x].filter (isObjectVal S) ++ xs.filter (isObjectVal S) := by
    rw [← List.filter_append]
    rfl
  simp only [DispatchCtx.wrote, hfilter, List.append_assoc]

/-- A `Val` gets a payload that means it, as long as the table stays below `2 ^ 31` entries. -/
theorem toRelative_means (hlen : ctx.relativeObjects.length < 2 ^ 31) :
    ∃ r, toRelative S x ctx = .ok r (ctx.wrote S ctx.mem [x]) ∧
      ∀ later, Later S (ctx.wrote S ctx.mem [x]) later → toAbsolute S later r = .ok x := by
  obtain ⟨r, hr⟩ : ∃ r, toRelative S x ctx = .ok r (ctx.wrote S ctx.mem [x]) := by
    rw [toRelative_apply]
    by_cases hobj : isObjectVal S x = true
    · rw [if_pos hobj, if_pos (by omega), DispatchCtx.wrote, List.filter_cons_of_pos hobj]
      exact ⟨_, rfl⟩
    · rw [if_neg hobj, DispatchCtx.wrote, List.filter_cons_of_neg hobj, List.filter_nil,
        List.append_nil]
      exact ⟨_, rfl⟩
  have htrip := (roundTrips_iff (S := S) ctx x).mpr fun _ h => absurd h (by omega)
  refine ⟨r, hr, ?_⟩
  rcases htrip with ⟨e, c, he⟩ | ⟨r', c, hr', hmeans⟩
  · rw [hr] at he
    cases he
  · rw [hr] at hr'
    cases hr'
    exact hmeans

/-- The loop of `write_vals`: it succeeds, touches nothing outside the slice, hands out one handle for
each object, and leaves words that mean their `Val`s. -/
theorem writeValsFrom_means
    (hlen : ctx.relativeObjects.length + xs.countP (isObjectVal S) < 2 ^ 31) :
    ∃ mem, writeValsFrom S pos i xs ctx = .ok () (ctx.wrote S mem xs) ∧
      (∀ a, a < pos + i * 8 ∨ pos + (i + xs.length) * 8 ≤ a → mem a = ctx.mem a) ∧
      Later S ctx (ctx.wrote S mem xs) ∧
      ∀ k y, xs[k]? = some y → WordMeans S (ctx.wrote S mem xs) (pos + (i + k) * 8) y := by
  induction xs generalizing ctx i with
  | nil =>
    refine ⟨ctx.mem, ?_, fun _ _ => rfl, ?_, fun k y hk => by cases hk⟩
    · rw [wrote_nil]
      rfl
    · rw [wrote_nil]
      exact .refl
  | cons x xs ih =>
    have hcount : (x :: xs).countP (isObjectVal S) =
        [x].countP (isObjectVal S) + xs.countP (isObjectVal S) := by
      rw [← List.countP_append]
      rfl
    obtain ⟨r, hr, hmeans⟩ := toRelative_means (S := S) (x := x)
      (show ctx.relativeObjects.length < 2 ^ 31 by omega)
    have hstep : Later S ctx (ctx.wrote S ctx.mem [x]) := by
      have h := CtxStep.relative (S := S) ctx x
      rw [hr] at h
      exact .tail .refl h
    -- the word of the first `Val` is stored behind the handle
    have hstore : Later S (ctx.wrote S ctx.mem [x])
        (ctx.wrote S (memStoreLe ctx.mem (pos + i * 8) 8 r) [x]) := .tail .refl (.guest _ _ _)
    have hlen' : (ctx.wrote S (memStoreLe ctx.mem (pos + i * 8) 8 r) [x]).relativeObjects.length +
        xs.countP (isObjectVal S) < 2 ^ 31 := by
      show (ctx.relativeObjects ++ [x].filter (isObjectVal S)).length + _ < _
      rw [List.length_append, ← List.countP_eq_length_filter]
      omega
    obtain ⟨mem, hloop, hframe, hlater, hwords⟩ := ih (i := i + 1) hlen'
    rw [wrote_wrote] at hloop hlater hwords
    have hbelow : ∀ b, b < 8 → mem (pos + i * 8 + b) = (r >>> (8 * b)).setWidth 8 := by
      intro b hb
      rw [hframe _ (.inl (by omega))]
      exact memStoreLe_byte _ _ _ hb
    refine ⟨mem, ?_, fun a ha => ?_, (hstep.trans hstore).trans hlater, fun k y hk => ?_⟩
    · rw [writeValsFrom, bind_ok hr, bind_ok (modify_apply _ _)]
      exact hloop
    · rw [List.length_cons] at ha
      rw [hframe a (by omega)]
      exact memStoreLe_of_not_mem _ _ (by omega)
    · cases k with
      | zero =>
        cases hk
        exact ⟨r, hbelow, fun later hl => hmeans later ((hstore.trans hlater).trans hl)⟩
      | succ k =>
        rw [show i + (k + 1) = i + 1 + k by omega]
        exact hwords k y hk

/-- Results that come one by one come as a list. -/
theorem mapM_range_ok {α : Type} {f : Nat → Except String α} {ys : List α}
    (h : ∀ k y, ys[k]? = some y → f k = .ok y) : (List.range ys.length).mapM f = .ok ys := by
  induction ys generalizing f with
  | nil => rfl
  | cons y ys ih =>
    have hrest := ih (f := fun k => f (k + 1)) fun k z hk => h (k + 1) z hk
    rw [List.length_cons, List.range_succ_eq_map, List.mapM_cons, h 0 y rfl, List.mapM_map]
    show (do let ys' ← (List.range ys.length).mapM (fun k => f (k + 1)); pure (y :: ys')) = _
    rw [hrest]
    rfl

/-- A slice of `Val`s that fits the memory is written, and read back in every later context that has
left its bytes alone; one that does not fit is refused by both, and nothing has changed. -/
theorem val_slices_round_trip (S : Soroban H) (ctx : DispatchCtx H) (pos : Nat) (xs : List Slot) :
    (pos + xs.length * 8 ≤ ctx.memSize →
      ctx.relativeObjects.length + xs.countP (isObjectVal S) < 2 ^ 31 →
      ∃ mem, writeVals S pos xs ctx = .ok () (ctx.wrote S mem xs) ∧
        (∀ a, a < pos ∨ pos + xs.length * 8 ≤ a → mem a = ctx.mem a) ∧
        ∀ later, Later S (ctx.wrote S mem xs) later → ctx.memSize ≤ later.memSize →
          (∀ a, pos ≤ a → a < pos + xs.length * 8 → later.mem a = mem a) →
          readVals S later pos xs.length = .ok xs) ∧
    (ctx.memSize < pos + xs.length * 8 →
      writeVals S pos xs ctx = .error "guest val write oob" ctx ∧
        readVals S ctx pos xs.length = .error "guest val slice oob") := by
  constructor
  · intro hfit hlen
    have hwrite : ∃ mem, writeValsFrom S pos 0 xs ctx = .ok () (ctx.wrote S mem xs) ∧ _ :=
      writeValsFrom_means hlen
    obtain ⟨mem, hloop, hframe, -, hwords⟩ := hwrite
    refine ⟨mem, ?_, fun a ha => hframe a (by omega), fun later hl hsize hmem => ?_⟩
    · rw [writeVals, bind_ok (get_apply ctx), if_neg (by omega)]
      exact hloop
    · rw [readVals, if_neg (by omega)]
      refine mapM_range_ok fun k y hk => ?_
      have hk' : k < xs.length := (List.getElem?_eq_some_iff.mp hk).1
      have hword := hwords k y hk
      rw [Nat.zero_add] at hword
      exact (hword.mono hl fun b hb => hmem _ (by omega) (by omega)).read
  · intro hno
    constructor
    · rw [writeVals, bind_ok (get_apply ctx), if_pos (by omega)]
      rfl
    · rw [readVals, if_pos (by omega)]

end Slices

/-- A context with 16 bytes of memory and three objects in its table. -/
def sliceCtx : DispatchCtx Unit := { askedFor 3 with memSize := 16 }

/-- An address and a small value, written and read back. -/
theorem two_vals_round_trip :
    ∃ mem, writeVals silentHost 0 [sorobanMakeObj 5 SOROBAN_TAG_ADDRESS_OBJECT, SOROBAN_TRUE] sliceCtx =
        .ok () (sliceCtx.wrote silentHost mem
          [sorobanMakeObj 5 SOROBAN_TAG_ADDRESS_OBJECT, SOROBAN_TRUE]) ∧
      readVals silentHost (sliceCtx.wrote silentHost mem
          [sorobanMakeObj 5 SOROBAN_TAG_ADDRESS_OBJECT, SOROBAN_TRUE]) 0 2 =
        .ok [sorobanMakeObj 5 SOROBAN_TAG_ADDRESS_OBJECT, SOROBAN_TRUE] := by
  obtain ⟨mem, hwrite, -, hread⟩ := (val_slices_round_trip silentHost sliceCtx 0
    [sorobanMakeObj 5 SOROBAN_TAG_ADDRESS_OBJECT, SOROBAN_TRUE]).1 (by decide) (by decide)
  exact ⟨mem, hwrite, hread _ .refl le_rfl fun _ _ _ => rfl⟩

end CuWasm.Dispatch
