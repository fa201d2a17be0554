import CuWasm.Dispatch
import Mathlib.Data.List.Forall2

/-!
# Guest handles

What a guest can name: a relative handle gives the entry of the table it stands for, but a payload
with an odd handle passes `to_absolute` unchanged.
-/

namespace CuWasm.Dispatch

variable {H : Type} {S : Soroban H} {ctx : DispatchCtx H}

/-- Decoding `raw` gives an object only if that object is in the table, under the tag of `raw`. -/
def Capability (S : Soroban H) (ctx : DispatchCtx H) (raw : Slot) : Prop :=
  ∀ x, decodeVal S ctx raw = .ok x → isObjectVal S x = true →
    x ∈ ctx.relativeObjects ∧ sorobanTag x = sorobanTag raw

/-- A payload that names a host object by its own, odd handle, and the object was not given. -/
def Forged (S : Soroban H) (ctx : DispatchCtx H) (raw : Slot) : Prop :=
  isObjectVal S raw = true ∧ sorobanHandle raw % 2 = 1 ∧ raw ∉ ctx.relativeObjects

/-- What `to_absolute` yields: a payload that is no object, an entry of the table with the same tag,
or a payload with an odd handle. -/
theorem toAbsolute_cases {raw x : Slot} (h : toAbsolute S ctx raw = .ok x) :
    (x = raw ∧ isObjectVal S raw = false) ∨
      (x ∈ ctx.relativeObjects ∧ sorobanTag x = sorobanTag raw ∧ sorobanHandle raw % 2 = 0) ∨
      (x = raw ∧ isObjectVal S raw = true ∧ sorobanHandle raw % 2 = 1) := by
  unfold toAbsolute at h
  by_cases hobj : isObjectVal S raw = true
  · rw [if_pos hobj] at h
    by_cases hrel : isRelativeHandle (sorobanHandle raw) = true
    · simp only [if_pos hrel] at h
      have heven : sorobanHandle raw % 2 = 0 := by simpa [isRelativeHandle] using hrel
      cases hget : ctx.relativeObjects[handleToIndex (sorobanHandle raw)]? with
      | none =>
        rw [hget] at h
        cases h
      | some abs =>
        rw [hget] at h
        simp only at h
        split_ifs at h with htag
        cases h
        exact .inr (.inl ⟨List.mem_of_getElem? hget, not_not.mp htag, heven⟩)
    · simp only [if_neg hrel] at h
      cases h
      have hodd : sorobanHandle raw % 2 = 1 := by
        simp only [isRelativeHandle, beq_iff_eq] at hrel
        omega
      exact .inr (.inr ⟨rfl, hobj, hodd⟩)
  · rw [if_neg hobj] at h
    cases h
    exact .inl ⟨rfl, Bool.not_eq_true _ ▸ hobj⟩

/-- A payload with an odd handle is decoded as it is. -/
theorem toAbsolute_odd {raw : Slot} (hodd : sorobanHandle raw % 2 = 1) :
    toAbsolute S ctx raw = .ok raw := by
  have hrel : isRelativeHandle (sorobanHandle raw) = false := by
    simp only [isRelativeHandle, beq_eq_false_iff_ne]
    omega
  unfold toAbsolute
  simp [hrel]

/-- A payload decodes to objects that were given just when it is not forged. -/
theorem capability_iff {raw : Slot} : Capability S ctx raw ↔ ¬ Forged S ctx raw := by
  constructor
  · rintro h ⟨hobj, hodd, hnot⟩
    exact hnot (h raw (toAbsolute_odd hodd) hobj).1
  · intro h x hx hobj
    rcases toAbsolute_cases hx with ⟨rfl, hno⟩ | ⟨hmem, htag, -⟩ | ⟨rfl, hobj', hodd⟩
    · rw [hobj] at hno
      cases hno
    · exact ⟨hmem, htag⟩
    · refine ⟨?_, rfl⟩
      by_contra hnot
      exact h ⟨hobj', hodd, hnot⟩

theorem mapM_forall₂ {α β : Type} {f : α → Except String β} {xs : List α} {ys : List β}
    (h : xs.mapM f = .ok ys) : List.Forall₂ (fun x y => f x = .ok y) xs ys := by
  induction xs generalizing ys with
  | nil =>
    cases h
    exact .nil
  | cons x xs ih =>
    rw [List.mapM_cons] at h
    cases hx : f x with
    | error e =>
      rw [hx] at h
      cases h
    | ok y =>
      cases hxs : xs.mapM f with
      | error e =>
        rw [hx, hxs] at h
        cases h
      | ok ys' =>
        rw [hx, hxs] at h
        cases h
        exact .cons hx (ih hxs)

/-- `read_vals` decodes word by word. -/
theorem readVals_forall₂ {pos len : Nat} {xs : List Slot} (h : readVals S ctx pos len = .ok xs) :
    List.Forall₂ (fun i x => decodeVal S ctx (wordAt ctx pos i) = .ok x) (List.range len) xs := by
  unfold readVals at h
  split_ifs at h
  exact mapM_forall₂ h

/-- Arguments and words in memory decode to objects the guest was given, unless one of them is
forged. -/
theorem guest_handles_capabilities (S : Soroban H) (ctx : DispatchCtx H) :
    (∀ raw, Capability S ctx raw ↔ ¬ Forged S ctx raw) ∧
      ∀ pos len xs, readVals S ctx pos len = .ok xs →
        ((∀ x ∈ xs, isObjectVal S x = true → x ∈ ctx.relativeObjects) ↔
          ∀ i, i < len → ¬ Forged S ctx (wordAt ctx pos i)) := by
  refine ⟨fun raw => capability_iff, fun pos len xs h => ?_⟩
  have hall := readVals_forall₂ h
  constructor
  · rintro hgiven i hi ⟨hobj, hodd, hnot⟩
    obtain ⟨x, hx, hdec⟩ : ∃ x ∈ xs, decodeVal S ctx (wordAt ctx pos i) = .ok x := by
      have hlen := (List.forall₂_iff_get.mp hall).1
      rw [List.length_range] at hlen
      have hlt : i < xs.length := by omega
      refine ⟨xs[i], List.getElem_mem _, ?_⟩
      have := (List.forall₂_iff_get.mp hall).2 i (by rw [List.length_range]; exact hi) hlt
      simpa using this
    have heq : wordAt ctx pos i = x := Except.ok.inj ((toAbsolute_odd hodd).symm.trans hdec)
    exact hnot (heq ▸ hgiven x hx (heq ▸ hobj))
  · intro hno x hx hobj
    obtain ⟨n, hn, rfl⟩ := List.getElem_of_mem hx
    have hlen := (List.forall₂_iff_get.mp hall).1
    rw [List.length_range] at hlen
    have hdec := (List.forall₂_iff_get.mp hall).2 n (by rw [List.length_range]; omega) hn
    have hdec' : decodeVal S ctx (wordAt ctx pos n) = .ok xs[n] := by simpa using hdec
    exact (capability_iff.mpr (hno n (by omega)) _ hdec' hobj).1

/-- A host with the object tags of `soroban_env_common` that answers no call. -/
def silentHost : Soroban Unit where
  isObject := fun t => 64 ≤ t.toNat && t.toNat < 78
  tagText := fun _ => "Bad"
  utf8Error := fun _ => "invalid utf-8 sequence"
  stringNewFromSlice := fun _ _ => .error "no"
  symbolNewFromSlice := fun _ _ => .error "no"
  vecNewFromSlice := fun _ _ => .error "no"
  mapNewFromSlices := fun _ _ _ => .error "no"
  mapUnpackToSlice := fun _ _ _ _ => .error "no"
  hasContractData := fun _ _ _ => .error "no"
  getContractData := fun _ _ _ => .error "no"
  putContractData := fun _ _ _ _ => .error "no"
  extendContractDataTtl := fun _ _ _ _ _ => .error "no"
  extendCurrentContractInstanceAndCodeTtl := fun _ _ _ => .error "no"
  contractEvent := fun _ _ _ => .error "no"
  getLedgerSequence := fun _ => .error "no"
  objFromI128Pieces := fun _ _ _ => .error "no"
  objToI128Lo64 := fun _ _ => .error "no"
  objToI128Hi64 := fun _ _ => .error "no"
  requireAuth := fun _ _ => .error "no"
  describe := fun h _ => h

/-- A context that has given out the address object with the host's handle 1; its memory holds the
relative handle 0 of that object. -/
def addressCtx : DispatchCtx Unit where
  host := ()
  mem := fun i => if i = 0 then SOROBAN_TAG_ADDRESS_OBJECT else 0
  memSize := 8
  relativeObjects := [sorobanMakeObj 1 SOROBAN_TAG_ADDRESS_OBJECT]

/-- The guest can use the handle it was given, as an argument and from memory. -/
theorem addressCtx_capability :
    Capability silentHost addressCtx (sorobanMakeObj 0 SOROBAN_TAG_ADDRESS_OBJECT) ∧
      readVals silentHost addressCtx 0 1 = .ok [sorobanMakeObj 1 SOROBAN_TAG_ADDRESS_OBJECT] ∧
      ∀ x ∈ [sorobanMakeObj 1 SOROBAN_TAG_ADDRESS_OBJECT], isObjectVal silentHost x = true →
        x ∈ addressCtx.relativeObjects := by
  have hread : readVals silentHost addressCtx 0 1 =
      .ok [sorobanMakeObj 1 SOROBAN_TAG_ADDRESS_OBJECT] := by decide +kernel
  have hodd : ∀ i, i < 1 → ¬ sorobanHandle (wordAt addressCtx 0 i) % 2 = 1 := by decide
  obtain ⟨h1, h2⟩ := guest_handles_capabilities silentHost addressCtx
  refine ⟨(h1 _).mpr fun h => absurd h.2.1 (by decide), hread, (h2 _ _ _ hread).mpr ?_⟩
  intro i hi hforged
  exact hodd i hi hforged.2.1

/-- A guest that was given nothing names the host's object 1. -/
theorem odd_handle_forges :
    ¬ ∀ (ctx : DispatchCtx Unit) (raw : Slot), ctx.relativeObjects = [] →
      Capability silentHost ctx raw := by
  intro h
  have hcap := h { host := (), mem := fun _ => 0, memSize := 0 }
    (sorobanMakeObj 1 SOROBAN_TAG_ADDRESS_OBJECT) rfl
  exact capability_iff.mp hcap ⟨by decide, by decide, by simp⟩

end CuWasm.Dispatch
