import Mathlib.Data.Finmap
import Mathlib.Tactic.Common

/-!
# Bounded maps

A finite map that holds at most `cap` keys. A new key is taken while there is room; a key that is
there gets the new value; a put of a new key into a full map is lost. What a history of puts leaves
behind is said in terms of the history: which of the puts were taken, and which was the last.
-/

/-- A finite map with at most `cap` keys. -/
structure BoundedMap (κ ν : Type*) (cap : ℕ) where
  map : Finmap fun _ : κ => ν
  card_le : map.keys.card ≤ cap

namespace BoundedMap

variable {κ ν : Type*} [DecidableEq κ] {cap : ℕ}

/-- The value under a key. -/
def lookup (m : BoundedMap κ ν cap) (k : κ) : Option ν := m.map.lookup k

/-- The number of keys. -/
def size (m : BoundedMap κ ν cap) : ℕ := m.map.keys.card

/-- The map takes the key: it is there, or there is room for it. -/
def Takes (m : BoundedMap κ ν cap) (k : κ) : Prop := (m.lookup k).isSome ∨ m.size < cap

instance (m : BoundedMap κ ν cap) (k : κ) : Decidable (m.Takes k) :=
  inferInstanceAs (Decidable (_ ∨ _))

instance : EmptyCollection (BoundedMap κ ν cap) := ⟨∅, Nat.zero_le _⟩

theorem keys_insert (s : Finmap fun _ : κ => ν) (k : κ) (v : ν) :
    (s.insert k v).keys = insert k s.keys := by
  ext j
  rw [Finmap.mem_keys, Finmap.mem_insert, Finset.mem_insert, Finmap.mem_keys]

theorem Takes.card_insert_le {m : BoundedMap κ ν cap} {k : κ} (h : m.Takes k) (v : ν) :
    (m.map.insert k v).keys.card ≤ cap := by
  rw [keys_insert]
  rcases h with h | h
  · have hk : k ∈ m.map.keys := Finmap.mem_keys.mpr (Finmap.lookup_isSome.mp h)
    rw [Finset.insert_eq_of_mem hk]
    exact m.card_le
  · exact Nat.le_trans (Finset.card_insert_le _ _) h

/-- Put a value under a key, if the map takes it. -/
def put (m : BoundedMap κ ν cap) (k : κ) (v : ν) : BoundedMap κ ν cap :=
  if h : m.Takes k then ⟨m.map.insert k v, h.card_insert_le v⟩ else m

/-- A history of puts, from the empty map. -/
def putAll (cap : ℕ) (ops : List (κ × ν)) : BoundedMap κ ν cap :=
  ops.foldl (fun m op => m.put op.1 op.2) ∅

section Put

variable {m : BoundedMap κ ν cap} {k : κ}

theorem put_of_takes (h : m.Takes k) (v : ν) : (m.put k v).map = m.map.insert k v := by
  rw [put, dif_pos h]

theorem put_of_not_takes (h : ¬ m.Takes k) (v : ν) : m.put k v = m := dif_neg h

@[simp] theorem lookup_empty : (∅ : BoundedMap κ ν cap).lookup k = none := Finmap.lookup_empty k

/-- What a put changes: the value under its own key, if the map takes it. -/
theorem lookup_put (v : ν) (j : κ) :
    (m.put k v).lookup j = if j = k ∧ m.Takes k then some v else m.lookup j := by
  by_cases h : m.Takes k
  · rw [lookup, put_of_takes h]
    by_cases hj : j = k
    · rw [if_pos ⟨hj, h⟩, hj, Finmap.lookup_insert]
    · rw [if_neg fun hc => hj hc.1, Finmap.lookup_insert_of_ne _ hj]
      rfl
  · rw [put_of_not_takes h, if_neg fun hc => h hc.2]

/-- A new key makes the map larger by one. -/
theorem size_put (v : ν) :
    (m.put k v).size = if (m.lookup k).isSome ∨ ¬ m.Takes k then m.size else m.size + 1 := by
  by_cases h : m.Takes k
  · rw [size, put_of_takes h, keys_insert]
    have hmem : (m.lookup k).isSome ↔ k ∈ m.map.keys :=
      Finmap.lookup_isSome.trans Finmap.mem_keys.symm
    by_cases hk : k ∈ m.map.keys
    · rw [if_pos (.inl (hmem.mpr hk)), Finset.insert_eq_of_mem hk]
      rfl
    · rw [if_neg, Finset.card_insert_of_notMem hk]
      · rfl
      · rintro (hs | hn)
        · exact hk (hmem.mp hs)
        · exact hn h
  · rw [put_of_not_takes h, if_pos (.inr h)]

end Put

/-! ## Histories -/

theorem putAll_concat (ops : List (κ × ν)) (k : κ) (v : ν) :
    putAll cap (ops ++ [(k, v)]) = (putAll cap ops).put k v := by
  unfold putAll
  rw [List.foldl_append]
  rfl

/-- A key is in the map just when one of its puts was taken. -/
theorem lookup_putAll_isSome_iff (ops : List (κ × ν)) (j : κ) :
    ((putAll cap ops).lookup j).isSome ↔
      ∃ pre v post, ops = pre ++ (j, v) :: post ∧ (putAll cap pre).Takes j := by
  induction ops using List.reverseRecOn with
  | nil =>
    constructor
    · intro h
      exact absurd h (by simp [putAll])
    · rintro ⟨pre, v, post, h, -⟩
      exact absurd h.symm (by simp)
  | append_singleton ops op ih =>
    rcases op with ⟨k, v⟩
    rw [putAll_concat, lookup_put]
    constructor
    · intro h
      by_cases hc : j = k ∧ (putAll cap ops).Takes k
      · rcases hc with ⟨rfl, ht⟩
        exact ⟨ops, v, [], rfl, ht⟩
      · rw [if_neg hc] at h
        obtain ⟨pre, w, post, rfl, ht⟩ := ih.mp h
        exact ⟨pre, w, post ++ [(k, v)], by simp, ht⟩
    · rintro ⟨pre, w, post, heq, ht⟩
      by_cases hc : j = k ∧ (putAll cap ops).Takes k
      · rw [if_pos hc]
        rfl
      · rw [if_neg hc]
        -- the put that was taken is not the last one
        rcases List.eq_nil_or_concat post with rfl | ⟨post, last, rfl⟩
        · obtain ⟨rfl, h⟩ := List.append_inj' heq rfl
          cases h
          exact absurd ⟨rfl, ht⟩ hc
        · have heq' : ops ++ [(k, v)] = (pre ++ (j, w) :: post) ++ [last] := by
            rw [heq]
            simp
          obtain ⟨h, -⟩ := List.append_inj' heq' rfl
          exact ih.mpr ⟨pre, w, post, h, ht⟩

/-- The value under a key is that of its last put. -/
theorem lookup_putAll_eq_some {ops : List (κ × ν)} {j : κ} {x : ν}
    (h : (putAll cap ops).lookup j = some x) :
    ∃ pre post, ops = pre ++ (j, x) :: post ∧ ∀ op ∈ post, op.1 ≠ j := by
  induction ops using List.reverseRecOn with
  | nil => exact absurd h (by simp [putAll])
  | append_singleton ops op ih =>
    rcases op with ⟨k, v⟩
    rw [putAll_concat, lookup_put] at h
    by_cases hc : j = k ∧ (putAll cap ops).Takes k
    · rw [if_pos hc] at h
      cases h
      exact ⟨ops, [], by rw [hc.1], by simp⟩
    · rw [if_neg hc] at h
      obtain ⟨pre, post, rfl, hpost⟩ := ih h
      refine ⟨pre, post ++ [(k, v)], by simp, fun op hop => ?_⟩
      rcases List.mem_append.mp hop with hop | hop
      · exact hpost op hop
      · -- a key that is in the map is taken again
        rw [List.mem_singleton.mp hop]
        rintro rfl
        exact hc ⟨rfl, .inl (by rw [h]; rfl)⟩

end BoundedMap
