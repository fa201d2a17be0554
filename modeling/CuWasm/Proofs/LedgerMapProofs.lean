import CuWasm.LedgerMap
import CuWasm.Proofs.LedgerProofs

/-!
# The store refines the bounded map

One put takes the arrays from one map to the next (`Holds.put`), so any history does (`Holds.puts`).
The facts about histories are then those of `BoundedMap`.
-/

namespace CuWasm

section Store

variable {st : GpuStorage} {m : LedgerMap} {key : List Byte}

theorem entry_isSome : (st.entry key).isSome = (kvFind st key).isSome := Option.isSome_map

/-- The search succeeds just for the keys of the map. -/
theorem GpuStorage.Holds.isSome (h : st.Holds m) (key : List Byte) :
    (kvFind st key).isSome = (m.lookup key).isSome := by
  rw [← h.entry, entry_isSome]

theorem GpuStorage.Holds.accepts_iff (h : st.Holds m) : Accepts st key ↔ m.Takes key := by
  unfold Accepts BoundedMap.Takes
  rw [h.isSome, h.count]

/-- Different entries have different keys. -/
theorem GpuStorage.Holds.keyAt_inj (h : st.Holds m) {i j : Nat} (hi : i < st.count)
    (hj : j < st.count) (heq : st.keyAt i = st.keyAt j) : i = j := by
  have hfi := h.found i hi
  rw [heq, h.found j hj] at hfi
  exact (Option.some.inj hfi).symm

theorem HasKey.keyAt_eq {i : Nat} (h : HasKey st i key) : st.keyAt i = key := by
  unfold GpuStorage.keyAt
  rw [h.1]
  exact h.2

/-- Every entry is still found under its own key after a put. -/
theorem found_putRaw (hlen : key.length ≤ GPU_KV_KEY_MAX) (val : List Byte)
    (hfound : ∀ i, i < st.count → kvFind st (st.keyAt i) = some i) {i : Nat}
    (hi : i < (gpuKvPutRaw st key val).count) :
    kvFind (gpuKvPutRaw st key val) ((gpuKvPutRaw st key val).keyAt i) = some i := by
  by_cases ha : Accepts st key
  · cases hf : kvFind st key with
    | some j =>
      rw [putRaw_some hf] at hi ⊢
      exact hfound i hi
    | none =>
      have hlt : st.count < GPU_STORAGE_CAP := by
        rcases ha with h | h
        · rw [hf] at h
          cases h
        · exact h
      rw [putRaw_new hf hlt] at hi ⊢
      show kvFind (st.addKey key) ((st.addKey key).keyAt i) = some i
      rw [kvFind_addKey hf hlen]
      by_cases hlast : i = st.count
      · have hk : HasKey (st.addKey key) i key := by
          rw [hasKey_addKey hlen, if_pos hlast]
        rw [hk.keyAt_eq, if_pos rfl, hlast]
      · have hi' : i < st.count := by
          have : i < st.count + 1 := hi
          omega
        have hold : (st.addKey key).keyAt i = st.keyAt i := by
          unfold GpuStorage.keyAt GpuStorage.addKey
          simp only [Function.update_of_ne hlast]
        have hne : st.keyAt i ≠ key := by
          intro hk
          have hfi := hfound i hi'
          rw [hk, hf] at hfi
          cases hfi
        rw [hold, if_neg hne]
        exact hfound i hi'
  · rw [putRaw_of_not_accepts ha] at hi ⊢
    exact hfound i hi

instance (st : GpuStorage) (key : List Byte) : Decidable (Accepts st key) :=
  inferInstanceAs (Decidable (_ ∨ _))

/-- A put makes the store larger just when it takes a new key. -/
theorem count_putRaw (val : List Byte) :
    (gpuKvPutRaw st key val).count =
      if (kvFind st key).isSome ∨ ¬ Accepts st key then st.count else st.count + 1 := by
  by_cases ha : Accepts st key
  · cases hf : kvFind st key with
    | some i =>
      rw [putRaw_some hf, if_pos (.inl rfl)]
      rfl
    | none =>
      have hlt : st.count < GPU_STORAGE_CAP := by
        rcases ha with h | h
        · rw [hf] at h
          cases h
        · exact h
      rw [putRaw_new hf hlt, if_neg]
      · rfl
      · rintro (h | h)
        · cases h
        · exact h ha
  · rw [putRaw_of_not_accepts ha, if_pos (.inr ha)]

/-- One put on the arrays is one put on the map. -/
theorem GpuStorage.Holds.put (h : st.Holds m) (hlen : key.length ≤ GPU_KV_KEY_MAX) (val : List Byte) :
    (gpuKvPutRaw st key val).Holds (m.put key (val.take GPU_KV_VAL_MAX)) := by
  constructor
  · rw [count_putRaw, BoundedMap.size_put, h.count]
    exact if_congr (by rw [h.isSome, h.accepts_iff]) rfl rfl
  · intro i hi
    exact found_putRaw hlen val h.found hi
  · intro key'
    rw [BoundedMap.lookup_put]
    by_cases ha : Accepts st key
    · rw [entry_putRaw ha hlen, h.entry]
      by_cases hk : key' = key
      · rw [if_pos hk, if_pos ⟨hk, h.accepts_iff.mp ha⟩]
      · rw [if_neg hk, if_neg fun hc => hk hc.1]
    · rw [putRaw_of_not_accepts ha, if_neg fun hc => ha (h.accepts_iff.mpr hc.2), h.entry]

end Store

section History

variable {st0 : GpuStorage} {ops : List KvPut}

theorem puts_concat (st : GpuStorage) (ops : List KvPut) (op : KvPut) :
    st.puts (ops ++ [op]) = gpuKvPutRaw (st.puts ops) op.1 op.2 := by
  unfold GpuStorage.puts
  rw [List.foldl_append]
  rfl

/-- A store without entries holds the empty map, whatever its arrays say. -/
theorem Holds.empty (h0 : st0.count = 0) : st0.Holds ∅ := by
  constructor
  · rw [h0]
    rfl
  · intro i hi
    omega
  · intro key
    have hnone : kvFind st0 key = none := kvFind_eq_none_iff.mpr fun i hi => by omega
    rw [GpuStorage.entry, hnone, BoundedMap.lookup_empty]
    rfl

/-- After any history of puts the arrays hold the map of that history. -/
theorem Holds.puts (h0 : st0.count = 0) (hkeys : ∀ op ∈ ops, op.1.length ≤ GPU_KV_KEY_MAX) :
    (st0.puts ops).Holds (BoundedMap.putAll _ (ops.map KvPut.cut)) := by
  induction ops using List.reverseRecOn with
  | nil => exact Holds.empty h0
  | append_singleton ops op ih =>
    have hops := ih fun o ho => hkeys o (List.mem_append_left _ ho)
    have hop := hkeys op (List.mem_append_right _ (List.mem_singleton_self _))
    rw [puts_concat, List.map_append, List.map_singleton, KvPut.cut, BoundedMap.putAll_concat]
    exact hops.put hop op.2

/-- A cut history that contains a put comes from a history that does. -/
theorem map_cut_eq {pre post : List KvPut} {key val : List Byte}
    (h : ops.map KvPut.cut = pre ++ (key, val) :: post) :
    ∃ pre' val' post', ops = pre' ++ (key, val') :: post' ∧ pre'.map KvPut.cut = pre ∧
      val'.take GPU_KV_VAL_MAX = val ∧ post'.map KvPut.cut = post := by
  obtain ⟨pre', rest, rfl, hpre, hrest⟩ := List.map_eq_append_iff.mp h
  obtain ⟨⟨key', val'⟩, post', rfl, hop, hpost⟩ := List.map_eq_cons_iff.mp hrest
  cases hop
  exact ⟨pre', val', post', rfl, hpre, rfl, hpost⟩

/-- The key/value store is a map of at most 16 keys, for every history of puts into a store without
entries. -/
theorem kv_store_is_bounded_map (h0 : st0.count = 0)
    (hkeys : ∀ op ∈ ops, op.1.length ≤ GPU_KV_KEY_MAX) :
    let st := st0.puts ops
    st.Holds (BoundedMap.putAll _ (ops.map KvPut.cut)) ∧
      st.count ≤ GPU_STORAGE_CAP ∧
      (∀ i j, i < st.count → j < st.count → st.keyAt i = st.keyAt j → i = j) ∧
      (∀ key, (kvFind st key).isSome ↔
        ∃ pre val post, ops = pre ++ (key, val) :: post ∧ Accepts (st0.puts pre) key) ∧
      (∀ key i, kvFind st key = some i →
        ∃ pre val post, ops = pre ++ (key, val) :: post ∧ (∀ op ∈ post, op.1 ≠ key) ∧
          st.valLens i = min val.length GPU_KV_VAL_MAX ∧
          ∀ b, b < min val.length GPU_KV_VAL_MAX → st.values i b = val.getD b 0) ∧
      ∀ key val, key.length ≤ GPU_KV_KEY_MAX →
        (kvFind st key = none → GPU_STORAGE_CAP ≤ st.count → gpuKvPutRaw st key val = st) ∧
        ∀ key', key' ≠ key → (gpuKvPutRaw st key val).entry key' = st.entry key' := by
  intro st
  have h : st.Holds (BoundedMap.putAll _ (ops.map KvPut.cut)) := Holds.puts h0 hkeys
  refine ⟨h, ?_, fun i j hi hj heq => h.keyAt_inj hi hj heq, fun key => ?_, fun key i hi => ?_,
    fun key val hlen => ⟨fun hnew hfull => putRaw_full hnew hfull, fun key' hne => ?_⟩⟩
  · rw [h.count]
    exact BoundedMap.card_le _
  · have hpre : ∀ pre val post, ops = pre ++ (key, val) :: post →
        (st0.puts pre).Holds (BoundedMap.putAll _ (pre.map KvPut.cut)) := by
      intro pre val post heq
      refine Holds.puts h0 fun op hop => hkeys op ?_
      rw [heq]
      exact List.mem_append_left _ hop
    rw [h.isSome, BoundedMap.lookup_putAll_isSome_iff]
    constructor
    · rintro ⟨pre, val, post, heq, ht⟩
      obtain ⟨pre', val', post', heq', rfl, -, -⟩ := map_cut_eq heq
      exact ⟨pre', val', post', heq', (hpre _ _ _ heq').accepts_iff.mpr ht⟩
    · rintro ⟨pre, val, post, heq, ha⟩
      refine ⟨pre.map KvPut.cut, val.take GPU_KV_VAL_MAX, post.map KvPut.cut, ?_,
        (hpre _ _ _ heq).accepts_iff.mp ha⟩
      rw [heq, List.map_append, List.map_cons]
      rfl
  · have hentry : st.entry key = some ((List.range (st.valLens i)).map (st.values i)) := by
      rw [GpuStorage.entry, hi]
      rfl
    rw [h.entry] at hentry
    obtain ⟨pre, post, heq, hpost⟩ := BoundedMap.lookup_putAll_eq_some hentry
    obtain ⟨pre', val, post', heq', -, hval, hpost'⟩ := map_cut_eq heq
    have hlen : st.valLens i = min val.length GPU_KV_VAL_MAX := by
      have hl := congrArg List.length hval
      rw [List.length_take, List.length_map, List.length_range] at hl
      rw [← hl, Nat.min_comm]
    refine ⟨pre', val, post', heq', fun op hop => ?_, hlen, fun b hb => ?_⟩
    · refine hpost (KvPut.cut op) ?_
      rw [← hpost']
      exact List.mem_map_of_mem hop
    · have hb1 : b < st.valLens i := by rw [hlen]; exact hb
      have hb2 : b < GPU_KV_VAL_MAX := Nat.lt_of_lt_of_le hb (Nat.min_le_right _ _)
      have hbyte := congrArg (fun l => l.getD b 0) hval
      simp only [List.getD_eq_getElem?_getD, List.getElem?_take, if_pos hb2, List.getElem?_map,
        List.getElem?_range hb1, Option.map_some, Option.getD_some] at hbyte
      rw [List.getD_eq_getElem?_getD]
      exact hbyte.symm
  · by_cases ha : Accepts st key
    · rw [entry_putRaw ha hlen, if_neg hne]
    · rw [putRaw_of_not_accepts ha]

end History

/-- Seventeen keys, one of them written twice: the second time with a shorter value. -/
def crowdedPuts : List KvPut :=
  (List.range 17).map (fun i => ([BitVec.ofNat 8 i], [1, 2, 3])) ++ [([5], [9])]

/-- Of seventeen keys the last is lost; the shorter value has replaced the longer one. -/
theorem crowded_puts :
    (({} : GpuStorage).puts crowdedPuts).count ≤ 16 ∧
      kvFind (({} : GpuStorage).puts crowdedPuts) [16] = none ∧
      (({} : GpuStorage).puts crowdedPuts).entry [5] = some [9] := by
  have hempty : ({} : GpuStorage).count = 0 := rfl
  have hkeys : ∀ op ∈ crowdedPuts, op.1.length ≤ GPU_KV_KEY_MAX := by decide
  have h := kv_store_is_bounded_map hempty hkeys
  exact ⟨h.2.1, by decide +kernel, by decide +kernel⟩

end CuWasm
