import CuWasm.Proofs.HostObjectProofs

/-!
# The ledger of the GPU host

The key/value arrays behave as a map from byte strings to byte strings until the store is full. On
top of that: which `Val`s a contract gets back, in the same invocation and in later ones.
-/

namespace CuWasm

/-! ## The store as a map -/

section Store

variable {st : GpuStorage} {key key' : List Byte}

/-- The entry `i` of the store has the key `key`. -/
def HasKey (st : GpuStorage) (i : Nat) (key : List Byte) : Prop :=
  st.keyLens i = key.length ∧ (List.range key.length).map (st.keys i) = key

theorem HasKey.unique {i : Nat} (h : HasKey st i key) (h' : HasKey st i key') : key = key' := by
  have hlen : key.length = key'.length := h.1.symm.trans h'.1
  rw [← h.2, ← h'.2, hlen]

theorem kvFind_eq_some_iff {i : Nat} :
    kvFind st key = some i ↔ i < st.count ∧ HasKey st i key ∧ ∀ j, j < i → ¬ HasKey st j key := by
  unfold kvFind HasKey
  rw [List.find?_range_eq_some]
  simp only [Bool.and_eq_true, decide_eq_true_eq, List.mem_range, Bool.not_eq_true', Bool.eq_false_iff,
    Ne]
  tauto

theorem kvFind_eq_none_iff : kvFind st key = none ↔ ∀ i, i < st.count → ¬ HasKey st i key := by
  unfold kvFind HasKey
  rw [List.find?_eq_none]
  simp only [Bool.and_eq_true, decide_eq_true_eq, List.mem_range]

/-- The store with the value bytes `bytes` in entry `i`. -/
def GpuStorage.setValue (st : GpuStorage) (i : Nat) (bytes : List Byte) : GpuStorage :=
  { st with
    values := Function.update st.values i (writeBytes (st.values i) bytes)
    valLens := Function.update st.valLens i bytes.length }

/-- The store with a new entry for the key `key`. -/
def GpuStorage.addKey (st : GpuStorage) (key : List Byte) : GpuStorage :=
  { st with
    count := st.count + 1
    keys := Function.update st.keys st.count (writeBytes (st.keys st.count) (key.take GPU_KV_KEY_MAX))
    keyLens := Function.update st.keyLens st.count key.length }

theorem putRaw_some {val : List Byte} {i : Nat} (h : kvFind st key = some i) :
    gpuKvPutRaw st key val = st.setValue i (val.take GPU_KV_VAL_MAX) := by
  unfold gpuKvPutRaw
  rw [h]
  rfl

theorem putRaw_full {val : List Byte} (h : kvFind st key = none)
    (hfull : GPU_STORAGE_CAP ≤ st.count) : gpuKvPutRaw st key val = st := by
  unfold gpuKvPutRaw
  rw [h]
  simp only [if_pos hfull]

theorem putRaw_new {val : List Byte} (h : kvFind st key = none) (hlt : st.count < GPU_STORAGE_CAP) :
    gpuKvPutRaw st key val = (st.addKey key).setValue st.count (val.take GPU_KV_VAL_MAX) := by
  unfold gpuKvPutRaw
  rw [h]
  simp only [if_neg (Nat.not_le.mpr hlt)]
  rfl

theorem map_writeBytes (f : Nat → Byte) (bytes : List Byte) :
    (List.range bytes.length).map (writeBytes f bytes) = bytes := by
  apply List.ext_getElem
  · simp
  · intro i h1 h2
    simp [writeBytes, h2]

/-- The new entry has the key, and the others have theirs. -/
theorem hasKey_addKey (hlen : key.length ≤ GPU_KV_KEY_MAX) {i : Nat} {key' : List Byte} :
    HasKey (st.addKey key) i key' ↔ if i = st.count then key' = key else HasKey st i key' := by
  unfold HasKey GpuStorage.addKey
  by_cases hi : i = st.count
  · subst hi
    simp only [Function.update_self, if_true, List.take_of_length_le hlen]
    constructor
    · rintro ⟨h1, h2⟩
      rw [← h1, map_writeBytes] at h2
      exact h2.symm
    · rintro rfl
      exact ⟨rfl, map_writeBytes _ _⟩
  · simp only [Function.update_of_ne hi, if_neg hi]

theorem kvFind_addKey (hnew : kvFind st key = none) (hlen : key.length ≤ GPU_KV_KEY_MAX)
    (key' : List Byte) :
    kvFind (st.addKey key) key' = if key' = key then some st.count else kvFind st key' := by
  have hold : ∀ j, j < st.count → (HasKey (st.addKey key) j key' ↔ HasKey st j key') := by
    intro j hj
    rw [hasKey_addKey hlen, if_neg (by omega)]
  by_cases hk : key' = key
  · rw [if_pos hk, kvFind_eq_some_iff]
    refine ⟨Nat.lt_succ_self _, ?_, fun j hj => ?_⟩
    · rw [hasKey_addKey hlen, if_pos rfl]
      exact hk
    · rw [hold j hj, hk]
      exact kvFind_eq_none_iff.mp hnew j hj
  · rw [if_neg hk]
    cases h : kvFind st key' with
    | none =>
      rw [kvFind_eq_none_iff]
      intro i hi
      by_cases hlast : i = st.count
      · rw [hasKey_addKey hlen, if_pos hlast]
        exact hk
      · have hi' : i < st.count := by
          have : i < st.count + 1 := hi
          omega
        rw [hold i hi']
        exact kvFind_eq_none_iff.mp h i hi'
    | some i =>
      obtain ⟨hi, hki, hfirst⟩ := kvFind_eq_some_iff.mp h
      rw [kvFind_eq_some_iff]
      refine ⟨Nat.lt_succ_of_lt hi, (hold i hi).mpr hki, fun j hj => ?_⟩
      rw [hold j (by omega)]
      exact hfirst j hj

/-- The store takes the key: it is there already or there is room for it. -/
def Accepts (st : GpuStorage) (key : List Byte) : Prop :=
  (kvFind st key).isSome = true ∨ st.count < GPU_STORAGE_CAP

/-- Where a put writes, and what the store is afterwards. -/
theorem putRaw_cases (h : Accepts st key) (hlen : key.length ≤ GPU_KV_KEY_MAX) (val : List Byte) :
    ∃ i st', gpuKvPutRaw st key val = st'.setValue i (val.take GPU_KV_VAL_MAX) ∧
      st'.values = st.values ∧ st'.valLens = st.valLens ∧ i < st'.count ∧ st.count ≤ st'.count ∧
      (∀ j, j < st'.count → j ≠ i → j < st.count) ∧
      ∀ key', kvFind st' key' = if key' = key then some i else kvFind st key' := by
  cases hf : kvFind st key with
  | some i =>
    refine ⟨i, st, putRaw_some hf, rfl, rfl, (kvFind_eq_some_iff.mp hf).1, Nat.le_refl _,
      fun j hj _ => hj, fun key' => ?_⟩
    split_ifs with hk
    · rw [hk, hf]
    · rfl
  | none =>
    have hlt : st.count < GPU_STORAGE_CAP := by
      rcases h with h | h
      · rw [hf] at h
        cases h
      · exact h
    refine ⟨st.count, st.addKey key, putRaw_new hf hlt, rfl, rfl, Nat.lt_succ_self _, Nat.le_succ _,
      fun j hj hne => ?_, kvFind_addKey hf hlen⟩
    have : j < st.count + 1 := hj
    omega

theorem kvFind_setValue (i : Nat) (bytes : List Byte) (key : List Byte) :
    kvFind (st.setValue i bytes) key = kvFind st key := rfl

/-- An accepted put can be found again, under its own key only. -/
theorem entry_putRaw (h : Accepts st key) (hlen : key.length ≤ GPU_KV_KEY_MAX) (val : List Byte)
    (key' : List Byte) :
    (gpuKvPutRaw st key val).entry key' =
      if key' = key then some (val.take GPU_KV_VAL_MAX) else st.entry key' := by
  obtain ⟨i, st', hput, hval, hvl, hi, -, -, hfind⟩ := putRaw_cases h hlen val
  rw [hput]
  unfold GpuStorage.entry
  rw [kvFind_setValue, hfind]
  by_cases hk : key' = key
  · simp only [if_pos hk, Option.map_some, GpuStorage.setValue, Function.update_self, map_writeBytes]
  · simp only [if_neg hk]
    cases hf : kvFind st key' with
    | none => rfl
    | some j =>
      have hne : j ≠ i := by
        rintro rfl
        have h1 : kvFind st' key' = some j := by rw [hfind, if_neg hk, hf]
        have h2 : kvFind st' key = some j := by rw [hfind, if_pos rfl]
        exact hk ((kvFind_eq_some_iff.mp h1).2.1.unique (kvFind_eq_some_iff.mp h2).2.1)
      simp only [Option.map_some, GpuStorage.setValue, Function.update_of_ne hne, hval, hvl]

/-- A put that the store does not take is lost. -/
theorem putRaw_of_not_accepts (h : ¬ Accepts st key) (val : List Byte) :
    gpuKvPutRaw st key val = st := by
  unfold Accepts at h
  rw [not_or] at h
  refine putRaw_full ?_ (Nat.not_lt.mp h.2)
  cases hf : kvFind st key with
  | none => rfl
  | some i =>
    rw [hf] at h
    exact absurd rfl h.1

end Store

/-! ## Canonical keys -/

theorem addressBytes_length (heap : GpuObjHeap) (x : Slot) : (addressBytes heap x).length = 32 := by
  unfold addressBytes
  split <;> simp

theorem canonElems_length {heap : GpuObjHeap} {evs : List Slot} {out key : List Byte}
    (h : canonElems heap evs out = some key) (hout : out.length ≤ GPU_KV_KEY_MAX) :
    key.length ≤ GPU_KV_KEY_MAX := by
  induction evs generalizing out with
  | nil =>
    cases h
    exact hout
  | cons ev evs ih =>
    unfold canonElems at h
    split_ifs at h with h1 h2 h2
    · refine ih h ?_
      rw [List.length_append, addressBytes_length]
      omega
    · refine ih h ?_
      rw [List.length_append, kvWriteU64_length]
      omega

/-- A canonical key fits the key array. -/
theorem kvCanonKey_length {heap : GpuObjHeap} {k : Slot} {t : Byte} {key : List Byte}
    (h : kvCanonKey heap k t = some key) : key.length ≤ GPU_KV_KEY_MAX := by
  unfold kvCanonKey at h
  split_ifs at h
  · split at h
    · cases h
    · exact canonElems_length h (show 1 ≤ GPU_KV_KEY_MAX by decide)
  · cases h
    rw [List.length_cons, addressBytes_length]
    decide
  · cases h
    rw [List.length_cons, kvWriteU64_length]
    decide

/-! ## The ledger calls -/

section Call

variable {s s' : GpuHostState} {c : HostCall} {r : Slot}

/-- The bytes `put_contract_data` stores for a `Val`. -/
def valBytes (heap : GpuObjHeap) (x : Slot) : List Byte :=
  if sorobanTag x = SOROBAN_TAG_ADDRESS_OBJECT then addressBytes heap x else kvWriteU64 x

theorem valBytes_take (heap : GpuObjHeap) (x : Slot) :
    (valBytes heap x).take GPU_KV_VAL_MAX = valBytes heap x := by
  apply List.take_of_length_le
  unfold valBytes
  split
  · rw [addressBytes_length]
    exact Nat.le_refl _
  · rw [kvWriteU64_length]
    decide

/-- `put_contract_data` changes the store at most, and returns `Void`. -/
theorem put_dispatch (hfn : c.fn = some .putContractData) :
    Dispatches c s s' r ↔ r = SOROBAN_VOID ∧
      s' = { s with storage :=
        match kvCanonKey s.objHeap (c.mb.args 0) (storageType (c.mb.args 2)) with
        | none => s.storage
        | some key => gpuKvPutRaw s.storage key (valBytes s.objHeap (c.mb.args 1)) } := by
  have hput : gpuDispatch s .putContractData c.mb.args c.mem c.memSize =
      ({ s with storage :=
        match kvCanonKey s.objHeap (c.mb.args 0) (storageType (c.mb.args 2)) with
        | none => s.storage
        | some key => gpuKvPutRaw s.storage key (valBytes s.objHeap (c.mb.args 1)) },
        SOROBAN_VOID) := by
    simp only [gpuDispatch, storageType, valBytes]
    cases kvCanonKey s.objHeap (c.mb.args 0) ((c.mb.args 2).setWidth 8) with
    | none => rfl
    | some key =>
      simp only
      split_ifs <;> rfl
  rw [dispatches_iff, hfn]
  constructor
  · rintro ⟨fn, h, hd⟩
    cases h
    rw [hput] at hd
    cases hd
    exact ⟨rfl, rfl⟩
  · rintro ⟨rfl, rfl⟩
    exact ⟨_, rfl, hput⟩

/-- Only `put_contract_data` writes to the store. -/
theorem Dispatches.storage_eq (h : Dispatches c s s' r) (hfn : c.fn ≠ some .putContractData) :
    s'.storage = s.storage := by
  obtain ⟨fn, hfn', hd⟩ := dispatches_iff.mp h
  have halloc : ∀ tag len data, (⟨(objAlloc s.objHeap tag len data).1, s.storage⟩,
      (objAlloc s.objHeap tag len data).2) = (s', r) → s'.storage = s.storage := by
    intro tag len data h
    cases h
    rfl
  cases fn with
  | putContractData => exact absurd hfn' hfn
  | strNewLm => exact halloc _ _ _ hd
  | symNewLm => exact halloc _ _ _ hd
  | mapNewLm => exact halloc SOROBAN_TAG_MAP_OBJECT 0 none hd
  | objFromI128 =>
    exact halloc SOROBAN_TAG_I128OBJECT 16
      (some ((kvWriteU64 (c.mb.args 1) ++ kvWriteU64 (c.mb.args 0)).getD · 0)) hd
  | getCurAddr => exact halloc SOROBAN_TAG_ADDRESS_OBJECT 0 none hd
  | mapUnpackLm | extendDataTtl | extendInstTtl | requireAuth | contractEvent | getLedgerSeq =>
    cases hd
    rfl
  | vecNewLm | objToI128Lo | objToI128Hi | hasContractData =>
    unfold gpuDispatch at hd
    simp only at hd
    split at hd <;> cases hd <;> rfl
  | getContractData =>
    unfold gpuDispatch at hd
    simp only at hd
    split at hd
    · cases hd
      rfl
    · split_ifs at hd
      · exact halloc _ _ _ hd
      · cases hd
        rfl
      · cases hd
        rfl

/-! ## Well-formed results -/

theorem ValOk.of_const (heap : GpuObjHeap)
    (h : r = SOROBAN_FALSE ∨ r = SOROBAN_TRUE ∨ r = SOROBAN_VOID) : ValOk heap r := by
  rcases h with rfl | rfl | rfl <;>
    exact ⟨fun h => absurd h (by decide), fun h => absurd h (by decide), fun h => (by revert h; decide),
      fun h => (by revert h; decide), fun h => (by revert h; decide)⟩

/-- A `Val` stays well-formed while objects keep their tags. -/
theorem ValOk.mono {heap heap' : GpuObjHeap} {x : Slot} (h : ValOk heap x)
    (hcount : heap.count ≤ heap'.count)
    (htag : ∀ i, i < heap.count → (heap'.entries i).tag = (heap.entries i).tag) : ValOk heap' x := by
  refine ⟨fun hx => ?_, h.u32, h.false_, h.true_, h.void⟩
  obtain ⟨hlt, ht⟩ := h.object hx
  exact ⟨Nat.lt_of_lt_of_le hlt hcount, by rw [htag _ hlt, ht]⟩

/-- A new object is named by a well-formed `Val`. -/
theorem ValOk.makeObj {heap : GpuObjHeap} {h : Nat} {tag : Byte} (hcap : h < GPU_OBJ_CAP)
    (hh : h < heap.count) (htag : (heap.entries h).tag = tag) (hobj : tag ∈ objectTags) :
    ValOk heap (sorobanMakeObj h tag) := by
  have hlt : h < 2 ^ 32 := by
    unfold GPU_OBJ_CAP at hcap
    omega
  have hno : tag ≠ SOROBAN_TAG_U32VAL ∧ tag ≠ 0 ∧ tag ≠ 1 ∧ tag ≠ 2 := by
    revert hobj
    unfold objectTags
    simp only [List.mem_cons, List.not_mem_nil, or_false]
    rintro (rfl | rfl | rfl | rfl | rfl | rfl) <;> decide
  refine ⟨fun _ => ?_, fun h => ?_, fun h => ?_, fun h => ?_, fun h => ?_⟩
  · rw [sorobanHandle_makeObj hlt, sorobanTag_makeObj]
    exact ⟨hh, htag⟩
  · exact absurd ((sorobanTag_makeObj _ _).symm.trans h) hno.1
  · exact absurd ((sorobanTag_makeObj _ _).symm.trans h) hno.2.1
  · exact absurd ((sorobanTag_makeObj _ _).symm.trans h) hno.2.2.1
  · exact absurd ((sorobanTag_makeObj _ _).symm.trans h) hno.2.2.2

/-- Tags are kept by every call, also by a vector built over another object. -/
theorem HeapChange.tags (h : HeapChange s c s' r) :
    s.objHeap.count ≤ s'.objHeap.count ∧
      ∀ i, i < s.objHeap.count → (s'.objHeap.entries i).tag = (s.objHeap.entries i).tag := by
  by_cases hv : c.fn = some .vecNewLm ∧ GPU_OBJ_CAP ≤ s.objHeap.count
  · cases h with
    | const heap _ | word heap _ | seq heap _ _ | stored _ heap _ _ _ =>
      exact ⟨by rw [heap], fun i _ => by rw [heap]⟩
    | alloc e hlt _ _ _ _ => exact absurd hv.2 (by omega)
    | clobber _ _ hcount hentries _ =>
      refine ⟨by omega, fun i _ => ?_⟩
      rw [hentries]
      by_cases hi : i = 0
      · rw [hi, Function.update_self]
        rfl
      · rw [Function.update_of_ne hi]
  · have hk := h.keeps hv
    exact ⟨hk.count, fun i hi => by rw [hk.entries i hi]⟩

/-- The heap is within its capacity, and every stored value is an address or a well-formed `Val`. -/
structure StoreOk (s : GpuHostState) : Prop where
  cap : s.objHeap.count ≤ GPU_OBJ_CAP
  stored : ∀ i, i < s.storage.count →
    s.storage.valLens i = 32 ∨ ValOk s.objHeap (kvReadU64 (s.storage.values i))

theorem kvReadU64_writeBytes (f : Nat → Byte) (x : Slot) :
    kvReadU64 (writeBytes f (kvWriteU64 x)) = x := by
  refine memLoadLe_of_bytes fun i hi => ?_
  rw [Nat.zero_add, writeBytes, kvWriteU64_length, if_pos hi, kvWriteU64_getD hi]

theorem StoreOk.put {key : List Byte} (h : StoreOk s) {x : Slot} (hx : ValOk s.objHeap x)
    (hlen : key.length ≤ GPU_KV_KEY_MAX) :
    StoreOk { s with storage := gpuKvPutRaw s.storage key (valBytes s.objHeap x) } := by
  refine ⟨h.cap, fun j hj => ?_⟩
  by_cases ha : Accepts s.storage key
  · obtain ⟨i, st', hput, hval, hvl, hi, -, hother, -⟩ := putRaw_cases ha hlen (valBytes s.objHeap x)
    simp only [hput, valBytes_take] at hj ⊢
    by_cases hji : j = i
    · simp only [GpuStorage.setValue, hji, Function.update_self]
      unfold valBytes
      split
      · exact .inl (addressBytes_length _ _)
      · right
        rw [kvReadU64_writeBytes]
        exact hx
    · simp only [GpuStorage.setValue, Function.update_of_ne hji, hval, hvl]
      exact h.stored j (hother j hj hji)
  · simp only [putRaw_of_not_accepts ha] at hj ⊢
    exact h.stored j hj

theorem StoreOk.step (h : StoreOk s) (hput : PutOk s c) (hd : Dispatches c s s' r) : StoreOk s' := by
  by_cases hfn : c.fn = some .putContractData
  · obtain ⟨-, rfl⟩ := (put_dispatch hfn).mp hd
    cases hk : kvCanonKey s.objHeap (c.mb.args 0) (storageType (c.mb.args 2)) with
    | none => exact h
    | some key => exact h.put (hput hfn) (kvCanonKey_length hk)
  · have hst := hd.storage_eq hfn
    obtain ⟨hcount, htags⟩ := hd.change.tags
    refine ⟨?_, fun i hi => ?_⟩
    · have hcap := h.cap
      cases hd.change with
      | const heap _ | word heap _ | seq heap _ _ | stored _ heap _ _ _ => rwa [heap]
      | alloc e hlt _ hc _ _ => omega
      | clobber _ _ hc _ _ => omega
    · rw [hst] at hi ⊢
      rcases h.stored i hi with h32 | hok
      · exact .inl h32
      · exact .inr (hok.mono hcount htags)

theorem HostRuns.storeOk (h : HostRuns PutOk {} s) : StoreOk s := by
  induction h with
  | refl => exact ⟨Nat.zero_le _, fun i hi => absurd hi (Nat.not_lt_zero _)⟩
  | tail _ hstep ih =>
    obtain ⟨c, r, hc, hd⟩ := hstep
    exact ih.step hc hd

/-- The ledger sequence number is shifted by 8 instead of 32 bits. -/
theorem seq_not_valOk (heap : GpuObjHeap) :
    ¬ ValOk heap (((100 : Slot) <<< 8) ||| SOROBAN_TAG_U32VAL.setWidth 64) := by
  intro h
  have := h.u32 (by decide) 10 (by decide) (by decide)
  revert this
  decide

/-- A call that does not read a raw integer out of an object returns a well-formed `Val`, except
`get_ledger_sequence`, after any sequence of calls that stored well-formed values. -/
theorem host_results_wellFormed (hrun : HostRuns PutOk {} s) (hd : Dispatches c s s' r)
    (hraw : c.fn ≠ some .objToI128Lo ∧ c.fn ≠ some .objToI128Hi) :
    ValOk s'.objHeap r ↔ c.fn ≠ some .getLedgerSeq := by
  have hs := hrun.storeOk
  obtain ⟨hcount, htags⟩ := hd.change.tags
  constructor
  · intro hok hfn
    obtain ⟨fn, hfn', h⟩ := dispatches_iff.mp hd
    rw [hfn] at hfn'
    cases hfn'
    cases h
    exact seq_not_valOk _ hok
  · intro hfn
    cases hd.change with
    | const heap hr => exact ValOk.of_const _ hr
    | word _ hw => exact absurd hw (not_or.mpr hraw)
    | seq _ hseq _ => exact absurd hseq hfn
    | stored i heap hi h32 hr =>
      rcases hs.stored i hi with h | h
      · exact absurd h h32
      · rw [hr]
        exact h.mono hcount htags
    | alloc e hlt htag hc hentries hr =>
      rw [hr]
      refine ValOk.makeObj hlt (by omega) ?_ htag
      rw [hentries, Function.update_self]
    | clobber _ _ _ _ hr => exact ValOk.of_const _ (.inr (.inr hr))

/-! ## Reading back -/

theorem has_dispatch (hfn : c.fn = some .hasContractData) :
    Dispatches c s s' r ↔ s' = s ∧
      r = if (kvCanonKey s.objHeap (c.mb.args 0) (storageType (c.mb.args 1))).any
          (fun key => (kvFind s.storage key).isSome) then SOROBAN_TRUE else SOROBAN_FALSE := by
  have hhas : gpuDispatch s .hasContractData c.mb.args c.mem c.memSize =
      (s, if (kvCanonKey s.objHeap (c.mb.args 0) (storageType (c.mb.args 1))).any
          (fun key => (kvFind s.storage key).isSome) then SOROBAN_TRUE else SOROBAN_FALSE) := by
    simp only [gpuDispatch, storageType]
    rcases Option.eq_none_or_eq_some
      (kvCanonKey s.objHeap (c.mb.args 0) ((c.mb.args 1).setWidth 8)) with hk | ⟨key, hk⟩
    · simp [hk]
    · simp only [hk, Option.any_some]
  rw [dispatches_iff, hfn]
  constructor
  · rintro ⟨fn, h, hd⟩
    cases h
    rw [hhas] at hd
    cases hd
    exact ⟨rfl, rfl⟩
  · rintro ⟨rfl, rfl⟩
    exact ⟨_, rfl, hhas⟩

/-- What `get_contract_data` makes of the value in entry `i`. -/
def fetch (s : GpuHostState) (i : Nat) : GpuHostState × Slot :=
  if s.storage.valLens i = 32 then
    let p := objAlloc s.objHeap SOROBAN_TAG_ADDRESS_OBJECT 32 (some (s.storage.values i))
    ({ s with objHeap := p.1 }, p.2)
  else if s.storage.valLens i ≥ 8 then (s, kvReadU64 (s.storage.values i))
  else (s, SOROBAN_VOID)

theorem get_dispatch (hfn : c.fn = some .getContractData) :
    Dispatches c s s' r ↔
      (match (kvCanonKey s.objHeap (c.mb.args 0) (storageType (c.mb.args 1))).bind
          (kvFind s.storage) with
        | none => (s, SOROBAN_VOID)
        | some i => fetch s i) = (s', r) := by
  rw [dispatches_iff, hfn]
  have hget : gpuDispatch s .getContractData c.mb.args c.mem c.memSize =
      (match (kvCanonKey s.objHeap (c.mb.args 0) (storageType (c.mb.args 1))).bind
          (kvFind s.storage) with
        | none => (s, SOROBAN_VOID)
        | some i => fetch s i) := by
    unfold gpuDispatch storageType fetch
    rfl
  constructor
  · rintro ⟨fn, h, hd⟩
    cases h
    rw [← hget, hd]
  · intro h
    exact ⟨_, rfl, hget.trans h⟩

/-- Fetching a stored `Val` gives it back; an address needs a free entry in the heap. -/
theorem fetch_readBack {heap : GpuObjHeap} {x : Slot} {i : Nat}
    (hval : (List.range (s.storage.valLens i)).map (s.storage.values i) = valBytes heap x)
    (haddr : sorobanTag x = SOROBAN_TAG_ADDRESS_OBJECT →
      (objGet heap x).isSome = true ∧ s.objHeap.count < GPU_OBJ_CAP) :
    ReadBack heap x s.objHeap (fetch s i).1.objHeap (fetch s i).2 := by
  have hlen : s.storage.valLens i = (valBytes heap x).length := by
    rw [← hval, List.length_map, List.length_range]
  have hbyte : ∀ b, b < (valBytes heap x).length →
      s.storage.values i b = (valBytes heap x).getD b 0 := by
    intro b hb
    rw [← hval]
    rw [← hlen] at hb
    simp [hb]
  unfold ReadBack
  by_cases hx : sorobanTag x = SOROBAN_TAG_ADDRESS_OBJECT
  · obtain ⟨hin, hlt⟩ := haddr hx
    obtain ⟨j, hj⟩ := Option.isSome_iff_exists.mp hin
    have hbytes : valBytes heap x = (List.range 32).map (heap.entries j).data := by
      rw [valBytes, if_pos hx, addressBytes, hj]
    rw [hbytes] at hbyte hlen
    simp only [List.length_map, List.length_range] at hbyte hlen
    rw [if_pos hx, fetch, if_pos hlen]
    simp only [objAlloc, if_neg (Nat.not_le.mpr hlt)]
    refine ⟨j, hj, trivial, Nat.lt_succ_self _, by rw [Function.update_self], fun b hb => ?_⟩
    rw [Function.update_self]
    simp only [GPU_OBJ_BYTES, Nat.min_self, if_pos hb, hbyte b hb]
    simp [hb]
  · have hbytes : valBytes heap x = kvWriteU64 x := by rw [valBytes, if_neg hx]
    rw [hbytes, kvWriteU64_length] at hbyte hlen
    rw [if_neg hx, fetch, if_neg (by omega), if_pos (by omega)]
    refine memLoadLe_of_bytes fun b hb => ?_
    rw [Nat.zero_add, hbyte b hb, kvWriteU64_getD hb]

/-- A value read back from a heap without a free entry is no address object. -/
theorem fetch_full (heap : GpuObjHeap) {x : Slot} {i : Nat}
    (hx : sorobanTag x = SOROBAN_TAG_ADDRESS_OBJECT) (hlen : s.storage.valLens i = 32)
    (hfull : GPU_OBJ_CAP ≤ s.objHeap.count) :
    ¬ ReadBack heap x s.objHeap (fetch s i).1.objHeap (fetch s i).2 := by
  unfold ReadBack
  rw [if_pos hx, fetch, if_pos hlen]
  simp only [objAlloc, if_pos hfull]
  rintro ⟨_, _, hr, -⟩
  have := congrArg sorobanTag hr
  rw [sorobanTag_makeObj] at this
  exact absurd this (by decide)

theorem entry_eq_some {st : GpuStorage} {key bytes : List Byte} (h : st.entry key = some bytes) :
    ∃ i, kvFind st key = some i ∧ (List.range (st.valLens i)).map (st.values i) = bytes := by
  unfold GpuStorage.entry at h
  rw [Option.map_eq_some_iff] at h
  exact h

/-- A ledger write is done just when the key can be built, the store takes it, and an address can be
read and allocated. -/
theorem ledger_write_done_iff (hfn : c.fn = some .putContractData) (hd : Dispatches c s s' r) :
    WriteDone s c s' ↔ Writable s c := by
  obtain ⟨-, rfl⟩ := (put_dispatch hfn).mp hd
  constructor
  · intro h
    have hhas := (has_dispatch rfl).mp (h.has
      { mb := { fnId := 96, args := fun i => if i = 0 then c.mb.args 0 else c.mb.args 2 }
        mem := c.mem, memSize := c.memSize } rfl rfl rfl)
    obtain ⟨s'', r', hget, hread⟩ := h.get
      { mb := { fnId := 97, args := fun i => if i = 0 then c.mb.args 0 else c.mb.args 2 }
        mem := c.mem, memSize := c.memSize } rfl rfl rfl
    rw [get_dispatch rfl] at hget
    simp only [if_true, if_neg (Nat.one_ne_zero)] at hhas hget
    cases hk : kvCanonKey s.objHeap (c.mb.args 0) (storageType (c.mb.args 2)) with
    | none =>
      simp only [hk, Option.any_none] at hhas
      exact absurd hhas.2 (by decide)
    | some key =>
      have hlen := kvCanonKey_length hk
      simp only [hk] at hhas hget hread
      have hacc : Accepts s.storage key := by
        by_contra hno
        have hnone : kvFind s.storage key = none := by
          unfold Accepts at hno
          rw [not_or] at hno
          exact Option.not_isSome_iff_eq_none.mp hno.1
        rw [putRaw_of_not_accepts hno] at hhas
        simp only [Option.any_some, hnone] at hhas
        exact absurd hhas.2 (by decide)
      have hentry := entry_putRaw hacc hlen (valBytes s.objHeap (c.mb.args 1)) key
      rw [if_pos rfl, valBytes_take] at hentry
      obtain ⟨i, hi, hval⟩ := entry_eq_some hentry
      rw [Option.bind_some, hi] at hget
      have hfetch : fetch _ i = (s'', r') := hget
      refine ⟨⟨key, hk, hacc⟩, fun hx => ⟨?_, ?_⟩⟩
      · unfold ReadBack at hread
        rw [if_pos hx] at hread
        obtain ⟨j, hj, -⟩ := hread
        rw [hj]
        rfl
      · by_contra hfull
        have hlen32 : (gpuKvPutRaw s.storage key (valBytes s.objHeap (c.mb.args 1))).valLens i = 32 := by
          have hbytes : (valBytes s.objHeap (c.mb.args 1)).length = 32 := by
            rw [valBytes, if_pos hx, addressBytes_length]
          have := congrArg List.length hval
          rwa [List.length_map, List.length_range, hbytes] at this
        have hno := fetch_full (s := ⟨s.objHeap, gpuKvPutRaw s.storage key
          (valBytes s.objHeap (c.mb.args 1))⟩) s.objHeap hx hlen32 (Nat.not_lt.mp hfull)
        rw [hfetch] at hno
        exact hno hread
  · rintro ⟨⟨key, hk, hacc⟩, haddr⟩
    have hlen := kvCanonKey_length hk
    have hentry := entry_putRaw hacc hlen (valBytes s.objHeap (c.mb.args 1)) key
    rw [if_pos rfl, valBytes_take] at hentry
    obtain ⟨i, hi, hval⟩ := entry_eq_some hentry
    simp only [hk]
    refine ⟨fun c' hc' h0 h1 => ?_, fun c' hc' h0 h1 => ?_, fun key' hne => ?_⟩
    · rw [has_dispatch hc']
      refine ⟨rfl, ?_⟩
      simp only [h0, h1, hk, Option.any_some, hi, Option.isSome_some, if_true]
    · refine ⟨_, _, (get_dispatch hc').mpr ?_, fetch_readBack hval haddr⟩
      simp only [h0, h1, hk, Option.bind_some, hi]
    · rw [entry_putRaw hacc hlen, if_neg]
      rintro rfl
      exact hne hk

/-! ## Later invocations -/

/-- A ledger entry stays as it is while nobody writes it. -/
theorem LedgerStep.entry_eq {key : List Byte} (h : LedgerStep key s s') :
    s'.storage.entry key = s.storage.entry key := by
  cases h with
  | @call _ c r hd hput =>
    by_cases hfn : c.fn = some .putContractData
    · obtain ⟨-, rfl⟩ := (put_dispatch hfn).mp hd
      cases hk : kvCanonKey s.objHeap (c.mb.args 0) (storageType (c.mb.args 2)) with
      | none => rfl
      | some key' =>
        have hne : key ≠ key' := by
          rintro rfl
          exact hput hfn hk
        by_cases hacc : Accepts s.storage key'
        · simp only [entry_putRaw hacc (kvCanonKey_length hk), if_neg hne]
        · simp only [putRaw_of_not_accepts hacc]
    · rw [hd.storage_eq hfn]
  | reset => rfl
  | seed => rfl

theorem LedgerRuns.entry_eq {key : List Byte} (h : LedgerRuns key s s') :
    s'.storage.entry key = s.storage.entry key := by
  induction h with
  | refl => rfl
  | tail _ hstep ih => rw [hstep.entry_eq, ih]

/-- What was read back has the contents of what was stored, if it was no object or an address. -/
theorem ReadBack.sameContents {heap heap' heap'' : GpuObjHeap} {x : Slot}
    (h : ReadBack heap x heap' heap'' r)
    (hx : sorobanTag x ∈ objectTags → sorobanTag x = SOROBAN_TAG_ADDRESS_OBJECT ∧
      (heap.entries (sorobanHandle x)).tag = sorobanTag x ∧ heap'.count < GPU_OBJ_CAP) :
    SameContents heap x heap'' r := by
  unfold SameContents
  unfold ReadBack at h
  by_cases hobj : sorobanTag x ∈ objectTags
  · obtain ⟨haddr, htag, hcap⟩ := hx hobj
    rw [if_pos haddr] at h
    obtain ⟨i, hi, rfl, hlt, htag', hdata⟩ := h
    have hh : sorobanHandle (sorobanMakeObj heap'.count SOROBAN_TAG_ADDRESS_OBJECT) = heap'.count := by
      refine sorobanHandle_makeObj ?_ _
      unfold GPU_OBJ_CAP at hcap
      omega
    have hix : sorobanHandle x = i := by
      unfold objGet at hi
      split_ifs at hi
      exact Option.some.inj hi
    rw [if_pos hobj, sorobanTag_makeObj]
    refine ⟨haddr.symm, i, heap'.count, hi, ?_, ?_, hdata, fun hne => ?_⟩
    · unfold objGet
      rw [hh, if_neg (Nat.not_le.mpr hlt)]
    · rw [htag', ← hix, htag, haddr]
    · rw [← hix, htag] at hne
      exact absurd haddr hne
  · have hne : sorobanTag x ≠ SOROBAN_TAG_ADDRESS_OBJECT := by
      intro h
      exact hobj (h ▸ (by decide))
    rw [if_neg hobj]
    rwa [if_neg hne] at h

/-- A value that is no object, or an address, survives later invocations: reading its ledger entry
gives a `Val` with the same contents, as long as nobody has written the entry and, for an address,
the heap has a free entry. -/
theorem stored_value_survives {c' : HostCall} {s1 s2 s3 : GpuHostState} {r0 : Slot}
    {key : List Byte} (hfn : c.fn = some .putContractData) (hput : Dispatches c s s1 r0)
    (hkey : kvCanonKey s.objHeap (c.mb.args 0) (storageType (c.mb.args 2)) = some key)
    (hacc : Accepts s.storage key)
    (hval : sorobanTag (c.mb.args 1) ∈ objectTags → sorobanHandle (c.mb.args 1) < s.objHeap.count ∧
      (s.objHeap.entries (sorobanHandle (c.mb.args 1))).tag = sorobanTag (c.mb.args 1))
    (hrun : LedgerRuns key s1 s2) (hfn' : c'.fn = some .getContractData)
    (hkey' : kvCanonKey s2.objHeap (c'.mb.args 0) (storageType (c'.mb.args 1)) = some key)
    (hget : Dispatches c' s2 s3 r)
    (hkind : sorobanTag (c.mb.args 1) ∈ objectTags →
      sorobanTag (c.mb.args 1) = SOROBAN_TAG_ADDRESS_OBJECT ∧ s2.objHeap.count < GPU_OBJ_CAP) :
    SameContents s.objHeap (c.mb.args 1) s3.objHeap r := by
  have hentry : s2.storage.entry key = some (valBytes s.objHeap (c.mb.args 1)) := by
    obtain ⟨-, rfl⟩ := (put_dispatch hfn).mp hput
    rw [hrun.entry_eq]
    simp only [hkey, entry_putRaw hacc (kvCanonKey_length hkey), if_true, valBytes_take]
  obtain ⟨i, hi, hbytes⟩ := entry_eq_some hentry
  rw [get_dispatch hfn', hkey', Option.bind_some, hi] at hget
  have hfetch : fetch s2 i = (s3, r) := hget
  have hback : ReadBack s.objHeap (c.mb.args 1) s2.objHeap s3.objHeap r := by
    have := @fetch_readBack s2 s.objHeap (c.mb.args 1) i hbytes fun haddr => by
      have hobj : sorobanTag (c.mb.args 1) ∈ objectTags := haddr ▸ (by decide)
      refine ⟨?_, (hkind hobj).2⟩
      rw [objGet, if_neg (Nat.not_le.mpr (hval hobj).1)]
      rfl
    rwa [hfetch] at this
  exact hback.sameContents fun h => ⟨(hkind h).1, (hval h).2, (hkind h).2⟩

end Call

/-- A `U32Val` stored under itself. -/
def noted : GpuHostState :=
  (gpuDispatch {} .putContractData (fun _ => 0x700000004) (fun _ => 0) 0).1

theorem noted_runs : HostRuns PutOk {} noted := by
  refine .tail .refl ⟨callOf 95 0x700000004, _, fun _ => ?_, dispatches_iff.mpr ⟨_, rfl, rfl⟩⟩
  refine ⟨fun h => absurd h (by decide), fun _ j h8 h32 => ?_, fun h => absurd h (by decide),
    fun h => absurd h (by decide), fun h => absurd h (by decide)⟩
  have : ∀ j, j < 32 → 8 ≤ j → (0x700000004 : Slot).getLsbD j = false := by decide
  exact this j h32 h8

/-- Reading the entry of `noted` gives its `U32Val`, which is well-formed. -/
theorem noted_wellFormed : ∃ s' r, Dispatches (callOf 97 0x700000004) noted s' r ∧
    r = 0x700000004 ∧ ValOk s'.objHeap r := by
  have hget : (gpuDispatch noted .getContractData (fun _ => 0x700000004) (fun _ => 0) 0).2 =
      0x700000004 := by decide +kernel
  have hd : Dispatches (callOf 97 0x700000004) noted _ _ :=
    dispatches_iff.mpr ⟨.getContractData, rfl, Prod.mk.eta.symm⟩
  exact ⟨_, _, hd, hget, (host_results_wellFormed noted_runs hd (by decide)).mpr (by decide)⟩

/-- The result of `get_ledger_sequence` is no `U32Val`. -/
theorem ledgerSeq_not_wellFormed :
    ¬ ∀ s, HostRuns PutOk {} s → ∀ c s' r, Dispatches c s s' r →
      (∀ i, ValOk s.objHeap (c.mb.args i)) → c.fn ≠ some .objToI128Lo ∧ c.fn ≠ some .objToI128Hi →
      ValOk s'.objHeap r := by
  intro h
  have hd : Dispatches (callOf 4 0) {} _ _ := dispatches_iff.mpr ⟨.getLedgerSeq, rfl, rfl⟩
  exact seq_not_valOk _ (h _ .refl _ _ _ hd (fun _ => ValOk.of_const _ (.inl rfl)) (by decide))

/-- Writing a `U32Val` into the empty store is done. -/
theorem noted_written : WriteDone {} (callOf 95 0x700000004) noted := by
  have hd : Dispatches (callOf 95 0x700000004) {} noted SOROBAN_VOID :=
    dispatches_iff.mpr ⟨_, rfl, rfl⟩
  refine (ledger_write_done_iff rfl hd).mpr ⟨⟨_, rfl, .inr (by decide)⟩, fun h => absurd h ?_⟩
  decide

/-- The call that stores `False` under the `U32Val` key `n`. -/
def fillCall (n : Nat) : HostCall where
  mb := { fnId := 95, args := fun i => if i = 0 then sorobanMakeObj n SOROBAN_TAG_U32VAL else 0 }
  mem := fun _ => 0
  memSize := 0

/-- The state after `False` was stored under the first `n` keys. -/
def filled : Nat → GpuHostState
  | 0 => {}
  | n + 1 => (gpuDispatch (filled n) .putContractData (fillCall n).mb.args (fillCall n).mem 0).1

/-- The canonical key of `fillCall n`. -/
def fillKey (n : Nat) : List Byte := 0 :: kvWriteU64 (sorobanMakeObj n SOROBAN_TAG_U32VAL)

theorem fillKey_canon (heap : GpuObjHeap) (n : Nat) :
    kvCanonKey heap ((fillCall n).mb.args 0) (storageType ((fillCall n).mb.args 2)) =
      some (fillKey n) := by
  show kvCanonKey heap (sorobanMakeObj n SOROBAN_TAG_U32VAL) 0 = _
  rw [kvCanonKey, sorobanTag_makeObj, if_neg (by decide), if_neg (by decide), fillKey]

theorem kvWriteU64_inj {x y : Slot} (h : kvWriteU64 x = kvWriteU64 y) : x = y := by
  have hy := kvReadU64_writeBytes (fun _ => 0) y
  rw [← h, kvReadU64_writeBytes] at hy
  exact hy

theorem fillKey_inj {m n : Nat} (hm : m ≤ 16) (hn : n ≤ 16) (h : fillKey m = fillKey n) : m = n := by
  have heq := congrArg sorobanHandle (kvWriteU64_inj (List.cons.inj h).2)
  rwa [sorobanHandle_makeObj (by omega), sorobanHandle_makeObj (by omega)] at heq

theorem filled_step (n : Nat) : Dispatches (fillCall n) (filled n) (filled (n + 1)) SOROBAN_VOID := by
  have hd : Dispatches (fillCall n) (filled n) (filled (n + 1)) _ :=
    dispatches_iff.mpr ⟨_, rfl, Prod.mk.eta.symm⟩
  obtain ⟨hr, hs⟩ := (put_dispatch rfl).mp hd
  exact (put_dispatch rfl).mpr ⟨rfl, hs⟩

theorem filled_runs (n : Nat) : HostRuns (fun _ _ => True) {} (filled n) := by
  induction n with
  | zero => exact .refl
  | succ n ih => exact ih.tail ⟨fillCall n, _, trivial, filled_step n⟩

theorem filled_store {n : Nat} (hn : n ≤ 16) :
    (filled n).storage.count = n ∧
      ∀ m, n ≤ m → m ≤ 16 → kvFind (filled n).storage (fillKey m) = none := by
  induction n with
  | zero => exact ⟨rfl, fun _ _ _ => rfl⟩
  | succ n ih =>
    obtain ⟨hcount, hnone⟩ := ih (by omega)
    obtain ⟨-, hs⟩ := (put_dispatch rfl).mp (filled_step n)
    simp only [fillKey_canon] at hs
    have hnew := hnone n (Nat.le_refl _) (by omega)
    have hlt : (filled n).storage.count < GPU_STORAGE_CAP := by
      rw [hcount]
      unfold GPU_STORAGE_CAP
      omega
    rw [hs, putRaw_new hnew hlt]
    refine ⟨congrArg (· + 1) hcount, fun m hm hm' => ?_⟩
    rw [kvFind_setValue, kvFind_addKey hnew (show 9 ≤ GPU_KV_KEY_MAX by decide), if_neg fun h => ?_]
    · exact hnone m (by omega) hm'
    · have := fillKey_inj hm' (by omega) h
      omega

/-- A write under a seventeenth key is reported as done and lost. -/
theorem filled_write_lost :
    ¬ ∀ s, HostRuns (fun _ _ => True) {} s → ∀ c s' r, c.fn = some .putContractData →
      Dispatches c s s' r → WriteDone s c s' := by
  intro h
  have hdone := h _ (filled_runs 16) _ _ _ rfl (filled_step 16)
  obtain ⟨⟨key, hk, hacc⟩, -⟩ := (ledger_write_done_iff rfl (filled_step 16)).mp hdone
  rw [fillKey_canon] at hk
  cases hk
  obtain ⟨hcount, hnone⟩ := filled_store (Nat.le_refl 16)
  rw [hnone 16 (Nat.le_refl _) (Nat.le_refl _), hcount] at hacc
  exact absurd hacc (by decide)

/-! ## Two invocations -/

/-- The first invocation: an address object with all bytes 9 as its only argument. -/
def firstHeap : GpuHostState :=
  { objHeap := (objAlloc gpuHeapReset SOROBAN_TAG_ADDRESS_OBJECT 32 (some fun _ => 9)).1 }

/-- `put_contract_data` of the object `x` under the key `True`. -/
def putObject (x : Slot) : HostCall where
  mb := { fnId := 95, args := fun i => if i = 1 then x else 1 }
  mem := fun _ => 0
  memSize := 0

theorem dispatches_exists {s : GpuHostState} {c : HostCall} {fn : GpuFn} (hfn : c.fn = some fn) :
    ∃ s' r, Dispatches c s s' r :=
  ⟨_, _, dispatches_iff.mpr ⟨fn, hfn, Prod.mk.eta.symm⟩⟩

/-- The second invocation reads the address of the first one back. -/
theorem firstHeap_survives : ∃ s1 s3 r,
    Dispatches (putObject (sorobanMakeObj 0 SOROBAN_TAG_ADDRESS_OBJECT)) firstHeap s1 SOROBAN_VOID ∧
      Dispatches (callOf 97 1) { s1 with objHeap := gpuHeapReset } s3 r ∧
      SameContents firstHeap.objHeap (sorobanMakeObj 0 SOROBAN_TAG_ADDRESS_OBJECT) s3.objHeap r := by
  obtain ⟨s1, r0, hput⟩ := dispatches_exists (s := firstHeap)
    (c := putObject (sorobanMakeObj 0 SOROBAN_TAG_ADDRESS_OBJECT)) rfl
  obtain ⟨s3, r, hget⟩ := dispatches_exists (s := { s1 with objHeap := gpuHeapReset })
    (c := callOf 97 1) rfl
  obtain ⟨rfl, -⟩ := (put_dispatch rfl).mp hput
  refine ⟨s1, s3, r, hput, hget, ?_⟩
  exact stored_value_survives rfl hput rfl (.inr (by decide)) (fun _ => ⟨by decide, by decide⟩)
    (.tail .refl (.reset _)) rfl rfl hget fun _ => ⟨by decide, show 0 < GPU_OBJ_CAP by decide⟩

/-- An invocation that got an i128 object. -/
def i128Heap : GpuHostState :=
  { objHeap := (objAlloc gpuHeapReset SOROBAN_TAG_I128OBJECT 16 (some fun _ => 1)).1 }

/-- It stored the object, and another invocation got an address. -/
def addressHeap : GpuHostState :=
  let s := (gpuDispatch i128Heap .putContractData
    (putObject (sorobanMakeObj 0 SOROBAN_TAG_I128OBJECT)).mb.args (fun _ => 0) 0).1
  { s with objHeap := (objAlloc gpuHeapReset SOROBAN_TAG_ADDRESS_OBJECT 32 (some fun _ => 9)).1 }

/-- The i128 object is not found by the second invocation. -/
theorem i128_does_not_survive :
    ¬ ∀ (s s1 s2 s3 : GpuHostState) (c c' : HostCall) (r0 r : Slot) (key : List Byte),
      c.fn = some .putContractData → Dispatches c s s1 r0 →
      kvCanonKey s.objHeap (c.mb.args 0) (storageType (c.mb.args 2)) = some key →
      s.storage.count < GPU_STORAGE_CAP → s.objHeap.count < GPU_OBJ_CAP →
      (sorobanTag (c.mb.args 1) ∈ objectTags → sorobanHandle (c.mb.args 1) < s.objHeap.count ∧
        (s.objHeap.entries (sorobanHandle (c.mb.args 1))).tag = sorobanTag (c.mb.args 1)) →
      LedgerRuns key s1 s2 → c'.fn = some .getContractData →
      kvCanonKey s2.objHeap (c'.mb.args 0) (storageType (c'.mb.args 1)) = some key →
      s2.objHeap.count < GPU_OBJ_CAP → Dispatches c' s2 s3 r →
      SameContents s.objHeap (c.mb.args 1) s3.objHeap r := by
  intro h
  have hput : Dispatches (putObject (sorobanMakeObj 0 SOROBAN_TAG_I128OBJECT)) i128Heap _ _ :=
    dispatches_iff.mpr ⟨_, rfl, rfl⟩
  have hget : Dispatches (callOf 97 1) addressHeap _ _ :=
    dispatches_iff.mpr ⟨.getContractData, rfl, Prod.mk.eta.symm⟩
  have hsame := h _ _ addressHeap _ _ _ _ _ _ rfl hput rfl (by decide) (by decide)
    (fun _ => ⟨by decide, by decide⟩)
    (.tail (.tail .refl (.reset _)) (.seed _ SOROBAN_TAG_ADDRESS_OBJECT 32 (some fun _ => 9)))
    rfl rfl (by decide) hget
  rw [SameContents, if_pos (by decide)] at hsame
  obtain ⟨-, i, j, hi, hj, hobj⟩ := hsame
  have hi0 : objGet i128Heap.objHeap (sorobanMakeObj 0 SOROBAN_TAG_I128OBJECT) = some 0 := by decide
  have hj0 : objGet (gpuDispatch addressHeap .getContractData (fun _ => 1) (fun _ => 0) 0).1.objHeap
      (gpuDispatch addressHeap .getContractData (fun _ => 1) (fun _ => 0) 0).2 = some 0 := by
    decide +kernel
  cases Option.some.inj (hi0.symm.trans hi)
  cases Option.some.inj (hj0.symm.trans hj)
  have htag : ((gpuDispatch addressHeap .getContractData (fun _ => 1) (fun _ => 0) 0).1.objHeap.entries
      0).tag ≠ (i128Heap.objHeap.entries 0).tag := by decide +kernel
  exact htag hobj.tag

end CuWasm
