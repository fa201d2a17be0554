import CuWasm.Seeds
import CuWasm.Proofs.ConstructorProofs
import CuWasm.Proofs.KeyProofs

/-!
# Seeded balances are found by the contract's own key

The dispatcher resolves the handles of a balance vector to `balanceKey`, the bytes the seeding wrote.
The entry stays where it is and as it is under everything that does not write its key.
-/

namespace CuWasm

/-! ## The key -/

section Key

variable {pk pk' : Vector Byte 32} {heap : GpuObjHeap} {a k : Slot}

theorem balanceKey_length (pk : Vector Byte 32) : (balanceKey pk).length = 41 := by
  simp [balanceKey]

theorem balanceKey_le (pk : Vector Byte 32) : (balanceKey pk).length ≤ GPU_KV_KEY_MAX := by
  rw [balanceKey_length]
  decide

theorem balanceKey_inj (h : balanceKey pk = balanceKey pk') : pk = pk' := by
  unfold balanceKey at h
  rw [List.cons.injEq, List.append_cancel_left_eq] at h
  exact Vector.toList_inj.mp h.2

theorem IsAddress.bytes (h : IsAddress heap a pk) : addressBytes heap a = pk.toList := by
  obtain ⟨i, hi, -, hdata⟩ := h.object
  rw [addressBytes, hi]
  exact hdata

/-- The canonical key of a balance vector, wherever its objects lie. -/
theorem kvCanonKey_balance (ha : IsAddress heap a pk) (hk : IsBalanceVec heap k a) :
    kvCanonKey heap k STOR_PERSISTENT = some (balanceKey pk) := by
  obtain ⟨i, hi, -, hlen, h0, h1⟩ := hk.object
  rw [kvCanonKey, if_pos hk.tag, hi]
  simp only [hlen]
  show canonElems heap [(heap.entries i).elems 0, (heap.entries i).elems 1] [STOR_PERSISTENT] = _
  rw [h0, h1, canonElems, if_neg (by decide), if_neg (by decide), canonElems, if_pos ha.tag,
    if_neg (by simp [GPU_KV_KEY_MAX]), ha.bytes, canonElems, balanceKey]
  simp

end Key

/-! ## The entry -/

section Entry

variable {st : GpuStorage} {key key' : List Byte} {x : Slot} {i : Nat}

/-- A put under any key leaves an entry where it is. -/
theorem kvFind_putRaw_of_some (hlen : key'.length ≤ GPU_KV_KEY_MAX) (val : List Byte)
    (h : kvFind st key = some i) : kvFind (gpuKvPutRaw st key' val) key = some i := by
  cases hf : kvFind st key' with
  | some j =>
    rw [putRaw_some hf, kvFind_setValue]
    exact h
  | none =>
    by_cases hfull : GPU_STORAGE_CAP ≤ st.count
    · rw [putRaw_full hf hfull]
      exact h
    · have hne : key ≠ key' := by
        rintro rfl
        rw [hf] at h
        cases h
      rw [putRaw_new hf (Nat.not_le.mp hfull), kvFind_setValue, kvFind_addKey hf hlen, if_neg hne]
      exact h

/-- A put under another key leaves an entry as it is. -/
theorem entry_putRaw_of_ne (hlen : key'.length ≤ GPU_KV_KEY_MAX) (val : List Byte)
    (hne : key ≠ key') : (gpuKvPutRaw st key' val).entry key = st.entry key := by
  by_cases ha : Accepts st key'
  · rw [entry_putRaw ha hlen, if_neg hne]
  · rw [putRaw_of_not_accepts ha]

/-- An entry of eight bytes is read as the word that was written. -/
theorem kvReadU64_entry (hi : kvFind st key = some i) (h : st.entry key = some (kvWriteU64 x)) :
    st.valLens i = 8 ∧ kvReadU64 (st.values i) = x := by
  rw [GpuStorage.entry, hi, Option.map_some, Option.some.injEq] at h
  have hlen : st.valLens i = 8 := by
    have hl := congrArg List.length h
    rwa [List.length_map, List.length_range, kvWriteU64_length] at hl
  refine ⟨hlen, memLoadLe_of_bytes fun b hb => ?_⟩
  have hbyte := congrArg (fun l => l.getD b 0) h
  simp only [hlen, kvWriteU64_getD hb] at hbyte
  rw [Nat.zero_add, ← hbyte]
  simp [hb]

end Entry

/-! ## Seeding -/

section Seeds

variable {pk : Vector Byte 32} {amount : Slot} {store : GpuStorage} {i : Nat} {s s' : GpuHostState}

theorem i128Small_toNat (h : amount.toNat < 2 ^ 55) :
    (sorobanI128Small amount).toNat = amount.toNat * 256 + 11 := by
  have hshift : (amount <<< 8).toNat = amount.toNat <<< 8 := by
    rw [BitVec.toNat_shiftLeft, Nat.shiftLeft_eq]
    omega
  have htag : (SOROBAN_TAG_I128SMALL.setWidth 64).toNat = 11 := rfl
  rw [sorobanI128Small, BitVec.toNat_or, hshift, htag, ← Nat.shiftLeft_add_eq_or_of_lt (by decide),
    Nat.shiftLeft_eq]

/-- The amount is what an arithmetic shift leaves of the seeded `Val`. -/
theorem i128Small_sar (h : amount.toNat < 2 ^ 55) :
    (sorobanI128Small amount).sshiftRight 8 = amount := by
  have hn := i128Small_toNat h
  have hmsb : (sorobanI128Small amount).msb = false := by
    rw [BitVec.msb_eq_false_iff_two_mul_lt, hn]
    omega
  rw [BitVec.sshiftRight_eq_of_msb_false hmsb]
  apply BitVec.eq_of_toNat_eq
  rw [BitVec.toNat_ushiftRight, hn, Nat.shiftRight_eq_div_pow]
  omega

/-- The key of a seeding fits, and a seeding that spares an address has another key than its balance. -/
theorem Seed.apply_eq (store : GpuStorage) (sd : Seed) :
    ∃ key val, sd.apply store = gpuKvPutRaw store key val ∧ key.length ≤ GPU_KV_KEY_MAX ∧
      (sd.Spares pk → balanceKey pk ≠ key) := by
  cases sd with
  | admin pk' =>
    refine ⟨STOR_INSTANCE :: kvWriteU64 SYM_ADMIN, pk'.toList, rfl, by decide, fun _ heq => ?_⟩
    have hlen := congrArg List.length heq
    rw [balanceKey_length] at hlen
    exact absurd hlen (by decide)
  | balance pk' amount' =>
    refine ⟨balanceKey pk', kvWriteU64 (sorobanI128Small amount'), rfl, balanceKey_le pk',
      fun h heq => ?_⟩
    exact h (balanceKey_inj heq).symm

/-- Seedings that spare an address keep the entry of its balance. -/
theorem seeds_keep {seeds : List Seed} (hseeds : ∀ sd ∈ seeds, sd.Spares pk)
    (hi : kvFind store (balanceKey pk) = some i) :
    kvFind (seeds.foldl Seed.apply store) (balanceKey pk) = some i ∧
      (seeds.foldl Seed.apply store).entry (balanceKey pk) = store.entry (balanceKey pk) := by
  induction seeds generalizing store with
  | nil => exact ⟨hi, rfl⟩
  | cons sd seeds ih =>
    obtain ⟨key, val, happly, hlen, hne⟩ := @Seed.apply_eq pk store sd
    rw [List.foldl_cons, happly]
    have hfound := kvFind_putRaw_of_some hlen val hi
    obtain ⟨h1, h2⟩ := ih (fun sd' h => hseeds sd' (List.mem_cons_of_mem _ h)) hfound
    exact ⟨h1, h2.trans (entry_putRaw_of_ne hlen val (hne (hseeds sd (List.mem_cons_self ..))))⟩

/-- Calls, new invocations and their arguments leave an entry where it is. -/
theorem LedgerStep.kvFind_eq {key key' : List Byte} (h : LedgerStep key' s s')
    (hi : kvFind s.storage key = some i) : kvFind s'.storage key = some i := by
  cases h with
  | @call _ c r hd hput =>
    by_cases hfn : c.fn = some .putContractData
    · obtain ⟨-, rfl⟩ := (put_dispatch hfn).mp hd
      cases hk : kvCanonKey s.objHeap (c.mb.args 0) (storageType (c.mb.args 2)) with
      | none => exact hi
      | some k => exact kvFind_putRaw_of_some (kvCanonKey_length hk) _ hi
    · rw [hd.storage_eq hfn]
      exact hi
  | reset => exact hi
  | seed => exact hi

theorem LedgerRuns.kvFind_eq {key key' : List Byte} (h : LedgerRuns key' s s')
    (hi : kvFind s.storage key = some i) : kvFind s'.storage key = some i := by
  induction h with
  | refl => exact hi
  | tail _ hstep ih => exact hstep.kvFind_eq ih

end Seeds

/-! ## A contract at work -/

section Contract

variable {pk : Vector Byte 32} {s s' : GpuHostState} {c : HostCall} {a k r x : Slot} {i : Nat}

theorem bal_found {store : GpuStorage} (hfound : kvFind store (balanceKey pk) = some i)
    (hlen : 8 ≤ store.valLens i) : bal store pk = kvReadU64 (store.values i) := by
  have h : kvFind store (STOR_PERSISTENT :: (kvWriteU64 SYM_BALANCE ++ pk.toList)) = some i := hfound
  unfold bal
  rw [h]
  exact if_neg (Nat.not_lt_of_le hlen)

/-- `get_contract_data` under the balance vector reads the word stored there. -/
theorem balance_get (hfound : kvFind s.storage (balanceKey pk) = some i)
    (hentry : s.storage.entry (balanceKey pk) = some (kvWriteU64 x)) (ha : IsAddress s.objHeap a pk)
    (hk : IsBalanceVec s.objHeap k a) (hfn : c.fn = some .getContractData) (h0 : c.mb.args 0 = k)
    (h1 : storageType (c.mb.args 1) = STOR_PERSISTENT) :
    Dispatches c s s' r ↔ s' = s ∧ r = x := by
  obtain ⟨hlen, hread⟩ := kvReadU64_entry hfound hentry
  have hfetch : fetch s i = (s, x) := by
    rw [fetch, if_neg (by omega), if_pos (by omega), hread]
  rw [get_dispatch hfn, h0, h1, kvCanonKey_balance ha hk, Option.bind_some, hfound]
  show fetch s i = (s', r) ↔ _
  rw [hfetch, Prod.mk.injEq]
  exact and_congr eq_comm eq_comm

/-- `put_contract_data` under a balance vector replaces the value of the entry. -/
theorem balance_put (hfound : kvFind s.storage (balanceKey pk) = some i)
    (ha : IsAddress s.objHeap a pk) (hk : IsBalanceVec s.objHeap k a)
    (hfn : c.fn = some .putContractData) (h0 : c.mb.args 0 = k)
    (h2 : storageType (c.mb.args 2) = STOR_PERSISTENT) (hd : Dispatches c s s' r) :
    s'.storage = s.storage.setValue i (valBytes s.objHeap (c.mb.args 1)) := by
  obtain ⟨-, rfl⟩ := (put_dispatch hfn).mp hd
  rw [h0, h2, kvCanonKey_balance ha hk]
  show gpuKvPutRaw s.storage (balanceKey pk) (valBytes s.objHeap (c.mb.args 1)) = _
  rw [putRaw_some hfound, valBytes_take]

/-- A balance vector built from guest memory is one, and the address is still there. -/
theorem BuildsBalanceVec.isBalanceVec (h : BuildsBalanceVec c a) (hlt : s.objHeap.count < GPU_OBJ_CAP)
    (ha : IsAddress s.objHeap a pk) (hd : Dispatches c s s' r) :
    IsBalanceVec s'.objHeap r a ∧ IsAddress s'.objHeap a pk := by
  have hkeep : KeepsObjects s s' := hd.change.keeps fun hc => absurd hc.2 (Nat.not_le.mpr hlt)
  constructor
  · obtain ⟨fn, hfn, hd'⟩ := dispatches_iff.mp hd
    rw [h.fn] at hfn
    cases hfn
    rw [vecNew_room hlt] at hd'
    cases hd'
    have hcap : s.objHeap.count < 2 ^ 32 := by
      unfold GPU_OBJ_CAP at hlt
      omega
    have hfits := h.fits
    have hmem := h.memSize
    have helem : ∀ j, j < 2 → vecElems (fun _ => 0) c.mem c.memSize (sorobanHandle (c.mb.args 0)) 2 j =
        memLoadLe c.mem (sorobanHandle (c.mb.args 0) + j * 8) 8 := by
      intro j hj
      have hoff : (sorobanHandle (c.mb.args 0) + j * 8) % 2 ^ 32 =
          sorobanHandle (c.mb.args 0) + j * 8 := Nat.mod_eq_of_lt (by omega)
      unfold vecElems
      simp only [hoff]
      exact if_pos ⟨by unfold GPU_VEC_ELEMS; omega, by omega⟩
    refine ⟨sorobanTag_makeObj _ _, s.objHeap.count, ?_, ?_, ?_, ?_, ?_⟩
    · rw [objGet, sorobanHandle_makeObj hcap, if_neg (by simp)]
    · simp only [Function.update_self]
    · simp only [Function.update_self]
      exact h.len
    · simp only [Function.update_self, h.len]
      rw [helem 0 (by decide)]
      exact h.symbol
    · simp only [Function.update_self, h.len]
      rw [helem 1 (by decide)]
      exact h.address
  · obtain ⟨j, hj, htag, hdata⟩ := ha.object
    have hlt' : j < s.objHeap.count := by
      unfold objGet at hj
      split_ifs at hj with hc
      cases hj
      exact Nat.not_le.mp hc
    have hcount := hkeep.count
    refine ⟨ha.tag, j, ?_, ?_, ?_⟩
    · unfold objGet at hj ⊢
      split_ifs at hj with hc
      rw [if_neg (by omega)]
      exact hj
    · rw [hkeep.entries j hlt', htag]
    · rw [hkeep.entries j hlt', hdata]

/-- A seeded balance is found under every vector of `SYM_BALANCE` and the address, through further
seedings and calls that do not write it, by the contract and by the benchmark's check; and a put under
a vector with these contents, an old one or a new one, replaces the value of that very entry. -/
theorem seeded_balance_found {amount : Slot} {store : GpuStorage} {seeds : List Seed}
    {heap : GpuObjHeap} (hamount : amount.toNat < 2 ^ 55) (hacc : Accepts store (balanceKey pk))
    (hseeds : ∀ sd ∈ seeds, sd.Spares pk)
    (hrun : LedgerRuns (balanceKey pk)
      ⟨heap, seeds.foldl Seed.apply (gpuSeedBalance store pk amount)⟩ s)
    (ha : IsAddress s.objHeap a pk) (hk : IsBalanceVec s.objHeap k a) :
    (∀ c, c.fn = some .getContractData → c.mb.args 0 = k →
      storageType (c.mb.args 1) = STOR_PERSISTENT →
      ∀ s' r, Dispatches c s s' r ↔ s' = s ∧ r = sorobanI128Small amount) ∧
    (sorobanI128Small amount).sshiftRight 8 = amount ∧
    bal s.storage pk = sorobanI128Small amount ∧
    ∃ idx, kvFind (gpuSeedBalance store pk amount) (balanceKey pk) = some idx ∧
      (∀ c s' r, c.fn = some .putContractData → c.mb.args 0 = k →
        storageType (c.mb.args 2) = STOR_PERSISTENT → Dispatches c s s' r →
        s'.storage = s.storage.setValue idx (valBytes s.objHeap (c.mb.args 1))) ∧
      ∀ b s1 k1, BuildsBalanceVec b a → s.objHeap.count < GPU_OBJ_CAP → Dispatches b s s1 k1 →
        ∀ c s' r, c.fn = some .putContractData → c.mb.args 0 = k1 →
          storageType (c.mb.args 2) = STOR_PERSISTENT → Dispatches c s1 s' r →
          s'.storage = s.storage.setValue idx (valBytes s1.objHeap (c.mb.args 1)) := by
  have hseeded : (gpuSeedBalance store pk amount).entry (balanceKey pk) =
      some (kvWriteU64 (sorobanI128Small amount)) := by
    have h := entry_putRaw hacc (balanceKey_le pk) (kvWriteU64 (sorobanI128Small amount))
      (balanceKey pk)
    rw [if_pos rfl] at h
    exact h
  obtain ⟨idx, hidx, -⟩ := entry_eq_some hseeded
  obtain ⟨hidx', hentry'⟩ := seeds_keep hseeds hidx
  have hfound : kvFind s.storage (balanceKey pk) = some idx := hrun.kvFind_eq hidx'
  have hentry : s.storage.entry (balanceKey pk) = some (kvWriteU64 (sorobanI128Small amount)) := by
    rw [hrun.entry_eq]
    exact hentry'.trans hseeded
  refine ⟨fun c hfn h0 h1 s' r => balance_get hfound hentry ha hk hfn h0 h1, i128Small_sar hamount, ?_,
    idx, hidx, fun c s' r hfn h0 h2 hd => balance_put hfound ha hk hfn h0 h2 hd, ?_⟩
  · obtain ⟨hlen, hread⟩ := kvReadU64_entry hfound hentry
    rw [bal_found hfound (by omega), hread]
  · intro b s1 k1 hb hlt hd1 c s' r hfn h0 h2 hd
    obtain ⟨hk1, ha1⟩ := hb.isBalanceVec hlt ha hd1
    have hst : s1.storage = s.storage := hd1.storage_eq (by rw [hb.fn]; decide)
    rw [← hst] at hfound ⊢
    exact balance_put hfound ha1 hk1 hfn h0 h2 hd

end Contract

/-- A store with the admin and two balances, before a contract whose objects lie behind three maps. -/
def seededState : GpuHostState where
  objHeap := balanceHeap 3
  storage := [.admin (Vector.replicate 32 1), .balance (Vector.replicate 32 7) 5].foldl Seed.apply
    (gpuSeedBalance {} (Vector.replicate 32 9) 1000)

/-- The contract and the benchmark read the balance that was seeded. -/
theorem seeded_thousand :
    Dispatches
        { mb := { fnId := 97
                  args := fun i => if i = 0 then sorobanMakeObj 4 SOROBAN_TAG_VEC_OBJECT else 1 }
          mem := fun _ => 0, memSize := 0 } seededState seededState (sorobanI128Small 1000) ∧
      bal seededState.storage (Vector.replicate 32 9) = sorobanI128Small 1000 := by
  have ha : IsAddress (balanceHeap 3) (sorobanMakeObj 3 SOROBAN_TAG_ADDRESS_OBJECT)
      (Vector.replicate 32 9) := ⟨by decide, 3, by decide, by decide, by decide⟩
  have hk : IsBalanceVec (balanceHeap 3) (sorobanMakeObj 4 SOROBAN_TAG_VEC_OBJECT)
      (sorobanMakeObj 3 SOROBAN_TAG_ADDRESS_OBJECT) :=
    ⟨by decide, 4, by decide, by decide, by decide, by decide, by decide⟩
  have hseeds : ∀ sd ∈ [Seed.admin (Vector.replicate 32 1), .balance (Vector.replicate 32 7) 5],
      sd.Spares (Vector.replicate 32 9) := by
    intro sd hsd
    rcases List.mem_cons.mp hsd with rfl | hsd
    · trivial
    · rw [List.mem_singleton.mp hsd]
      show Vector.replicate 32 7 ≠ Vector.replicate 32 9
      decide
  have hacc : Accepts {} (balanceKey (Vector.replicate 32 9)) := .inr (by decide)
  have hamount : (1000 : Slot).toNat < 2 ^ 55 := by decide
  have h := seeded_balance_found (s := seededState) hamount hacc hseeds .refl ha hk
  exact ⟨(h.1 _ rfl rfl rfl _ _).mpr ⟨rfl, rfl⟩, h.2.2.1⟩

end CuWasm
