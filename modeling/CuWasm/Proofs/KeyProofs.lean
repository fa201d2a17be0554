import CuWasm.Proofs.LedgerProofs

/-!
# Canonical keys

The bytes `kv_canon_key` writes for a regular key are those of its contents, whatever the handles.
Keys of one shape can be told apart by their bytes; keys of different shapes need not be.
-/

namespace CuWasm

section Keys

variable {heap : GpuObjHeap} {x : Slot} {a : Atom}

theorem objectTags_address : SOROBAN_TAG_ADDRESS_OBJECT ∈ objectTags := by decide

/-- The chunk written for plain contents. -/
theorem atomOf_plain (h : atomOf heap x = some a) (hp : a.Plain) :
    (if sorobanTag x = SOROBAN_TAG_ADDRESS_OBJECT then addressBytes heap x else kvWriteU64 x) =
        a.bytes ∧
      a.isAddress = decide (sorobanTag x = SOROBAN_TAG_ADDRESS_OBJECT) ∧
      a.bytes.length = if a.isAddress then 32 else 8 := by
  unfold atomOf at h
  by_cases hobj : sorobanTag x ∈ objectTags
  · rw [if_pos hobj] at h
    cases hi : objGet heap x with
    | none =>
      rw [hi] at h
      cases h
    | some i =>
      rw [hi] at h
      simp only at h
      split_ifs at h with h1 h2
      · cases h
        rw [not_or, not_not] at h1
        have hx : sorobanTag x = SOROBAN_TAG_ADDRESS_OBJECT := h1.1.symm.trans h2
        rw [if_pos hx, addressBytes, hi]
        exact ⟨rfl, by simp [Atom.isAddress, hx], by simp [Atom.bytes, Atom.isAddress, GPU_OBJ_BYTES]⟩
      · cases h
        exact hp.elim
  · rw [if_neg hobj] at h
    cases h
    have hx : sorobanTag x ≠ SOROBAN_TAG_ADDRESS_OBJECT := fun h => hobj (h ▸ objectTags_address)
    rw [if_neg hx]
    exact ⟨rfl, by simp [Atom.isAddress, hx], rfl⟩

/-- The loop over the elements of a vector writes the bytes of their contents, if they fit. -/
theorem canonElems_plain {evs : List Slot} {as : List Atom}
    (h : evs.mapM (atomOf heap) = some as) (hp : ∀ a ∈ as, a.Plain) (out : List Byte)
    (hfit : out.length + (8 * as.length + 24 * as.countP Atom.isAddress) ≤ GPU_KV_KEY_MAX) :
    canonElems heap evs out = some (out ++ as.flatMap Atom.bytes) ∧
      ∀ a ∈ as, a.bytes.length = if a.isAddress then 32 else 8 := by
  induction evs generalizing as out with
  | nil =>
    cases h
    exact ⟨by simp [canonElems], by simp⟩
  | cons ev evs ih =>
    obtain ⟨a, as, ha, has, rfl⟩ := mapM_cons_some h
    obtain ⟨hbytes, haddr, hlen⟩ := atomOf_plain ha (hp a (List.mem_cons_self ..))
    rw [List.length_cons, List.countP_cons] at hfit
    have hfit' : (out ++ a.bytes).length + (8 * as.length + 24 * as.countP Atom.isAddress) ≤
        GPU_KV_KEY_MAX := by
      rw [List.length_append, hlen]
      split_ifs at hfit ⊢ <;> omega
    obtain ⟨hrest, hb⟩ := ih has (fun b hb => hp b (List.mem_cons_of_mem _ hb)) _ hfit'
    refine ⟨?_, ?_⟩
    · rw [canonElems, List.flatMap_cons, ← List.append_assoc, ← hrest, ← hbytes]
      by_cases hx : sorobanTag ev = SOROBAN_TAG_ADDRESS_OBJECT
      · rw [decide_eq_true hx] at haddr
        rw [haddr, if_pos rfl] at hfit
        simp only [if_pos hx]
        rw [if_neg (by omega)]
      · simp only [if_neg hx]
        rw [if_neg (by omega)]
    · intro b hb'
      rcases List.mem_cons.mp hb' with rfl | hb'
      · exact hlen
      · exact hb b hb'

/-- The parts of a key. -/
def Key.parts : Key → List Atom
  | .atom a => [a]
  | .vec _ elems => elems

/-- Every part of the key has the length of its kind, and a vector has all its elements. -/
structure Key.Chunked (c : Key) : Prop where
  parts : ∀ a ∈ c.parts, a.bytes.length = if a.isAddress then 32 else 8
  len : ∀ n as, c = .vec n as → as.length = n

/-- The canonical key of a regular key does not depend on its handles. -/
theorem kvCanonKey_regular {k : Slot} {c : Key} (h : keyOf heap k = some c) (hr : c.Regular)
    (t : Byte) : kvCanonKey heap k t = some (t :: c.bytes) ∧ c.Chunked := by
  unfold keyOf at h
  by_cases hv : sorobanTag k = SOROBAN_TAG_VEC_OBJECT
  · rw [if_pos hv] at h
    rw [kvCanonKey, if_pos hv]
    cases hi : objGet heap k with
    | none =>
      rw [hi] at h
      cases h
    | some i =>
      rw [hi] at h
      simp only at h ⊢
      split_ifs at h
      obtain ⟨as, has, rfl⟩ := Option.map_eq_some_iff.mp h
      obtain ⟨hle, hp, hcount⟩ := hr
      have hlen' := mapM_length has
      rw [List.length_map, List.length_range, Nat.min_eq_left hle] at hlen'
      have hfit : [t].length + (8 * as.length + 24 * as.countP Atom.isAddress) ≤ GPU_KV_KEY_MAX := by
        rw [List.length_singleton]
        unfold GPU_KV_KEY_MAX
        unfold GPU_VEC_ELEMS at hle
        omega
      obtain ⟨hc, hb⟩ := canonElems_plain has hp [t] hfit
      refine ⟨hc, hb, ?_⟩
      rintro n as' heq
      cases heq
      exact hlen'
  · rw [if_neg hv] at h
    obtain ⟨a, ha, rfl⟩ := Option.map_eq_some_iff.mp h
    obtain ⟨hbytes, haddr, hlen⟩ := atomOf_plain ha hr
    rw [kvCanonKey, if_neg hv]
    refine ⟨?_, ?_, fun n as h => by cases h⟩
    · show _ = some (t :: a.bytes)
      rw [← hbytes]
      split_ifs <;> rfl
    · intro b hb
      rw [List.mem_singleton.mp hb]
      exact hlen

/-- Parts of the same kinds with the same bytes are the same. -/
theorem flatMap_bytes_inj {as bs : List Atom} (hp : ∀ a ∈ as, a.Plain) (hq : ∀ b ∈ bs, b.Plain)
    (ha : ∀ a ∈ as, a.bytes.length = if a.isAddress then 32 else 8)
    (hb : ∀ b ∈ bs, b.bytes.length = if b.isAddress then 32 else 8)
    (hkind : as.map Atom.isAddress = bs.map Atom.isAddress)
    (h : as.flatMap Atom.bytes = bs.flatMap Atom.bytes) : as = bs := by
  induction as generalizing bs with
  | nil =>
    cases bs with
    | nil => rfl
    | cons b bs => cases hkind
  | cons a as ih =>
    cases bs with
    | nil => cases hkind
    | cons b bs =>
      obtain ⟨hk, hks⟩ := List.cons.inj hkind
      have hla := ha a (List.mem_cons_self ..)
      have hlb := hb b (List.mem_cons_self ..)
      rw [hk] at hla
      rw [List.flatMap_cons, List.flatMap_cons] at h
      obtain ⟨h1, h2⟩ := List.append_inj h (hla.trans hlb.symm)
      have hpa := hp a (List.mem_cons_self ..)
      have hqb := hq b (List.mem_cons_self ..)
      have hab : a = b := by
        cases a with
        | small x =>
          cases b with
          | small y => rw [kvWriteU64_inj h1]
          | address _ => cases hk
          | blob _ _ _ => exact hqb.elim
        | address _ =>
          cases b with
          | small _ => cases hk
          | address _ => exact congrArg Atom.address h1
          | blob _ _ _ => exact hqb.elim
        | blob _ _ _ => exact hpa.elim
      rw [hab, ih (fun c hc => hp c (List.mem_cons_of_mem _ hc))
        (fun c hc => hq c (List.mem_cons_of_mem _ hc)) (fun c hc => ha c (List.mem_cons_of_mem _ hc))
        (fun c hc => hb c (List.mem_cons_of_mem _ hc)) hks h2]

theorem Key.Regular.parts {c : Key} (h : c.Regular) : ∀ a ∈ c.parts, a.Plain := by
  cases c with
  | atom a =>
    intro b hb
    rw [List.mem_singleton.mp hb]
    exact h
  | vec n as => exact h.2.1

/-- Regular keys of one shape are told apart by their bytes. -/
theorem key_eq_of_bytes {c d : Key} (hc : c.Regular) (hd : d.Regular) (hc' : c.Chunked)
    (hd' : d.Chunked) (hshape : c.shape = d.shape) (h : c.bytes = d.bytes) : c = d := by
  have hparts : ∀ e : Key, e.bytes = e.parts.flatMap Atom.bytes ∧
      e.shape.2 = e.parts.map Atom.isAddress := by
    intro e
    cases e with
    | atom a => exact ⟨by simp [Key.bytes, Key.parts], rfl⟩
    | vec n as => exact ⟨rfl, rfl⟩
  have hps : c.parts = d.parts := by
    refine flatMap_bytes_inj hc.parts hd.parts hc'.parts hd'.parts ?_ ?_
    · rw [← (hparts c).2, ← (hparts d).2, hshape]
    · rw [← (hparts c).1, ← (hparts d).1, h]
  cases c with
  | atom a =>
    cases d with
    | atom b =>
      cases hps
      rfl
    | vec n as => cases hshape
  | vec n as =>
    cases d with
    | atom b => cases hshape
    | vec k bs =>
      have hn := hc'.len n as rfl
      have hk := hd'.len k bs rfl
      have : as = bs := hps
      rw [← hn, ← hk, this]

end Keys

/-- Two regular keys: the canonical keys agree just when types and contents do, unless keys of
different shapes happen to have the same bytes. -/
theorem canonical_keys_iff {heap heap' : GpuObjHeap} {k k' : Slot} {c c' : Key}
    (hk : keyOf heap k = some c) (hk' : keyOf heap' k' = some c') (hr : c.Regular) (hr' : c'.Regular)
    (t t' : Byte) :
    ((∃ key, kvCanonKey heap k t = some key ∧ kvCanonKey heap' k' t' = some key) ↔
        t = t' ∧ c = c') ↔ (c.shape = c'.shape ∨ t ≠ t' ∨ c.bytes ≠ c'.bytes) := by
  obtain ⟨hcanon, hch⟩ := kvCanonKey_regular hk hr t
  obtain ⟨hcanon', hch'⟩ := kvCanonKey_regular hk' hr' t'
  have hsame : (∃ key, kvCanonKey heap k t = some key ∧ kvCanonKey heap' k' t' = some key) ↔
      t = t' ∧ c.bytes = c'.bytes := by
    rw [hcanon, hcanon']
    constructor
    · rintro ⟨key, h1, h2⟩
      exact List.cons.inj (Option.some.inj (h1.trans h2.symm))
    · rintro ⟨rfl, h⟩
      exact ⟨_, rfl, by rw [h]⟩
  rw [hsame]
  constructor
  · intro h
    by_contra hno
    rw [not_or, not_or, not_not, not_not] at hno
    obtain ⟨hshape, ht, hb⟩ := hno
    exact hshape (by rw [(h.mp ⟨ht, hb⟩).2])
  · intro h
    constructor
    · rintro ⟨ht, hb⟩
      rcases h with h | h | h
      · exact ⟨ht, key_eq_of_bytes hr hr' hch hch' h hb⟩
      · exact absurd ht h
      · exact absurd hb h
    · rintro ⟨ht, rfl⟩
      exact ⟨ht, rfl⟩

/-- The heap of a balance query: maps in front, an address, and a vector of a symbol and it. -/
def balanceHeap (n : Nat) : GpuObjHeap where
  entries := fun i =>
    if i = n then { tag := SOROBAN_TAG_ADDRESS_OBJECT, len := 32, data := fun _ => 9 }
    else if i = n + 1 then
      { tag := SOROBAN_TAG_VEC_OBJECT, len := 2
        elems := fun j => if j = 0 then 0xd9b19b3a2a0e else
          sorobanMakeObj n SOROBAN_TAG_ADDRESS_OBJECT }
    else { tag := SOROBAN_TAG_MAP_OBJECT }
  count := n + 2

/-- The balance key of one address is the same under other handles. -/
theorem balance_key_stable : ∃ key,
    kvCanonKey (balanceHeap 0) (sorobanMakeObj 1 SOROBAN_TAG_VEC_OBJECT) 1 = some key ∧
      kvCanonKey (balanceHeap 3) (sorobanMakeObj 4 SOROBAN_TAG_VEC_OBJECT) 1 = some key := by
  have h0 : keyOf (balanceHeap 0) (sorobanMakeObj 1 SOROBAN_TAG_VEC_OBJECT) =
      some (.vec 2 [.small 0xd9b19b3a2a0e, .address (List.replicate 32 9)]) := by decide +kernel
  have h3 : keyOf (balanceHeap 3) (sorobanMakeObj 4 SOROBAN_TAG_VEC_OBJECT) =
      some (.vec 2 [.small 0xd9b19b3a2a0e, .address (List.replicate 32 9)]) := by decide +kernel
  have hreg : (Key.vec 2 [.small 0xd9b19b3a2a0e, .address (List.replicate 32 9)]).Regular := by
    refine ⟨by decide, fun a ha => ?_, by decide⟩
    rcases List.mem_cons.mp ha with rfl | ha
    · trivial
    · rw [List.mem_singleton.mp ha]
      trivial
  exact ((canonical_keys_iff h0 h3 hreg hreg 1 1).mpr (.inl rfl)).mpr ⟨rfl, rfl⟩

/-- `symbol_new_from_linear_memory` of the one byte 7. -/
def symbolCall : HostCall where
  mb := { fnId := 138, args := fun i => if i = 0 then 4 else 0x100000004 }
  mem := fun _ => 7
  memSize := 16

/-- The same symbol, built behind a map, has another canonical key. -/
theorem symbol_key_unstable :
    ¬ ∀ s s', HostRuns (fun _ _ => True) {} s → HostRuns (fun _ _ => True) {} s' →
      ∀ k k' c c' t t', keyOf s.objHeap k = some c → keyOf s'.objHeap k' = some c' →
        ((∃ key, kvCanonKey s.objHeap k t = some key ∧ kvCanonKey s'.objHeap k' t' = some key) ↔
          t = t' ∧ c = c') := by
  intro h
  have h0 : Dispatches symbolCall {} _ _ := dispatches_iff.mpr ⟨_, rfl, rfl⟩
  have h1 : Dispatches symbolCall (crowd 1) _ _ := dispatches_iff.mpr ⟨_, rfl, rfl⟩
  have hiff := h _ _ (.tail .refl ⟨_, _, trivial, h0⟩)
    ((crowd_runs (fun _ => trivial) 1).tail ⟨_, _, trivial, h1⟩)
    (sorobanMakeObj 0 SOROBAN_TAG_SYMBOL_OBJECT) (sorobanMakeObj 1 SOROBAN_TAG_SYMBOL_OBJECT)
    (.atom (.blob SOROBAN_TAG_SYMBOL_OBJECT 1 (7 :: List.replicate 31 0)))
    (.atom (.blob SOROBAN_TAG_SYMBOL_OBJECT 1 (7 :: List.replicate 31 0))) 1 1
    (by decide +kernel) (by decide +kernel)
  obtain ⟨key, hk, hk'⟩ := hiff.mpr ⟨rfl, rfl⟩
  have hne : kvCanonKey (gpuDispatch {} .symNewLm symbolCall.mb.args symbolCall.mem 16).1.objHeap
      (sorobanMakeObj 0 SOROBAN_TAG_SYMBOL_OBJECT) 1 ≠
    kvCanonKey (gpuDispatch (crowd 1) .symNewLm symbolCall.mb.args symbolCall.mem 16).1.objHeap
      (sorobanMakeObj 1 SOROBAN_TAG_SYMBOL_OBJECT) 1 := by decide +kernel
  exact hne (hk.trans hk'.symm)

end CuWasm
