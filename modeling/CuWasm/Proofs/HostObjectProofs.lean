import CuWasm.HostObjects

/-!
# Objects and Vals of the GPU host

Every handled call either leaves the heap alone, allocates one object behind the others, or is a
`vec_new_from_linear_memory` on a full heap, which writes into the object with handle 0
(`HeapChange`). Immutability of the objects and well-formedness of the results are read off from
that.
-/

namespace CuWasm

/-! ## Little-endian words -/

theorem memLoadLe_getLsbD (mem : Nat → Byte) (ea n : Nat) {j : Nat} (hj : j < 64) :
    (memLoadLe mem ea n).getLsbD j =
      (decide (j < 8 * n) && (mem (ea + j / 8)).getLsbD (j % 8)) := by
  induction n with
  | zero => simp [memLoadLe]
  | succ n ih =>
    rw [memLoadLe, BitVec.getLsbD_or, ih, BitVec.getLsbD_shiftLeft, BitVec.getLsbD_setWidth]
    by_cases h1 : j < 8 * n
    · simp [h1, hj]
      intro _
      omega
    · by_cases h2 : j < 8 * (n + 1)
      · have h3 : j / 8 = n := by omega
        have h4 : j % 8 = j - 8 * n := by omega
        simp [h1, h2, hj, h3, h4]
        intro _
        omega
      · have : 8 ≤ j - 8 * n := by omega
        simp [h1, h2, hj, BitVec.getLsbD_of_ge _ _ this]

/-- Eight bytes cut from a word give the word back. -/
theorem memLoadLe_of_bytes {mem : Nat → Byte} {ea : Nat} {x : Slot}
    (h : ∀ i, i < 8 → mem (ea + i) = (x >>> (8 * i)).setWidth 8) : memLoadLe mem ea 8 = x := by
  apply BitVec.eq_of_getLsbD_eq
  intro j hj
  rw [memLoadLe_getLsbD _ _ _ hj, h (j / 8) (by omega)]
  have h1 : j < 8 * 8 := hj
  have h2 : j % 8 < 8 := by omega
  have h3 : 8 * (j / 8) + j % 8 = j := by omega
  simp [h1, h2, h3]

@[simp] theorem kvWriteU64_length (x : Slot) : (kvWriteU64 x).length = 8 := rfl

theorem kvWriteU64_getD {x : Slot} {i : Nat} (h : i < 8) :
    (kvWriteU64 x).getD i 0 = (x >>> (8 * i)).setWidth 8 := by
  simp [kvWriteU64, h]

/-! ## Options along a list -/

section MapM

variable {α β : Type} {f : α → Option β}

theorem mapM_cons_some {x : α} {xs : List α} {ys : List β} (h : (x :: xs).mapM f = some ys) :
    ∃ y ys', f x = some y ∧ xs.mapM f = some ys' ∧ ys = y :: ys' := by
  rw [List.mapM_cons] at h
  obtain ⟨y, hy, h⟩ := Option.bind_eq_some_iff.mp h
  obtain ⟨ys', hys, h⟩ := Option.bind_eq_some_iff.mp h
  exact ⟨y, ys', hy, hys, (Option.some.inj h).symm⟩

theorem mapM_length {xs : List α} {ys : List β} (h : xs.mapM f = some ys) :
    ys.length = xs.length := by
  induction xs generalizing ys with
  | nil =>
    cases h
    rfl
  | cons x xs ih =>
    obtain ⟨y, ys, -, hys, rfl⟩ := mapM_cons_some h
    rw [List.length_cons, List.length_cons, ih hys]

end MapM

/-! ## Handles -/

@[simp] theorem sorobanTag_makeObj (h : Nat) (tag : Byte) : sorobanTag (sorobanMakeObj h tag) = tag := by
  unfold sorobanTag sorobanMakeObj
  ext j hj
  simp

theorem sorobanHandle_makeObj {h : Nat} (hh : h < 2 ^ 32) (tag : Byte) :
    sorobanHandle (sorobanMakeObj h tag) = h := by
  unfold sorobanHandle sorobanMakeObj
  have hz : ((tag.setWidth 64 : Slot) >>> 32) = 0#64 := by
    ext j hj
    have : 8 ≤ 32 + j := by omega
    simp [BitVec.getLsbD_of_ge tag _ this]
  have hs : ((BitVec.ofNat 64 h <<< 32 : Slot) >>> 32).toNat = h := by
    rw [BitVec.toNat_ushiftRight, BitVec.toNat_shiftLeft, BitVec.toNat_ofNat,
      Nat.mod_eq_of_lt (show h < 2 ^ 64 by omega), Nat.shiftLeft_eq,
      Nat.mod_eq_of_lt (show h * 2 ^ 32 < 2 ^ 64 by omega), Nat.shiftRight_eq_div_pow]
    exact Nat.mul_div_cancel _ (by decide)
  rw [BitVec.ushiftRight_or_distrib, hz, BitVec.or_zero, hs]

/-- The `Void` that a failed allocation returns has the handle bits 0. -/
theorem sorobanHandle_void : sorobanHandle SOROBAN_VOID = 0 := rfl

/-! ## One call -/

section Call

variable {s s' : GpuHostState} {c : HostCall} {r : Slot}

/-- A handled call runs the function its number stands for. -/
theorem dispatches_iff :
    Dispatches c s s' r ↔ ∃ fn, c.fn = some fn ∧
      gpuDispatch s fn c.mb.args c.mem c.memSize = (s', r) := by
  unfold Dispatches gpuHostDispatch HostCall.fn
  cases GpuFn.ofId c.mb.fnId with
  | none => simp
  | some fn =>
    cases hd : gpuDispatch s fn c.mb.args c.mem c.memSize with
    | mk s1 r1 =>
      constructor
      · rintro ⟨mb, h, rfl⟩
        refine ⟨fn, rfl, ?_⟩
        simp only [hd] at h ⊢
        cases h
        simp
      · rintro ⟨_, h, hd'⟩
        cases h
        rw [hd] at hd'
        cases hd'
        refine ⟨{ c.mb with nResults := 1, results := Function.update c.mb.results 0 r }, ?_, by simp⟩
        simp only [hd]

/-- The object with handle 0 after a vector was built on a full heap. -/
def clobbered (s : GpuHostState) (c : HostCall) : GpuObjEntry :=
  let n := sorobanHandle (c.mb.args 1)
  let e := s.objHeap.entries 0
  { e with
    len := n
    elems := vecElems e.elems c.mem c.memSize (sorobanHandle (c.mb.args 0)) n }

/-- What a handled call does to the heap, and its result. -/
inductive HeapChange (s : GpuHostState) (c : HostCall) (s' : GpuHostState) (r : Slot) : Prop where
  | const (h : s'.objHeap = s.objHeap)
      (hr : r = SOROBAN_FALSE ∨ r = SOROBAN_TRUE ∨ r = SOROBAN_VOID)
  | word (h : s'.objHeap = s.objHeap)
      (hfn : c.fn = some .objToI128Lo ∨ c.fn = some .objToI128Hi)
  | seq (h : s'.objHeap = s.objHeap) (hfn : c.fn = some .getLedgerSeq)
      (hr : r = ((100 : Slot) <<< 8) ||| SOROBAN_TAG_U32VAL.setWidth 64)
  | stored (i : Nat) (h : s'.objHeap = s.objHeap) (hi : i < s.storage.count)
      (h32 : s.storage.valLens i ≠ 32) (hr : r = kvReadU64 (s.storage.values i))
  | alloc (e : GpuObjEntry) (hlt : s.objHeap.count < GPU_OBJ_CAP) (htag : e.tag ∈ objectTags)
      (hcount : s'.objHeap.count = s.objHeap.count + 1)
      (hentries : s'.objHeap.entries = Function.update s.objHeap.entries s.objHeap.count e)
      (hr : r = sorobanMakeObj s.objHeap.count e.tag)
  | clobber (hfn : c.fn = some .vecNewLm) (hfull : GPU_OBJ_CAP ≤ s.objHeap.count)
      (hcount : s'.objHeap.count = s.objHeap.count)
      (hentries : s'.objHeap.entries = Function.update s.objHeap.entries 0 (clobbered s c))
      (hr : r = SOROBAN_VOID)

theorem objAlloc_change (tag : Byte) (len : Nat) (data : Option (Nat → Byte)) (htag : tag ∈ objectTags)
    (h : (⟨(objAlloc s.objHeap tag len data).1, s.storage⟩, (objAlloc s.objHeap tag len data).2) =
      (s', r)) : HeapChange s c s' r := by
  cases h
  by_cases hfull : s.objHeap.count ≥ GPU_OBJ_CAP
  · simp only [objAlloc, if_pos hfull]
    exact .const rfl (.inr (.inr rfl))
  · simp only [objAlloc, if_neg hfull]
    refine .alloc { tag := tag, len := len, data := _ } (Nat.not_le.mp hfull) htag rfl rfl rfl

theorem kvFind_lt {store : GpuStorage} {key : List Byte} {i : Nat} (h : kvFind store key = some i) :
    i < store.count := by
  have := List.mem_of_find?_eq_some h
  exact List.mem_range.mp this

/-- On a full heap the result `Void` of the failed allocation is taken for the handle 0. -/
theorem vecNew_full (hfull : GPU_OBJ_CAP ≤ s.objHeap.count)
    (h : gpuDispatch s .vecNewLm c.mb.args c.mem c.memSize = (s', r)) :
    s'.objHeap.count = s.objHeap.count ∧
      s'.objHeap.entries = Function.update s.objHeap.entries 0 (clobbered s c) ∧
      r = SOROBAN_VOID := by
  have hget : objGet s.objHeap SOROBAN_VOID = some 0 := by
    unfold objGet
    rw [sorobanHandle_void, if_neg (by unfold GPU_OBJ_CAP at hfull; omega)]
  unfold gpuDispatch at h
  simp only [objAlloc, if_pos hfull, hget] at h
  cases h
  exact ⟨rfl, rfl, rfl⟩

theorem vecNew_change (hfn : c.fn = some .vecNewLm)
    (h : gpuDispatch s .vecNewLm c.mb.args c.mem c.memSize = (s', r)) : HeapChange s c s' r := by
  by_cases hfull : s.objHeap.count ≥ GPU_OBJ_CAP
  · obtain ⟨hcount, hentries, hr⟩ := vecNew_full hfull h
    exact .clobber hfn hfull hcount hentries hr
  · have hlt : s.objHeap.count < 2 ^ 32 := by
      unfold GPU_OBJ_CAP at hfull
      omega
    unfold gpuDispatch at h
    simp only [objAlloc, if_neg hfull] at h
    rw [objGet, sorobanHandle_makeObj hlt, if_neg (by simp)] at h
    simp only [Function.update_self, Function.update_idem] at h
    cases h
    exact .alloc { tag := SOROBAN_TAG_VEC_OBJECT, len := _, data := _, elems := _ }
      (Nat.not_le.mp hfull) (show SOROBAN_TAG_VEC_OBJECT ∈ objectTags by decide) rfl rfl rfl

/-- Every handled call is one of the cases of `HeapChange`. -/
theorem Dispatches.change (h : Dispatches c s s' r) : HeapChange s c s' r := by
  obtain ⟨fn, hfn, hd⟩ := dispatches_iff.mp h
  cases fn with
  | vecNewLm => exact vecNew_change hfn hd
  | strNewLm => exact objAlloc_change SOROBAN_TAG_STRING_OBJECT _ _ (by decide) hd
  | symNewLm => exact objAlloc_change SOROBAN_TAG_SYMBOL_OBJECT _ _ (by decide) hd
  | mapNewLm => exact objAlloc_change SOROBAN_TAG_MAP_OBJECT 0 none (by decide) hd
  | objFromI128 =>
    exact objAlloc_change SOROBAN_TAG_I128OBJECT 16
      (some ((kvWriteU64 (c.mb.args 1) ++ kvWriteU64 (c.mb.args 0)).getD · 0)) (by decide) hd
  | getCurAddr => exact objAlloc_change SOROBAN_TAG_ADDRESS_OBJECT 0 none (by decide) hd
  | mapUnpackLm | extendDataTtl | extendInstTtl | requireAuth | contractEvent =>
    cases hd
    exact .const rfl (.inr (.inr rfl))
  | getLedgerSeq =>
    cases hd
    exact .seq rfl hfn rfl
  | objToI128Lo =>
    refine .word ?_ (.inl hfn)
    unfold gpuDispatch at hd
    simp only at hd
    split at hd <;> cases hd <;> rfl
  | objToI128Hi =>
    refine .word ?_ (.inr hfn)
    unfold gpuDispatch at hd
    simp only at hd
    split at hd <;> cases hd <;> rfl
  | hasContractData =>
    unfold gpuDispatch at hd
    simp only at hd
    split at hd
    · cases hd
      exact .const rfl (.inl rfl)
    · cases hd
      refine .const rfl ?_
      split
      · exact .inr (.inl rfl)
      · exact .inl rfl
  | getContractData =>
    unfold gpuDispatch at hd
    simp only at hd
    split at hd
    · cases hd
      exact .const rfl (.inr (.inr rfl))
    · rename_i i hi
      obtain ⟨key, -, hkey⟩ := Option.bind_eq_some_iff.mp hi
      by_cases h32 : s.storage.valLens i = 32
      · rw [if_pos h32] at hd
        exact objAlloc_change SOROBAN_TAG_ADDRESS_OBJECT _ _ (by decide) hd
      · rw [if_neg h32] at hd
        by_cases h8 : s.storage.valLens i ≥ 8
        · rw [if_pos h8] at hd
          cases hd
          exact .stored i rfl (kvFind_lt hkey) h32 rfl
        · rw [if_neg h8] at hd
          cases hd
          exact .const rfl (.inr (.inr rfl))
  | putContractData =>
    unfold gpuDispatch at hd
    simp only at hd
    split at hd
    · cases hd
      exact .const rfl (.inr (.inr rfl))
    · cases hd
      exact .const rfl (.inr (.inr rfl))

/-! ## Immutable objects -/

theorem KeepsObjects.refl (s : GpuHostState) : KeepsObjects s s := ⟨Nat.le_refl _, fun _ _ => rfl⟩

theorem KeepsObjects.trans {s'' : GpuHostState} (h : KeepsObjects s s') (h' : KeepsObjects s' s'') :
    KeepsObjects s s'' := by
  have hle := h.count
  refine ⟨Nat.le_trans h.count h'.count, fun i hi => ?_⟩
  rw [h'.entries i (by omega), h.entries i hi]

/-- A vector built on a full heap leaves the object with handle 0 alone just when that object already
has the new length and elements. -/
theorem clobbered_eq_iff :
    clobbered s c = s.objHeap.entries 0 ↔
      let ptr := sorobanHandle (c.mb.args 0)
      let n := sorobanHandle (c.mb.args 1)
      let e := s.objHeap.entries 0
      e.len = n ∧ ∀ i, i < min n GPU_VEC_ELEMS → (ptr + i * 8) % 2 ^ 32 + 8 ≤ c.memSize →
        memLoadLe c.mem ((ptr + i * 8) % 2 ^ 32) 8 = e.elems i := by
  extract_lets ptr n e
  unfold clobbered
  constructor
  · intro h
    have hlen := congrArg GpuObjEntry.len h
    have helems := congrArg GpuObjEntry.elems h
    refine ⟨hlen.symm, fun i hi hb => ?_⟩
    have hi' := congrFun helems i
    simp only [vecElems] at hi'
    rwa [if_pos ⟨hi, hb⟩] at hi'
  · rintro ⟨hlen, helems⟩
    have hv : vecElems e.elems c.mem c.memSize ptr n = e.elems := by
      funext i
      unfold vecElems
      simp only
      split_ifs with h
      · exact helems i h.1 h.2
      · rfl
    show ({ e with len := n, elems := vecElems e.elems c.mem c.memSize ptr n } : GpuObjEntry) = e
    rw [hv, ← hlen]

theorem clobbers_iff :
    Clobbers s c ↔ c.fn = some .vecNewLm ∧ GPU_OBJ_CAP ≤ s.objHeap.count ∧
      clobbered s c ≠ s.objHeap.entries 0 := by
  unfold Clobbers
  rw [Ne, clobbered_eq_iff]
  simp only [not_and_or, not_forall, exists_prop, ne_eq]

/-- The heap grows by at most one object, and only a vector built on a full heap touches an old one. -/
theorem HeapChange.keeps (h : HeapChange s c s' r)
    (hno : ¬ (c.fn = some .vecNewLm ∧ GPU_OBJ_CAP ≤ s.objHeap.count)) : KeepsObjects s s' := by
  cases h with
  | const heap _ | word heap _ | seq heap _ _ | stored _ heap _ _ _ =>
    exact ⟨by rw [heap], fun i _ => by rw [heap]⟩
  | alloc e hlt _ hcount hentries _ =>
    refine ⟨by omega, fun i hi => ?_⟩
    rw [hentries, Function.update_of_ne (by omega)]
  | clobber hfn hfull _ _ _ => exact absurd ⟨hfn, hfull⟩ hno

/-- A call keeps the objects of the heap unless it builds a vector on a full heap over an object with
other contents. -/
theorem Dispatches.keeps_iff (h : Dispatches c s s' r) : KeepsObjects s s' ↔ ¬ Clobbers s c := by
  rw [clobbers_iff]
  by_cases hv : c.fn = some .vecNewLm ∧ GPU_OBJ_CAP ≤ s.objHeap.count
  · obtain ⟨hfn, hfull⟩ := hv
    obtain ⟨fn, hfn', hd⟩ := dispatches_iff.mp h
    rw [hfn] at hfn'
    cases hfn'
    obtain ⟨hcount, hentries, -⟩ := vecNew_full hfull hd
    constructor
    · intro hk hc
      have h0 := hk.entries 0 (by unfold GPU_OBJ_CAP at hfull; omega)
      rw [hentries, Function.update_self] at h0
      exact hc.2.2 h0
    · intro hc
      have h0 : clobbered s c = s.objHeap.entries 0 := by
        by_contra hne
        exact hc ⟨hfn, hfull, hne⟩
      refine ⟨by omega, fun i _ => ?_⟩
      rw [hentries, h0, Function.update_eq_self]
  · exact iff_of_true (h.change.keeps hv) fun hc => hv ⟨hc.1, hc.2.1⟩

theorem HostRuns.keeps (h : HostRuns (fun s c => ¬ Clobbers s c) s s') : KeepsObjects s s' := by
  induction h with
  | refl => exact KeepsObjects.refl s
  | tail _ hstep ih =>
    obtain ⟨c, r, hc, hd⟩ := hstep
    exact ih.trans (hd.keeps_iff.mpr hc)

end Call

/-- Host objects are immutable as long as no vector is built over another object: one call, and any
sequence of calls. -/
theorem host_objects_immutable (s : GpuHostState) :
    (∀ c s' r, Dispatches c s s' r → (KeepsObjects s s' ↔ ¬ Clobbers s c)) ∧
      ∀ s', HostRuns (fun s c => ¬ Clobbers s c) s s' → KeepsObjects s s' :=
  ⟨fun _ _ _ h => h.keeps_iff, fun _ h => h.keeps⟩

/-- A call of the function with number `fnId` whose arguments are all `x`, with an empty memory. -/
def callOf (fnId : Nat) (x : Slot) : HostCall where
  mb := { fnId := fnId, args := fun _ => x }
  mem := fun _ => 0
  memSize := 0

/-- The state after `n` calls of `map_new_from_linear_memory`. -/
def crowd : Nat → GpuHostState
  | 0 => {}
  | n + 1 => (gpuDispatch (crowd n) .mapNewLm (fun _ => 0) (fun _ => 0) 0).1

theorem crowd_step (n : Nat) : ∃ r, Dispatches (callOf 72 0) (crowd n) (crowd (n + 1)) r :=
  ⟨_, dispatches_iff.mpr ⟨.mapNewLm, rfl, rfl⟩⟩

theorem crowd_count {n : Nat} (h : n ≤ GPU_OBJ_CAP) : (crowd n).objHeap.count = n := by
  induction n with
  | zero => rfl
  | succ n ih =>
    have hlt : ¬ (crowd n).objHeap.count ≥ GPU_OBJ_CAP := by
      rw [ih (by omega)]
      omega
    show ((gpuDispatch (crowd n) .mapNewLm (fun _ => 0) (fun _ => 0) 0).1).objHeap.count = _
    simp only [gpuDispatch, objAlloc, if_neg hlt]
    rw [ih (by omega)]

theorem crowd_runs {C : GpuHostState → HostCall → Prop} (hC : ∀ s, C s (callOf 72 0)) (n : Nat) :
    HostRuns C {} (crowd n) := by
  induction n with
  | zero => exact .refl
  | succ n ih =>
    obtain ⟨r, hr⟩ := crowd_step n
    exact ih.tail ⟨_, r, hC _, hr⟩

/-- Maps do not touch older objects, whether or not there is room for them. -/
theorem crowd_immutable : KeepsObjects (crowd 0) (crowd 40) ∧ KeepsObjects (crowd 3) (crowd 4) := by
  have hC : ∀ s, ¬ Clobbers s (callOf 72 0) := fun s h => by cases h.1
  obtain ⟨r, hr⟩ := crowd_step 3
  exact ⟨(host_objects_immutable _).2 _ (crowd_runs hC 40),
    ((host_objects_immutable _).1 _ _ _ hr).mpr (hC _)⟩

/-- A vector of one element built on the full heap changes the object with handle 0. -/
theorem crowd_clobbered :
    ¬ ∀ s, HostRuns (fun _ _ => True) {} s → ∀ c s' r, Dispatches c s s' r → KeepsObjects s s' := by
  intro h
  have hcap : GPU_OBJ_CAP ≤ (crowd 32).objHeap.count := (crowd_count (n := 32) (by decide)).ge
  have hd : Dispatches (callOf 93 (1 <<< 32)) (crowd 32) _ _ :=
    dispatches_iff.mpr ⟨.vecNewLm, rfl, Prod.mk.eta.symm⟩
  have hk := h _ (crowd_runs (fun _ => trivial) 32) _ _ _ hd
  refine hd.keeps_iff.mp hk ⟨rfl, hcap, Or.inl ?_⟩
  decide +kernel

end CuWasm
