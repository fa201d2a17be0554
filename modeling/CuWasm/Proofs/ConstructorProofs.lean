import CuWasm.Constructors
import CuWasm.Proofs.LedgerProofs

/-!
# Constructors and 128-bit integers

An object is new when it comes out of `obj_alloc`, and the tag and the data bytes of an object are
never written again. What a constructor stores of the guest's slices is compared with what the guest
asked for.
-/

namespace CuWasm

section Alloc

variable {s s' : GpuHostState} {c : HostCall} {r : Slot} {heap : GpuObjHeap}

theorem objAlloc_full (hfull : GPU_OBJ_CAP ≤ heap.count) (tag : Byte) (len : Nat)
    (data : Option (Nat → Byte)) : objAlloc heap tag len data = (heap, SOROBAN_VOID) :=
  if_pos hfull

/-- `obj_alloc` fails with `Void`, or its result names the new object. -/
theorem objAlloc_result (tag : Byte) (len : Nat) (data : Option (Nat → Byte)) :
    (objAlloc heap tag len data).2 = SOROBAN_VOID ∨
      heap.count < GPU_OBJ_CAP ∧
        (objAlloc heap tag len data).2 = sorobanMakeObj heap.count tag := by
  by_cases hfull : GPU_OBJ_CAP ≤ heap.count
  · exact .inl (by rw [objAlloc_full hfull])
  · refine .inr ⟨Nat.not_le.mp hfull, ?_⟩
    unfold objAlloc
    rw [if_neg hfull]

/-- The heap behind an `obj_alloc` that did not fail. -/
theorem objAlloc_room (hlt : heap.count < GPU_OBJ_CAP) (tag : Byte) (len : Nat)
    (data : Option (Nat → Byte)) :
    objAlloc heap tag len data =
      ({ entries := Function.update heap.entries heap.count
          { tag := tag, len := len
            data := match data with
              | none => fun _ => 0
              | some d => fun i => if i < min len GPU_OBJ_BYTES then d i else 0 }
         count := heap.count + 1 }, sorobanMakeObj heap.count tag) :=
  if_neg (Nat.not_le.mpr hlt)

/-- A call that allocates returns `Void` or a handle that was not in use. -/
theorem Allocates.result (h : Allocates s c) (hd : Dispatches c s s' r) :
    r = SOROBAN_VOID ∨
      s.objHeap.count < GPU_OBJ_CAP ∧ ∃ tag, r = sorobanMakeObj s.objHeap.count tag := by
  have halloc : ∀ tag len data, (objAlloc s.objHeap tag len data).2 = r →
      r = SOROBAN_VOID ∨
        s.objHeap.count < GPU_OBJ_CAP ∧ ∃ tag, r = sorobanMakeObj s.objHeap.count tag := by
    intro tag len data hr
    rw [← hr]
    rcases objAlloc_result tag len data with h | ⟨hlt, h⟩
    · exact .inl h
    · exact .inr ⟨hlt, tag, h⟩
  rcases h with hfn | ⟨hfn, key, idx, hkey, hidx, h32⟩
  · obtain ⟨fn, hfn', hd'⟩ := dispatches_iff.mp hd
    rw [hfn'] at hfn
    simp only [List.mem_cons, Option.some.injEq, List.not_mem_nil, or_false] at hfn
    have hr : (gpuDispatch s fn c.mb.args c.mem c.memSize).2 = r := congrArg Prod.snd hd'
    rcases hfn with rfl | rfl | rfl | rfl | rfl | rfl
    · exact halloc _ _ _ hr
    · exact halloc _ _ _ hr
    · refine halloc SOROBAN_TAG_VEC_OBJECT (sorobanHandle (c.mb.args 1)) none ?_
      rw [← hr]
      unfold gpuDispatch
      simp only
      split <;> rfl
    · exact halloc SOROBAN_TAG_MAP_OBJECT 0 none hr
    · exact halloc SOROBAN_TAG_I128OBJECT 16
        (some ((kvWriteU64 (c.mb.args 1) ++ kvWriteU64 (c.mb.args 0)).getD · 0)) hr
    · exact halloc SOROBAN_TAG_ADDRESS_OBJECT 0 none hr
  · rw [get_dispatch hfn, hkey, Option.bind_some, hidx] at hd
    have hr : (fetch s idx).2 = r := congrArg Prod.snd hd
    rw [fetch, if_pos h32] at hr
    exact halloc _ _ _ hr

end Alloc

/-! ## 128-bit integers -/

section I128

variable {s s' s'' : GpuHostState} {c : HostCall} {r hi lo : Slot} {i : Nat}

/-- Only the tag and the data bytes matter. -/
theorem IsI128.congr {heap heap' : GpuObjHeap} (h : IsI128 heap i hi lo)
    (hcount : heap.count ≤ heap'.count) (htag : (heap'.entries i).tag = (heap.entries i).tag)
    (hdata : (heap'.entries i).data = (heap.entries i).data) : IsI128 heap' i hi lo := by
  constructor
  · exact Nat.lt_of_lt_of_le h.inUse hcount
  · rw [htag, h.tag]
  · rw [hdata, h.lo]
  · rw [hdata, h.hi]

/-- No call changes a 128-bit integer: not even a vector built on a full heap writes tags or bytes. -/
theorem HeapChange.keeps_i128 (h : HeapChange s c s' r) (hold : IsI128 s.objHeap i hi lo) :
    IsI128 s'.objHeap i hi lo := by
  cases h with
  | const heap _ | word heap _ | seq heap _ _ | stored _ heap _ _ _ =>
    rw [heap]
    exact hold
  | alloc e hlt _ hcount hentries _ =>
    have hlt' := hold.inUse
    have heq : s'.objHeap.entries i = s.objHeap.entries i := by
      rw [hentries, Function.update_of_ne (by omega)]
    exact hold.congr (by omega) (by rw [heq]) (by rw [heq])
  | clobber _ _ hcount hentries _ =>
    by_cases h0 : i = 0
    · have heq : s'.objHeap.entries i = clobbered s c := by
        rw [hentries, h0, Function.update_self]
      refine hold.congr (by omega) ?_ ?_
      · rw [heq, h0]
        rfl
      · rw [heq, h0]
        rfl
    · have heq : s'.objHeap.entries i = s.objHeap.entries i := by
        rw [hentries, Function.update_of_ne h0]
      exact hold.congr (by omega) (by rw [heq]) (by rw [heq])

theorem HostRuns.keeps_i128 {C : GpuHostState → HostCall → Prop} (h : HostRuns C s s')
    (hold : IsI128 s.objHeap i hi lo) : IsI128 s'.objHeap i hi lo := by
  induction h with
  | refl => exact hold
  | tail _ hstep ih =>
    obtain ⟨c, r, -, hd⟩ := hstep
    exact hd.change.keeps_i128 ih

/-- `obj_from_i128_pieces` on a heap with room builds the integer of its two arguments. -/
theorem fromI128_room (hlt : s.objHeap.count < GPU_OBJ_CAP) (hfn : c.fn = some .objFromI128)
    (hd : Dispatches c s s' r) :
    r = sorobanMakeObj s.objHeap.count SOROBAN_TAG_I128OBJECT ∧
      IsI128 s'.objHeap s.objHeap.count (c.mb.args 0) (c.mb.args 1) := by
  obtain ⟨fn, hfn', hd'⟩ := dispatches_iff.mp hd
  rw [hfn] at hfn'
  cases hfn'
  unfold gpuDispatch at hd'
  simp only [objAlloc_room hlt] at hd'
  cases hd'
  have hbyte : ∀ k, k < 16 → (kvWriteU64 (c.mb.args 1) ++ kvWriteU64 (c.mb.args 0)).getD k 0 =
      if k < 8 then (kvWriteU64 (c.mb.args 1)).getD k 0
      else (kvWriteU64 (c.mb.args 0)).getD (k - 8) 0 := by
    intro k hk
    rw [List.getD_eq_getElem?_getD, List.getElem?_append, kvWriteU64_length]
    split_ifs <;> rw [List.getD_eq_getElem?_getD]
  refine ⟨rfl, Nat.lt_succ_self _, ?_, ?_, ?_⟩
  · simp only [Function.update_self]
  · simp only [Function.update_self]
    refine memLoadLe_of_bytes fun k hk => ?_
    rw [Nat.zero_add, if_pos (show k < min 16 GPU_OBJ_BYTES by unfold GPU_OBJ_BYTES; omega),
      hbyte k (by omega), if_pos hk, kvWriteU64_getD hk]
  · simp only [Function.update_self]
    refine memLoadLe_of_bytes fun k hk => ?_
    rw [if_pos (show 8 + k < min 16 GPU_OBJ_BYTES by unfold GPU_OBJ_BYTES; omega),
      hbyte (8 + k) (by omega), if_neg (by omega), Nat.add_sub_cancel_left, kvWriteU64_getD hk]

/-- The two readers on a handle that names a 128-bit integer. -/
theorem toI128_dispatch (h : IsI128 s.objHeap i hi lo) (hcap : i < 2 ^ 32)
    (harg : c.mb.args 0 = sorobanMakeObj i SOROBAN_TAG_I128OBJECT) :
    (c.fn = some .objToI128Lo → (Dispatches c s s' r ↔ s' = s ∧ r = lo)) ∧
      (c.fn = some .objToI128Hi → (Dispatches c s s' r ↔ s' = s ∧ r = hi)) := by
  have hget : objGet s.objHeap (c.mb.args 0) = some i := by
    rw [harg, objGet, sorobanHandle_makeObj hcap, if_neg (Nat.not_le.mpr h.inUse)]
  have hlo : gpuDispatch s .objToI128Lo c.mb.args c.mem c.memSize = (s, lo) := by
    unfold gpuDispatch
    simp only [hget]
    rw [if_pos h.tag, h.lo]
  have hhi : gpuDispatch s .objToI128Hi c.mb.args c.mem c.memSize = (s, hi) := by
    unfold gpuDispatch
    simp only [hget]
    rw [if_pos h.tag, h.hi]
  have hpair : ∀ x : Slot, ((s, x) = (s', r) ↔ s' = s ∧ r = x) := by
    intro x
    rw [Prod.mk.injEq]
    exact and_congr eq_comm eq_comm
  constructor
  · intro hfn
    rw [dispatches_iff, hfn]
    simp only [Option.some.injEq, exists_eq_left', hlo, hpair]
  · intro hfn
    rw [dispatches_iff, hfn]
    simp only [Option.some.injEq, exists_eq_left', hhi, hpair]

/-- A 128-bit integer built on a heap with room gives its two halves back after any further calls, and
no allocation after them returns its handle. -/
theorem i128_round_trip (hlt : s.objHeap.count < GPU_OBJ_CAP) (hfn : c.fn = some .objFromI128)
    (hd : Dispatches c s s' r) (hrun : HostRuns (fun _ _ => True) s' s'') :
    (∀ c', c'.fn = some .objToI128Lo → c'.mb.args 0 = r →
      ∀ t x, Dispatches c' s'' t x ↔ t = s'' ∧ x = c.mb.args 1) ∧
    (∀ c', c'.fn = some .objToI128Hi → c'.mb.args 0 = r →
      ∀ t x, Dispatches c' s'' t x ↔ t = s'' ∧ x = c.mb.args 0) ∧
    ∀ c' t x, Allocates s'' c' → Dispatches c' s'' t x → x ≠ r := by
  obtain ⟨hr, hnew⟩ := fromI128_room hlt hfn hd
  have hkept := hrun.keeps_i128 hnew
  have hcap : s.objHeap.count < 2 ^ 32 := by
    unfold GPU_OBJ_CAP at hlt
    omega
  refine ⟨fun c' hc' harg t x => ?_, fun c' hc' harg t x => ?_, fun c' t x ha hd' heq => ?_⟩
  · exact (toI128_dispatch hkept hcap (harg.trans hr)).1 hc'
  · exact (toI128_dispatch hkept hcap (harg.trans hr)).2 hc'
  · rw [hr] at heq
    rcases ha.result hd' with hx | ⟨hcount, tag, hx⟩
    · have htag := congrArg sorobanTag (hx.symm.trans heq)
      rw [sorobanTag_makeObj] at htag
      exact absurd htag (by decide)
    · have hh := congrArg sorobanHandle (hx.symm.trans heq)
      have hcap' : s''.objHeap.count < 2 ^ 32 := by
        unfold GPU_OBJ_CAP at hcount
        omega
      rw [sorobanHandle_makeObj hcap', sorobanHandle_makeObj hcap] at hh
      have hinUse := hkept.inUse
      omega

end I128

/-- `obj_from_i128_pieces` of 3 and 5. -/
def i128Call : HostCall where
  mb := { fnId := 17, args := fun i => if i = 0 then 3 else 5 }
  mem := fun _ => 0
  memSize := 0

/-- The lower half is still there after a vector was built. -/
theorem i128_read_after_vec : ∃ s r s' r', Dispatches i128Call {} s r ∧
    Dispatches (callOf 93 (1 <<< 32)) s s' r' ∧ Dispatches (callOf 18 r) s' s' 5 := by
  have hd : Dispatches i128Call {} _ _ := dispatches_iff.mpr ⟨.objFromI128, rfl, Prod.mk.eta.symm⟩
  have hv : Dispatches (callOf 93 (1 <<< 32))
      (gpuDispatch {} .objFromI128 i128Call.mb.args (fun _ => 0) 0).1 _ _ :=
    dispatches_iff.mpr ⟨.vecNewLm, rfl, Prod.mk.eta.symm⟩
  have h := i128_round_trip (by decide) rfl hd (.tail .refl ⟨_, _, trivial, hv⟩)
  exact ⟨_, _, _, _, hd, hv, (h.1 (callOf 18 _) rfl rfl _ _).mpr ⟨rfl, rfl⟩⟩

/-! ## Constructors -/

section Constructors

variable {s s' : GpuHostState} {c : HostCall} {fn : GpuFn} {r : Slot} {heap : GpuObjHeap}

/-- `Void` is no object. -/
theorem not_represents_void : ¬ Represents c fn heap SOROBAN_VOID := by
  rintro ⟨h, -⟩
  cases fn <;> exact absurd h (by decide)

/-- A new object represents the guest's slices when its entry says the same about them. -/
theorem represents_new {e : GpuObjEntry} (hcount : heap.count < GPU_OBJ_CAP)
    (htag : constructorTag fn = some e.tag) :
    Represents c fn ⟨Function.update heap.entries heap.count e, heap.count + 1⟩
        (sorobanMakeObj heap.count e.tag) ↔
      (c.contents fn).isSome ∧ e.contents = c.contents fn := by
  have hlt : heap.count < 2 ^ 32 := by
    unfold GPU_OBJ_CAP at hcount
    omega
  have hget : objGet ⟨Function.update heap.entries heap.count e, heap.count + 1⟩
      (sorobanMakeObj heap.count e.tag) = some heap.count := by
    rw [objGet, sorobanHandle_makeObj hlt, if_neg (by simp)]
  unfold Represents
  rw [sorobanTag_makeObj]
  constructor
  · rintro ⟨-, i, hi, -, hsome, hcont⟩
    rw [hget] at hi
    cases hi
    simp only [Function.update_self] at hcont
    exact ⟨hsome, hcont⟩
  · rintro ⟨hsome, hcont⟩
    refine ⟨htag, _, hget, ?_, hsome, ?_⟩
    · simp only [Function.update_self]
    · simp only [Function.update_self]
      exact hcont

/-- The entry of a new string or symbol holds the slice if it lies in the memory and has at most 32
bytes. -/
theorem bytes_contents {tag : Byte} {ptr len : Nat}
    (htag : tag = SOROBAN_TAG_STRING_OBJECT ∨ tag = SOROBAN_TAG_SYMBOL_OBJECT)
    (hin : ptr + len ≤ c.memSize) :
    GpuObjEntry.contents { tag := tag, len := len
                           data := fun i => if i < min len GPU_OBJ_BYTES then c.mem (ptr + i) else 0 } =
      (guestBytes c.mem c.memSize ptr len).map .bytes ↔ len ≤ GPU_OBJ_BYTES := by
  rw [guestBytes, if_pos hin, GpuObjEntry.contents, if_pos htag]
  by_cases hlen : len ≤ GPU_OBJ_BYTES
  · rw [if_pos hlen]
    refine iff_of_true ?_ hlen
    rw [Option.map_some, Nat.min_eq_left hlen]
    congr 2
    exact List.map_congr_left fun i hi => if_pos (List.mem_range.mp hi)
  · rw [if_neg hlen]
    exact iff_of_false (by simp) hlen

/-- The entry of a new vector holds its slice if it lies in the memory and has at most four words. -/
theorem vals_contents {ptr n : Nat} (hin : ptr + 8 * n ≤ c.memSize) (hmem : c.memSize < 2 ^ 32) :
    GpuObjEntry.contents { tag := SOROBAN_TAG_VEC_OBJECT, len := n
                           elems := vecElems (fun _ => 0) c.mem c.memSize ptr n } =
      (guestWords c.mem c.memSize ptr n).map .vals ↔ n ≤ GPU_VEC_ELEMS := by
  rw [guestWords, if_pos hin, GpuObjEntry.contents, if_neg (show ¬ (SOROBAN_TAG_VEC_OBJECT = _ ∨ _) by
    show ¬ (SOROBAN_TAG_VEC_OBJECT = SOROBAN_TAG_STRING_OBJECT ∨
      SOROBAN_TAG_VEC_OBJECT = SOROBAN_TAG_SYMBOL_OBJECT)
    decide), if_pos rfl]
  by_cases hlen : n ≤ GPU_VEC_ELEMS
  · rw [if_pos hlen]
    refine iff_of_true ?_ hlen
    rw [Option.map_some]
    congr 2
    refine List.map_congr_left fun i hi => ?_
    have hi' : i < n := List.mem_range.mp hi
    -- no address of the slice wraps
    have hoff : (ptr + i * 8) % 2 ^ 32 = ptr + 8 * i := by
      rw [Nat.mod_eq_of_lt (by omega)]
      omega
    unfold vecElems
    simp only [hoff]
    rw [if_pos ⟨by rwa [Nat.min_eq_left hlen], by omega⟩]
  · rw [if_neg hlen]
    exact iff_of_false (by simp) hlen

theorem guestWords_length {mem : Nat → Byte} {memSize pos n : Nat} {xs : List Slot}
    (h : guestWords mem memSize pos n = some xs) : xs.length = n := by
  unfold guestWords at h
  split_ifs at h
  cases h
  simp

/-- The entry of a new map holds the guest's pairs if there are none. -/
theorem pairs_contents (h : (c.contents .mapNewLm).isSome) :
    GpuObjEntry.contents { tag := SOROBAN_TAG_MAP_OBJECT } = c.contents .mapNewLm ↔
      sorobanHandle (c.mb.args 2) = 0 := by
  obtain ⟨cont, hcont⟩ := Option.isSome_iff_exists.mp h
  rw [hcont]
  obtain ⟨ks, hks, hx⟩ := Option.bind_eq_some_iff.mp hcont
  obtain ⟨xs, hxs, rfl⟩ := Option.map_eq_some_iff.mp hx
  obtain ⟨ds, hds, hks⟩ := Option.bind_eq_some_iff.mp hks
  have hlk : ks.length = sorobanHandle (c.mb.args 2) := (mapM_length hks).trans (guestWords_length hds)
  have hlx := guestWords_length hxs
  have hempty : GpuObjEntry.contents { tag := SOROBAN_TAG_MAP_OBJECT } = some (.pairs []) := by decide
  rw [hempty, Option.some.injEq, Contents.pairs.injEq]
  constructor
  · intro hnil
    have hlen := congrArg List.length hnil.symm
    rw [List.length_zip, hlk, hlx, Nat.min_self] at hlen
    exact hlen
  · intro h0
    rw [h0] at hlk
    rw [List.eq_nil_of_length_eq_zero hlk, List.zip_nil_left]

/-- A string or a symbol. -/
theorem bytes_represents {tag : Byte} {ptr len : Nat} (htag : constructorTag fn = some tag)
    (hkind : tag = SOROBAN_TAG_STRING_OBJECT ∨ tag = SOROBAN_TAG_SYMBOL_OBJECT)
    (hcont : c.contents fn = (guestBytes c.mem c.memSize ptr len).map .bytes)
    (hr : objAlloc s.objHeap tag len (guestSlice c.mem c.memSize ptr len) = (s'.objHeap, r)) :
    Represents c fn s'.objHeap r ↔
      s.objHeap.count < GPU_OBJ_CAP ∧ (c.contents fn).isSome ∧ len ≤ GPU_OBJ_BYTES := by
  by_cases hlt : s.objHeap.count < GPU_OBJ_CAP
  · rw [objAlloc_room hlt] at hr
    obtain ⟨hheap, rfl⟩ := Prod.mk.inj hr
    rw [← hheap, represents_new hlt htag]
    by_cases hin : ptr + len ≤ c.memSize
    · have hslice : guestSlice c.mem c.memSize ptr len = some fun i => c.mem (ptr + i) := if_pos hin
      simp only [hslice, hcont, bytes_contents hkind hin, hlt, true_and]
    · have hno : c.contents fn = none := by
        rw [hcont, guestBytes, if_neg hin]
        rfl
      rw [hno]
      exact iff_of_false (fun h => by cases h.1) (fun h => by cases h.2.1)
  · have hvoid : r = SOROBAN_VOID := by
      rw [objAlloc_full (Nat.not_lt.mp hlt)] at hr
      exact (Prod.mk.inj hr).2.symm
    rw [hvoid]
    exact iff_of_false not_represents_void fun h => hlt h.1

/-- A vector on a heap with room. -/
theorem vecNew_room (hlt : s.objHeap.count < GPU_OBJ_CAP) :
    gpuDispatch s .vecNewLm c.mb.args c.mem c.memSize =
      ({ s with objHeap :=
          { entries := Function.update s.objHeap.entries s.objHeap.count
              { tag := SOROBAN_TAG_VEC_OBJECT, len := sorobanHandle (c.mb.args 1)
                elems := vecElems (fun _ => 0) c.mem c.memSize (sorobanHandle (c.mb.args 0))
                  (sorobanHandle (c.mb.args 1)) }
            count := s.objHeap.count + 1 } },
        sorobanMakeObj s.objHeap.count SOROBAN_TAG_VEC_OBJECT) := by
  have hcap : s.objHeap.count < 2 ^ 32 := by
    unfold GPU_OBJ_CAP at hlt
    omega
  unfold gpuDispatch
  simp only [objAlloc_room hlt]
  rw [objGet, sorobanHandle_makeObj hcap, if_neg (by simp)]
  simp only [Function.update_self, Function.update_idem]

/-- What a handled constructor call returns represents the guest's slices just when the heap has room,
the slices lie in the guest memory, and what they hold fits a heap entry. -/
theorem Dispatches.represents_iff (hd : Dispatches c s s' r) (hfn : c.fn = some fn)
    (hctor : (constructorTag fn).isSome) (hmem : c.memSize < 2 ^ 32) :
    Represents c fn s'.objHeap r ↔
      s.objHeap.count < GPU_OBJ_CAP ∧ (c.contents fn).isSome ∧ c.Fits fn := by
  obtain ⟨fn', hfn', hd'⟩ := dispatches_iff.mp hd
  rw [hfn] at hfn'
  cases hfn'
  have halloc : ∀ tag len data, (⟨(objAlloc s.objHeap tag len data).1, s.storage⟩,
      (objAlloc s.objHeap tag len data).2) = (s', r) →
      objAlloc s.objHeap tag len data = (s'.objHeap, r) := by
    intro tag len data h
    cases h
    rfl
  cases fn with
  | strNewLm => exact bytes_represents rfl (.inl rfl) rfl (halloc _ _ _ hd')
  | symNewLm => exact bytes_represents rfl (.inr rfl) rfl (halloc _ _ _ hd')
  | vecNewLm =>
    by_cases hlt : s.objHeap.count < GPU_OBJ_CAP
    · rw [vecNew_room hlt] at hd'
      cases hd'
      rw [represents_new hlt rfl]
      by_cases hin : sorobanHandle (c.mb.args 0) + 8 * sorobanHandle (c.mb.args 1) ≤ c.memSize
      · have hvals := vals_contents hin hmem
        simp only [HostCall.contents, hvals, HostCall.Fits, hlt, true_and]
      · have hno : c.contents .vecNewLm = none := by
          simp only [HostCall.contents, guestWords, if_neg hin, Option.map_none]
        rw [hno]
        exact iff_of_false (fun h => by cases h.1) (fun h => by cases h.2.1)
    · obtain ⟨-, -, hvoid⟩ := vecNew_full (Nat.not_lt.mp hlt) hd'
      rw [hvoid]
      exact iff_of_false not_represents_void fun h => hlt h.1
  | mapNewLm =>
    have hr := halloc SOROBAN_TAG_MAP_OBJECT 0 none hd'
    by_cases hlt : s.objHeap.count < GPU_OBJ_CAP
    · rw [objAlloc_room hlt] at hr
      obtain ⟨hheap, rfl⟩ := Prod.mk.inj hr
      rw [← hheap, represents_new hlt rfl]
      by_cases hsome : (c.contents .mapNewLm).isSome
      · rw [pairs_contents hsome]
        simp only [HostCall.Fits, hlt, true_and]
      · exact iff_of_false (fun h => hsome h.1) fun h => hsome h.2.1
    · have hvoid : r = SOROBAN_VOID := by
        rw [objAlloc_full (Nat.not_lt.mp hlt)] at hr
        exact (Prod.mk.inj hr).2.symm
      rw [hvoid]
      exact iff_of_false not_represents_void fun h => hlt h.1
  | _ => cases hctor

/-- Every constructor call is handled. Its result represents the guest's slices just when the heap has
room, the slices lie in the guest memory, and what they hold fits a heap entry. -/
theorem constructors_represent_iff (hfn : c.fn = some fn) (hctor : (constructorTag fn).isSome)
    (hmem : c.memSize < 2 ^ 32) :
    (∃ s' r, Dispatches c s s' r) ∧
      ((∀ s' r, Dispatches c s s' r → Represents c fn s'.objHeap r) ↔
        s.objHeap.count < GPU_OBJ_CAP ∧ (c.contents fn).isSome ∧ c.Fits fn) := by
  have hd : Dispatches c s _ _ := dispatches_iff.mpr ⟨fn, hfn, Prod.mk.eta.symm⟩
  refine ⟨⟨_, _, hd⟩, fun h => ?_, fun h s' r hd' => ?_⟩
  · exact (hd.represents_iff hfn hctor hmem).mp (h _ _ hd)
  · exact (hd'.represents_iff hfn hctor hmem).mpr h

end Constructors

/-- A constructor call with a position and a length, on a memory of 16 bytes. -/
def sliceCall (fnId : Nat) (pos len : Nat) : HostCall where
  mb := { fnId := fnId
          args := fun i => sorobanMakeObj (if i = 0 then pos else len) SOROBAN_TAG_U32VAL }
  mem := fun i => BitVec.ofNat 8 i
  memSize := 16

/-- A vector of the two words of the memory holds them. -/
theorem two_words_represented :
    (∃ s r, Dispatches (sliceCall 93 0 2) {} s r) ∧
      ∀ s r, Dispatches (sliceCall 93 0 2) {} s r → Represents (sliceCall 93 0 2) .vecNewLm s.objHeap r :=
  have hfn : (sliceCall 93 0 2).fn = some .vecNewLm := rfl
  have h := constructors_represent_iff (s := {}) hfn rfl (by decide)
  ⟨h.1, h.2.mpr ⟨by decide, by decide +kernel, show sorobanHandle _ ≤ 4 by decide +kernel⟩⟩

/-- A string of five bytes behind the end of the memory is built all the same. -/
theorem string_behind_the_end :
    ¬ ∀ s c fn s' r, c.fn = some fn → (constructorTag fn).isSome → c.memSize < 2 ^ 32 →
      Dispatches c s s' r → Represents c fn s'.objHeap r := by
  intro h
  have hd : Dispatches (sliceCall 137 100 5) {} _ _ :=
    dispatches_iff.mpr ⟨.strNewLm, rfl, Prod.mk.eta.symm⟩
  have hrep := h _ _ _ _ _ rfl rfl (by decide) hd
  obtain ⟨-, hsome, -⟩ := (hd.represents_iff rfl rfl (by decide)).mp hrep
  revert hsome
  decide +kernel

end CuWasm
