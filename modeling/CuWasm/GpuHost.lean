import CuWasm.Run

/-!
# The host functions on the GPU

`gpu_host.h`: a per-thread object heap and key/value store behind `gpu_host_dispatch`, and
`gpu_host_run.h`, the CPU driver that runs an export against them.
-/

namespace CuWasm

/-- The numbers `FN_*` of the host functions `gpu_host_dispatch` handles. -/
inductive GpuFn where
  | contractEvent | getLedgerSeq | getCurAddr | objFromI128 | objToI128Lo | objToI128Hi
  | mapNewLm | mapUnpackLm | vecNewLm | putContractData | hasContractData | getContractData
  | extendDataTtl | extendInstTtl | strNewLm | symNewLm | requireAuth
  deriving DecidableEq, Repr

/-- The `switch` labels. -/
def GpuFn.ofId : Nat → Option GpuFn
  | 2 => some .contractEvent
  | 4 => some .getLedgerSeq
  | 8 => some .getCurAddr
  | 17 => some .objFromI128
  | 18 => some .objToI128Lo
  | 19 => some .objToI128Hi
  | 72 => some .mapNewLm
  | 73 => some .mapUnpackLm
  | 93 => some .vecNewLm
  | 95 => some .putContractData
  | 96 => some .hasContractData
  | 97 => some .getContractData
  | 103 => some .extendDataTtl
  | 104 => some .extendInstTtl
  | 137 => some .strNewLm
  | 138 => some .symNewLm
  | 182 => some .requireAuth
  | _ => none

def SOROBAN_TAG_U32VAL : Byte := 4
def SOROBAN_TAG_I128SMALL : Byte := 11
def SOROBAN_TAG_I128OBJECT : Byte := 69
def SOROBAN_TAG_STRING_OBJECT : Byte := 73
def SOROBAN_TAG_SYMBOL_OBJECT : Byte := 74
def SOROBAN_TAG_VEC_OBJECT : Byte := 75
def SOROBAN_TAG_MAP_OBJECT : Byte := 76
def SOROBAN_TAG_ADDRESS_OBJECT : Byte := 77

def SOROBAN_FALSE : Slot := 0
def SOROBAN_TRUE : Slot := 1
def SOROBAN_VOID : Slot := 2

/-- `soroban_make_obj`. -/
def sorobanMakeObj (handle : Nat) (tag : Byte) : Slot :=
  (BitVec.ofNat 64 handle <<< 32) ||| tag.setWidth 64

/-- `soroban_tag`. -/
def sorobanTag (raw : Slot) : Byte := raw.setWidth 8

/-- `soroban_handle`, also the value of a `U32Val`. -/
def sorobanHandle (raw : Slot) : Nat := (raw >>> 32).toNat

/-- `GPU_OBJ_CAP`. -/
def GPU_OBJ_CAP : Nat := 32

/-- `GPU_OBJ_BYTES`. -/
def GPU_OBJ_BYTES : Nat := 32

/-- `GPU_VEC_ELEMS`. -/
def GPU_VEC_ELEMS : Nat := 4

/-- `GPU_STORAGE_CAP`. -/
def GPU_STORAGE_CAP : Nat := 16

/-- `GPU_KV_KEY_MAX`. -/
def GPU_KV_KEY_MAX : Nat := 128

/-- `GPU_KV_VAL_MAX`. -/
def GPU_KV_VAL_MAX : Nat := 32

/-- `struct GpuObjEntry`. -/
structure GpuObjEntry where
  tag : Byte := 0
  len : Nat := 0
  data : Nat → Byte := fun _ => 0
  elems : Nat → Slot := fun _ => 0

/-- `struct GpuObjHeap`. -/
structure GpuObjHeap where
  entries : Nat → GpuObjEntry := fun _ => {}
  count : Nat := 0

/-- `struct GpuStorage`; keys and values are kept with their lengths. -/
structure GpuStorage where
  keys : Nat → Nat → Byte := fun _ _ => 0
  keyLens : Nat → Nat := fun _ => 0
  values : Nat → Nat → Byte := fun _ _ => 0
  valLens : Nat → Nat := fun _ => 0
  count : Nat := 0

/-- `struct GpuHostState`. -/
structure GpuHostState where
  objHeap : GpuObjHeap := {}
  storage : GpuStorage := {}

/-- `obj_alloc`; `data` is `none` for a null pointer. -/
def objAlloc (heap : GpuObjHeap) (tag : Byte) (len : Nat) (data : Option (Nat → Byte)) :
    GpuObjHeap × Slot :=
  if heap.count ≥ GPU_OBJ_CAP then (heap, SOROBAN_VOID)
  else
    let bytes : Nat → Byte := match data with
      | none => fun _ => 0
      | some d => fun i => if i < min len GPU_OBJ_BYTES then d i else 0
    ({ entries := Function.update heap.entries heap.count { tag := tag, len := len, data := bytes }
       count := heap.count + 1 },
      sorobanMakeObj heap.count tag)

/-- `obj_get`: the index of the entry, unless the handle is not in use. -/
def objGet (heap : GpuObjHeap) (raw : Slot) : Option Nat :=
  if sorobanHandle raw ≥ heap.count then none else some (sorobanHandle raw)

/-- `kv_find`: the first entry with the same key bytes. -/
def kvFind (store : GpuStorage) (key : List Byte) : Option Nat :=
  (List.range store.count).find? fun i =>
    store.keyLens i = key.length && (List.range key.length).map (store.keys i) = key

/-- `kv_write_u64`. -/
def kvWriteU64 (x : Slot) : List Byte := (List.range 8).map fun i => (x >>> (8 * i)).setWidth 8

/-- `kv_read_u64`. -/
def kvReadU64 (src : Nat → Byte) : Slot := memLoadLe src 0 8

/-- The 32 bytes of an address object, zeros when its handle is not in use. -/
def addressBytes (heap : GpuObjHeap) (raw : Slot) : List Byte :=
  match objGet heap raw with
  | some i => (List.range 32).map (heap.entries i).data
  | none => List.replicate 32 0

/-- The loop of `kv_canon_key` over the elements of a vector, behind the key bytes `out`. -/
def canonElems (heap : GpuObjHeap) : List Slot → List Byte → Option (List Byte)
  | [], out => some out
  | ev :: evs, out =>
    if sorobanTag ev = SOROBAN_TAG_ADDRESS_OBJECT then
      if out.length + 32 > GPU_KV_KEY_MAX then none
      else canonElems heap evs (out ++ addressBytes heap ev)
    else if out.length + 8 > GPU_KV_KEY_MAX then none
    else canonElems heap evs (out ++ kvWriteU64 ev)

/-- `kv_canon_key`. -/
def kvCanonKey (heap : GpuObjHeap) (keyVal : Slot) (stype : Byte) : Option (List Byte) :=
  if sorobanTag keyVal = SOROBAN_TAG_VEC_OBJECT then
    match objGet heap keyVal with
    | none => none
    | some i =>
      let e := heap.entries i
      canonElems heap ((List.range (min e.len GPU_VEC_ELEMS)).map e.elems) [stype]
  else if sorobanTag keyVal = SOROBAN_TAG_ADDRESS_OBJECT then
    some (stype :: addressBytes heap keyVal)
  else some (stype :: kvWriteU64 keyVal)

/-- Overwrite the first bytes of an array. -/
def writeBytes (f : Nat → Byte) (bytes : List Byte) : Nat → Byte :=
  fun i => if i < bytes.length then bytes.getD i 0 else f i

/-- `gpu_kv_put_raw`. -/
def gpuKvPutRaw (store : GpuStorage) (key val : List Byte) : GpuStorage :=
  let put (store : GpuStorage) (idx : Nat) : GpuStorage :=
    let bytes := val.take GPU_KV_VAL_MAX
    { store with
      values := Function.update store.values idx (writeBytes (store.values idx) bytes)
      valLens := Function.update store.valLens idx bytes.length }
  match kvFind store key with
  | some idx => put store idx
  | none =>
    if store.count ≥ GPU_STORAGE_CAP then store
    else
      let idx := store.count
      put { store with
        count := store.count + 1
        keys := Function.update store.keys idx
          (writeBytes (store.keys idx) (key.take GPU_KV_KEY_MAX))
        keyLens := Function.update store.keyLens idx key.length } idx

/-- `gpu_kv_put_u64`. -/
def gpuKvPutU64 (store : GpuStorage) (key : List Byte) (x : Slot) : GpuStorage :=
  gpuKvPutRaw store key (kvWriteU64 x)

/-- `soroban_i128_small`. -/
def sorobanI128Small (n : Slot) : Slot := (n <<< 8) ||| SOROBAN_TAG_I128SMALL.setWidth 64

def SYM_ADMIN : Slot := 0xca72bb30e
def SYM_BALANCE : Slot := 0xd9b19b3a2a0e

def STOR_PERSISTENT : Byte := 1
def STOR_INSTANCE : Byte := 2

/-- `gpu_seed_admin`. -/
def gpuSeedAdmin (store : GpuStorage) (adminPk : Vector Byte 32) : GpuStorage :=
  gpuKvPutRaw store (STOR_INSTANCE :: kvWriteU64 SYM_ADMIN) adminPk.toList

/-- `gpu_seed_balance`. -/
def gpuSeedBalance (store : GpuStorage) (addrPk : Vector Byte 32) (amount : Slot) : GpuStorage :=
  gpuKvPutU64 store (STOR_PERSISTENT :: (kvWriteU64 SYM_BALANCE ++ addrPk.toList))
    (sorobanI128Small amount)

/-- The guest slice `[ptr, ptr + len)`, or the null pointer the source uses when it is out of
bounds. -/
def guestSlice (mem : Nat → Byte) (memSize ptr len : Nat) : Option (Nat → Byte) :=
  if ptr + len ≤ memSize then some fun i => mem (ptr + i) else none

/-- The elements after the loop of `FN_VEC_NEW_LM`; an offset wraps at 32 bits, an element out of
bounds keeps its old value. -/
def vecElems (old : Nat → Slot) (mem : Nat → Byte) (memSize ptr n : Nat) : Nat → Slot := fun i =>
  let off := (ptr + i * 8) % 2 ^ 32
  if i < min n GPU_VEC_ELEMS ∧ off + 8 ≤ memSize then memLoadLe mem off 8 else old i

/-- `gpu_host_dispatch` for a known function: the new state and the result. -/
def gpuDispatch (state : GpuHostState) (fn : GpuFn) (args : Nat → Slot) (mem : Nat → Byte)
    (memSize : Nat) : GpuHostState × Slot :=
  let heap := state.objHeap
  let alloc (tag : Byte) (len : Nat) (data : Option (Nat → Byte)) : GpuHostState × Slot :=
    let (heap', raw) := objAlloc heap tag len data
    ({ state with objHeap := heap' }, raw)
  let stype (i : Nat) : Byte := (args i).setWidth 8
  match fn with
  | .strNewLm =>
    let ptr := sorobanHandle (args 0)
    let len := sorobanHandle (args 1)
    alloc SOROBAN_TAG_STRING_OBJECT len (guestSlice mem memSize ptr len)
  | .symNewLm =>
    let ptr := sorobanHandle (args 0)
    let len := sorobanHandle (args 1)
    alloc SOROBAN_TAG_SYMBOL_OBJECT len (guestSlice mem memSize ptr len)
  | .vecNewLm =>
    let ptr := sorobanHandle (args 0)
    let n := sorobanHandle (args 1)
    let (heap', raw) := objAlloc heap SOROBAN_TAG_VEC_OBJECT n none
    match objGet heap' raw with
    | none => ({ state with objHeap := heap' }, raw)
    | some h =>
      let old := heap'.entries h
      let new := { old with len := n, elems := vecElems old.elems mem memSize ptr n }
      let heap'' := { heap' with entries := Function.update heap'.entries h new }
      ({ state with objHeap := heap'' }, raw)
  | .mapNewLm => alloc SOROBAN_TAG_MAP_OBJECT 0 none
  | .mapUnpackLm => (state, SOROBAN_VOID)
  | .objFromI128 =>
    let data := kvWriteU64 (args 1) ++ kvWriteU64 (args 0)
    alloc SOROBAN_TAG_I128OBJECT 16 (some (data.getD · 0))
  | .objToI128Lo =>
    match objGet heap (args 0) with
    | some h =>
      (state, if (heap.entries h).tag = SOROBAN_TAG_I128OBJECT then
        memLoadLe (heap.entries h).data 0 8 else 0)
    | none => (state, 0)
  | .objToI128Hi =>
    match objGet heap (args 0) with
    | some h =>
      (state, if (heap.entries h).tag = SOROBAN_TAG_I128OBJECT then
        memLoadLe (heap.entries h).data 8 8 else 0)
    | none => (state, 0)
  | .hasContractData =>
    match kvCanonKey heap (args 0) (stype 1) with
    | none => (state, SOROBAN_FALSE)
    | some key =>
      (state, if (kvFind state.storage key).isSome then SOROBAN_TRUE else SOROBAN_FALSE)
  | .getContractData =>
    match (kvCanonKey heap (args 0) (stype 1)).bind (kvFind state.storage) with
    | none => (state, SOROBAN_VOID)
    | some idx =>
      if state.storage.valLens idx = 32 then
        alloc SOROBAN_TAG_ADDRESS_OBJECT 32 (some (state.storage.values idx))
      else if state.storage.valLens idx ≥ 8 then (state, kvReadU64 (state.storage.values idx))
      else (state, SOROBAN_VOID)
  | .putContractData =>
    match kvCanonKey heap (args 0) (stype 2) with
    | none => (state, SOROBAN_VOID)
    | some key =>
      let x := args 1
      let storage :=
        if sorobanTag x = SOROBAN_TAG_ADDRESS_OBJECT then
          gpuKvPutRaw state.storage key (addressBytes heap x)
        else gpuKvPutU64 state.storage key x
      ({ state with storage := storage }, SOROBAN_VOID)
  | .extendDataTtl | .extendInstTtl | .requireAuth | .contractEvent => (state, SOROBAN_VOID)
  | .getLedgerSeq => (state, ((100 : Slot) <<< 8) ||| SOROBAN_TAG_U32VAL.setWidth 64)
  | .getCurAddr => alloc SOROBAN_TAG_ADDRESS_OBJECT 0 none

/-- `gpu_host_dispatch`: the new state and mailbox, or `none` for an unsupported function. Every
supported function stores one result, whatever the mailbox said before. -/
def gpuHostDispatch (state : GpuHostState) (mb : HostMailbox) (mem : Nat → Byte) (memSize : Nat) :
    Option (GpuHostState × HostMailbox) :=
  match GpuFn.ofId mb.fnId with
  | none => none
  | some fn =>
    let (state', r) := gpuDispatch state fn mb.args mem memSize
    some (state', { mb with nResults := 1, results := Function.update mb.results 0 r })

/-! ## `run_gpu_host` -/

/-- `struct GpuHostRun`. -/
structure GpuHostRun where
  status : Status := .unsupportedOp
  result : Slot := 0
  error : String := ""

/-- How a `run_gpu_host` ends: its value, the machine it leaves behind and the host state. -/
structure GpuHostEnd where
  run : GpuHostRun
  st : VmState
  ar : Arrays
  hs : GpuHostState

/-- The reaction of `run_gpu_host` to a pending host call: its early return, or the state to go on
with. -/
def gpuHostCall (st : VmState) (mb : HostMailbox) (ar : Arrays) (hs : GpuHostState) :
    GpuHostEnd ⊕ (VmState × HostMailbox × Arrays × GpuHostState) :=
  match gpuHostDispatch hs mb ar.mem st.memSize with
  | none =>
    .inl { run := { status := .unsupportedOp, error := "unsupported host fn" }
           st := st, ar := ar, hs := hs }
  | some (hs, mb) =>
    match pushResults mb 0 mb.nResults ar.stack st.sp with
    | none => .inl { run := { status := .trapStackOverflow }, st := st, ar := ar, hs := hs }
    | some (sp, stack) =>
      .inr ({ st with sp := sp, status := .running }, mb, { ar with stack := stack }, hs)

/-- The loop of `run_gpu_host`, for at most the given number of rounds. -/
def gpuHostLoop (m : HostModule) (f : FuncMeta) (maxSteps : Nat) :
    Nat → VmState → HostMailbox → Arrays → GpuHostState → Option GpuHostEnd
  | 0, _, _, _, _ => none
  | n + 1, st, mb, ar, hs =>
    let (st, mb, ar) := runInstance m.cpuViews m.dev st m.memSize mb ar maxSteps
    if st.status ≠ .hostcallPending then
      let result := if f.nResults > 0 ∧ st.sp > 0 then ar.stack 0 else 0
      some { run := { status := st.status, result := result }, st := st, ar := ar, hs := hs }
    else
      match gpuHostCall st mb ar hs with
      | .inl r => some r
      | .inr (st, mb, ar, hs) => gpuHostLoop m f maxSteps n st mb ar hs

/-- `run_gpu_host`; `none` when it has not returned within `rounds` rounds of its loop. -/
def runGpuHost (m : HostModule) (exportName : String) (args : List Slot) (hs : GpuHostState)
    (maxSteps rounds : Nat) : Option GpuHostEnd :=
  match m.findExport exportName with
  | none =>
    some { run := { error := "export not found" }, st := {}, hs := hs
           ar := ⟨fun _ => 0, fun _ => default, fun _ => 0, m.memory, fun _ => 0⟩ }
  | some fi =>
    match m.funcs[fi]? with
    | none => none
    | some f =>
      if args.length ≠ f.nParams then
        some { run := { error := "argc mismatch" }, st := {}, hs := hs
               ar := ⟨fun _ => 0, fun _ => default, fun _ => 0, m.memory, fun _ => 0⟩ }
      else
        gpuHostLoop m f maxSteps rounds (entryState m f maxSteps) {} (m.entryArrays f args) hs

end CuWasm
