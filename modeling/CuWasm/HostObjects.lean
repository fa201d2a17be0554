import CuWasm.GpuHost
import Mathlib.Logic.Relation

/-!
# What the host objects and the ledger are for

Sequences of `gpu_host_dispatch` calls, and what a contract relies on while it makes them: an object
stays what it was when it was allocated, a `Val` that a call returns names what its tag says, and a
ledger entry that was written can be read back, also by a later invocation with a heap of its own.
-/

namespace CuWasm

/-- The arguments of a `gpu_host_dispatch` call besides the state. -/
structure HostCall where
  mb : HostMailbox
  mem : Nat → Byte
  memSize : Nat

/-- The function a call asks for. -/
def HostCall.fn (c : HostCall) : Option GpuFn := GpuFn.ofId c.mb.fnId

/-- A call that `gpu_host_dispatch` handles leads from `s` to `s'` with the result `r`. -/
def Dispatches (c : HostCall) (s s' : GpuHostState) (r : Slot) : Prop :=
  ∃ mb, gpuHostDispatch s c.mb c.mem c.memSize = some (s', mb) ∧ mb.results 0 = r

/-- A sequence of handled calls, each of which satisfies `C` in the state it starts from. -/
def HostRuns (C : GpuHostState → HostCall → Prop) : GpuHostState → GpuHostState → Prop :=
  Relation.ReflTransGen fun s s' => ∃ c r, C s c ∧ Dispatches c s s' r

/-! ## Objects -/

/-- The objects of `s` are unchanged in `s'`. -/
structure KeepsObjects (s s' : GpuHostState) : Prop where
  count : s.objHeap.count ≤ s'.objHeap.count
  entries : ∀ i, i < s.objHeap.count → s'.objHeap.entries i = s.objHeap.entries i

/-- A vector is built while the heap is full, and the object with handle 0 has another length or
other elements than the new vector. -/
def Clobbers (s : GpuHostState) (c : HostCall) : Prop :=
  c.fn = some .vecNewLm ∧ GPU_OBJ_CAP ≤ s.objHeap.count ∧
    let ptr := sorobanHandle (c.mb.args 0)
    let n := sorobanHandle (c.mb.args 1)
    let e := s.objHeap.entries 0
    e.len ≠ n ∨ ∃ i, i < min n GPU_VEC_ELEMS ∧ (ptr + i * 8) % 2 ^ 32 + 8 ≤ c.memSize ∧
      memLoadLe c.mem ((ptr + i * 8) % 2 ^ 32) 8 ≠ e.elems i

/-! ## Vals -/

/-- The tags of `gpu_host.h` that mark an object. -/
def objectTags : List Byte :=
  [SOROBAN_TAG_I128OBJECT, SOROBAN_TAG_STRING_OBJECT, SOROBAN_TAG_SYMBOL_OBJECT,
    SOROBAN_TAG_VEC_OBJECT, SOROBAN_TAG_MAP_OBJECT, SOROBAN_TAG_ADDRESS_OBJECT]

/-- A well-formed `Val`: an object handle is in use with the same tag, a `U32Val` has its value in
the upper half and nothing else, and the tags of the booleans and of `Void` are the whole `Val`. -/
structure ValOk (heap : GpuObjHeap) (x : Slot) : Prop where
  object : sorobanTag x ∈ objectTags →
    sorobanHandle x < heap.count ∧ (heap.entries (sorobanHandle x)).tag = sorobanTag x
  u32 : sorobanTag x = SOROBAN_TAG_U32VAL → ∀ j, 8 ≤ j → j < 32 → x.getLsbD j = false
  false_ : sorobanTag x = 0 → x = SOROBAN_FALSE
  true_ : sorobanTag x = 1 → x = SOROBAN_TRUE
  void : sorobanTag x = 2 → x = SOROBAN_VOID

/-- A value that a call stores is well-formed. -/
def PutOk (s : GpuHostState) (c : HostCall) : Prop :=
  c.fn = some .putContractData → ValOk s.objHeap (c.mb.args 1)

/-! ## The ledger -/

/-- The value bytes stored under a key. -/
def GpuStorage.entry (st : GpuStorage) (key : List Byte) : Option (List Byte) :=
  (kvFind st key).map fun i => (List.range (st.valLens i)).map (st.values i)

/-- The storage type of a call is the low byte of its argument. -/
def storageType (x : Slot) : Byte := x.setWidth 8

/-- `r`, read when the heap was `heap'` and leaving `heap''` behind, stands for the `Val` `x` of the
heap `heap`: a new address object with the bytes of `x` if `x` is an address, `x` itself otherwise. -/
def ReadBack (heap : GpuObjHeap) (x : Slot) (heap' heap'' : GpuObjHeap) (r : Slot) : Prop :=
  if sorobanTag x = SOROBAN_TAG_ADDRESS_OBJECT then
    ∃ i, objGet heap x = some i ∧ r = sorobanMakeObj heap'.count SOROBAN_TAG_ADDRESS_OBJECT ∧
      heap'.count < heap''.count ∧
      (heap''.entries heap'.count).tag = SOROBAN_TAG_ADDRESS_OBJECT ∧
      ∀ b, b < 32 → (heap''.entries heap'.count).data b = (heap.entries i).data b
  else r = x

/-- What a successful `put_contract_data` call `c` in state `s` promises: the key is there, reading it
gives the stored value, and the other entries are as before. -/
structure WriteDone (s : GpuHostState) (c : HostCall) (s' : GpuHostState) : Prop where
  has : ∀ c', c'.fn = some .hasContractData → c'.mb.args 0 = c.mb.args 0 →
    storageType (c'.mb.args 1) = storageType (c.mb.args 2) → Dispatches c' s' s' SOROBAN_TRUE
  get : ∀ c', c'.fn = some .getContractData → c'.mb.args 0 = c.mb.args 0 →
    storageType (c'.mb.args 1) = storageType (c.mb.args 2) →
    ∃ s'' r, Dispatches c' s' s'' r ∧ ReadBack s.objHeap (c.mb.args 1) s'.objHeap s''.objHeap r
  others : ∀ key, kvCanonKey s.objHeap (c.mb.args 0) (storageType (c.mb.args 2)) ≠ some key →
    s'.storage.entry key = s.storage.entry key

/-- The canonical key of a `put_contract_data` call exists, the store has the key or a free entry, and
an address value is in use and can be allocated once more. -/
def Writable (s : GpuHostState) (c : HostCall) : Prop :=
  (∃ key, kvCanonKey s.objHeap (c.mb.args 0) (storageType (c.mb.args 2)) = some key ∧
    ((kvFind s.storage key).isSome = true ∨ s.storage.count < GPU_STORAGE_CAP)) ∧
  (sorobanTag (c.mb.args 1) = SOROBAN_TAG_ADDRESS_OBJECT →
    (objGet s.objHeap (c.mb.args 1)).isSome = true ∧ s.objHeap.count < GPU_OBJ_CAP)

/-- Two heap entries hold the same object. An address is its 32 bytes; an entry read back from the
ledger has its own length. -/
structure SameObject (e e' : GpuObjEntry) : Prop where
  tag : e'.tag = e.tag
  data : ∀ b, b < GPU_OBJ_BYTES → e'.data b = e.data b
  rest : e.tag ≠ SOROBAN_TAG_ADDRESS_OBJECT →
    e'.len = e.len ∧ ∀ k, k < GPU_VEC_ELEMS → e'.elems k = e.elems k

/-- The `Val` `r` of `heap'` has the contents of the `Val` `x` of `heap`. -/
def SameContents (heap : GpuObjHeap) (x : Slot) (heap' : GpuObjHeap) (r : Slot) : Prop :=
  if sorobanTag x ∈ objectTags then
    sorobanTag r = sorobanTag x ∧ ∃ i j, objGet heap x = some i ∧ objGet heap' r = some j ∧
      SameObject (heap.entries i) (heap'.entries j)
  else r = x

/-- `gpu_heap_reset`. -/
def gpuHeapReset : GpuObjHeap := {}

/-- What happens to the host state between two accesses to the ledger entry `key`: calls that do not
write it, and new invocations, which reset the heap and allocate their arguments. -/
inductive LedgerStep (key : List Byte) : GpuHostState → GpuHostState → Prop where
  | call {s s' : GpuHostState} {c : HostCall} {r : Slot} (h : Dispatches c s s' r)
      (hput : c.fn = some .putContractData →
        kvCanonKey s.objHeap (c.mb.args 0) (storageType (c.mb.args 2)) ≠ some key) :
      LedgerStep key s s'
  | reset (s : GpuHostState) : LedgerStep key s { s with objHeap := gpuHeapReset }
  | seed (s : GpuHostState) (tag : Byte) (len : Nat) (data : Option (Nat → Byte)) :
      LedgerStep key s { s with objHeap := (objAlloc s.objHeap tag len data).1 }

/-- Any number of such steps. -/
def LedgerRuns (key : List Byte) : GpuHostState → GpuHostState → Prop :=
  Relation.ReflTransGen (LedgerStep key)

/-! ## Keys -/

/-- The contents of a `Val` that is neither a vector nor a map: the `Val` itself, the bytes of an
address, or tag, length and bytes of another object. -/
inductive Atom where
  | small (x : Slot)
  | address (bytes : List Byte)
  | blob (tag : Byte) (len : Nat) (bytes : List Byte)
  deriving DecidableEq

/-- The contents of a ledger key. Of a vector the heap has the length and up to four elements. -/
inductive Key where
  | atom (a : Atom)
  | vec (len : Nat) (elems : List Atom)
  deriving DecidableEq

/-- The contents of a `Val` in a heap; `none` if it does not resolve. -/
def atomOf (heap : GpuObjHeap) (x : Slot) : Option Atom :=
  if sorobanTag x ∈ objectTags then
    match objGet heap x with
    | none => none
    | some i =>
      let e := heap.entries i
      let bytes := (List.range GPU_OBJ_BYTES).map e.data
      if e.tag ≠ sorobanTag x ∨ e.tag = SOROBAN_TAG_VEC_OBJECT ∨ e.tag = SOROBAN_TAG_MAP_OBJECT then
        none
      else if e.tag = SOROBAN_TAG_ADDRESS_OBJECT then some (.address bytes)
      else some (.blob e.tag e.len bytes)
  else some (.small x)

/-- The contents of a key `Val` in a heap. -/
def keyOf (heap : GpuObjHeap) (x : Slot) : Option Key :=
  if sorobanTag x = SOROBAN_TAG_VEC_OBJECT then
    match objGet heap x with
    | none => none
    | some i =>
      let e := heap.entries i
      if e.tag ≠ SOROBAN_TAG_VEC_OBJECT then none
      else (((List.range (min e.len GPU_VEC_ELEMS)).map e.elems).mapM (atomOf heap)).map (.vec e.len)
  else (atomOf heap x).map .atom

/-- Is it an address? -/
def Atom.isAddress : Atom → Bool
  | .address _ => true
  | _ => false

/-- The contents whose bytes `kv_canon_key` writes: small `Val`s and addresses. -/
def Atom.Plain : Atom → Prop
  | .blob .. => False
  | _ => True

/-- The bytes written for plain contents. -/
def Atom.bytes : Atom → List Byte
  | .small x => kvWriteU64 x
  | .address bytes => bytes
  | .blob .. => []

/-- Plain contents all of which fit the key: a vector has at most four elements, not all addresses. -/
def Key.Regular : Key → Prop
  | .atom a => a.Plain
  | .vec len elems => len ≤ GPU_VEC_ELEMS ∧ (∀ a ∈ elems, a.Plain) ∧ elems.countP Atom.isAddress ≤ 3

/-- The bytes written for a regular key. -/
def Key.bytes : Key → List Byte
  | .atom a => a.bytes
  | .vec _ elems => elems.flatMap Atom.bytes

/-- Whether the key is a vector, and which of its parts are addresses. -/
def Key.shape : Key → Bool × List Bool
  | .atom a => (false, [a.isAddress])
  | .vec _ elems => (true, elems.map Atom.isAddress)

end CuWasm
