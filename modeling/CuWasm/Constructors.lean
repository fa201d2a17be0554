import CuWasm.HostObjects

/-!
# What the constructors from guest memory are for

A guest describes a string, a symbol, a vector or a map by slices of its memory; the object it gets
should hold what the slices hold. And an `i128` object should hold its two halves as long as the heap
lives.
-/

namespace CuWasm

/-- The contents of an object built from guest memory. -/
inductive Contents where
  | bytes (bs : List Byte)
  | vals (xs : List Slot)
  | pairs (ps : List (List Byte × Slot))
  deriving DecidableEq

section Guest

variable (mem : Nat → Byte) (memSize : Nat)

/-- The bytes of the slice `[pos, pos + len)`. -/
def guestBytes (pos len : Nat) : Option (List Byte) :=
  if pos + len ≤ memSize then some ((List.range len).map fun i => mem (pos + i)) else none

/-- The `n` little-endian words from `pos` on. -/
def guestWords (pos n : Nat) : Option (List Slot) :=
  if pos + 8 * n ≤ memSize then some ((List.range n).map fun i => memLoadLe mem (pos + 8 * i) 8)
  else none

/-- The `n` byte strings whose slices are described from `pos` on: the lower half of a word is the
position, the upper half the length. -/
def guestKeys (pos n : Nat) : Option (List (List Byte)) :=
  (guestWords mem memSize pos n).bind
    (List.mapM fun d => guestBytes mem memSize (d.setWidth 32).toNat (sorobanHandle d))

end Guest

/-- The four functions that build an object from slices of guest memory, with the tag of the object. -/
def constructorTag : GpuFn → Option Byte
  | .strNewLm => some SOROBAN_TAG_STRING_OBJECT
  | .symNewLm => some SOROBAN_TAG_SYMBOL_OBJECT
  | .vecNewLm => some SOROBAN_TAG_VEC_OBJECT
  | .mapNewLm => some SOROBAN_TAG_MAP_OBJECT
  | _ => none

/-- What the guest asks a constructor to build; `none` if a slice leaves the guest memory. -/
def HostCall.contents (c : HostCall) (fn : GpuFn) : Option Contents :=
  let arg (i : Nat) : Nat := sorobanHandle (c.mb.args i)
  match fn with
  | .strNewLm | .symNewLm => (guestBytes c.mem c.memSize (arg 0) (arg 1)).map .bytes
  | .vecNewLm => (guestWords c.mem c.memSize (arg 0) (arg 1)).map .vals
  | .mapNewLm =>
    (guestKeys c.mem c.memSize (arg 0) (arg 2)).bind fun ks =>
      (guestWords c.mem c.memSize (arg 1) (arg 2)).map fun xs => .pairs (ks.zip xs)
  | _ => none

/-- What a heap entry says about the contents of its object. There are 32 byte cells and 4 element
cells, and none for the pairs of a map. -/
def GpuObjEntry.contents (e : GpuObjEntry) : Option Contents :=
  if e.tag = SOROBAN_TAG_STRING_OBJECT ∨ e.tag = SOROBAN_TAG_SYMBOL_OBJECT then
    if e.len ≤ GPU_OBJ_BYTES then some (.bytes ((List.range e.len).map e.data)) else none
  else if e.tag = SOROBAN_TAG_VEC_OBJECT then
    if e.len ≤ GPU_VEC_ELEMS then some (.vals ((List.range e.len).map e.elems)) else none
  else if e.tag = SOROBAN_TAG_MAP_OBJECT then
    if e.len = 0 then some (.pairs []) else none
  else none

/-- The `Val` `r` names an object of the heap with the tag of `fn` that holds all the guest asked for,
and the slices of the call lie inside the guest memory. -/
def Represents (c : HostCall) (fn : GpuFn) (heap : GpuObjHeap) (r : Slot) : Prop :=
  constructorTag fn = some (sorobanTag r) ∧
    ∃ i, objGet heap r = some i ∧ (heap.entries i).tag = sorobanTag r ∧
      (c.contents fn).isSome ∧ (heap.entries i).contents = c.contents fn

/-- The size of what the guest asks for fits the cells of a heap entry. -/
def HostCall.Fits (c : HostCall) : GpuFn → Prop
  | .strNewLm | .symNewLm => sorobanHandle (c.mb.args 1) ≤ GPU_OBJ_BYTES
  | .vecNewLm => sorobanHandle (c.mb.args 1) ≤ GPU_VEC_ELEMS
  | .mapNewLm => sorobanHandle (c.mb.args 2) = 0
  | _ => False

/-! ## 128-bit integers -/

/-- The object with handle `i` is the 128-bit integer with the halves `hi` and `lo`. -/
structure IsI128 (heap : GpuObjHeap) (i : Nat) (hi lo : Slot) : Prop where
  inUse : i < heap.count
  tag : (heap.entries i).tag = SOROBAN_TAG_I128OBJECT
  lo : memLoadLe (heap.entries i).data 0 8 = lo
  hi : memLoadLe (heap.entries i).data 8 8 = hi

/-- The call asks for a new object: it calls `obj_alloc`. -/
def Allocates (s : GpuHostState) (c : HostCall) : Prop :=
  c.fn ∈ [some .strNewLm, some .symNewLm, some .vecNewLm, some .mapNewLm, some .objFromI128,
      some .getCurAddr] ∨
    c.fn = some .getContractData ∧ ∃ key idx,
      kvCanonKey s.objHeap (c.mb.args 0) (storageType (c.mb.args 1)) = some key ∧
      kvFind s.storage key = some idx ∧ s.storage.valLens idx = 32

end CuWasm
