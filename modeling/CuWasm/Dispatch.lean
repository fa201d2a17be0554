import CuWasm.EnvFnId
import CuWasm.GpuHost

/-!
# The host dispatch of the contract tests

`dispatch.rs`: host calls of a guest are answered by a Soroban host. The guest sees its objects under
relative handles, indices into the table `relative_objects`; the host knows them under handles of its
own. The Soroban host and the parts of `soroban_env_common` that are not `Val` arithmetic are
parameters (`Soroban`).

A `Val` is its 64-bit payload: the tag in the low byte, an object's handle in the upper half. An error
is a text and keeps what was changed before it.
-/

namespace CuWasm.Dispatch

/-- `StorageType`. -/
inductive StorageType where
  | temporary | persistent | instance_
  deriving DecidableEq, Repr

/-- The Soroban host with its state `H`, the tags that `Object::try_from` accepts, and texts of errors
and tags. A host function answers or fails with the `Debug` text of its error. `describe` is what
`describe_val` does to the host when a call is recorded. -/
structure Soroban (H : Type) where
  isObject : Byte → Bool
  tagText : Byte → String
  utf8Error : List Byte → String
  stringNewFromSlice : H → List Byte → Except String (Slot × H)
  symbolNewFromSlice : H → List Byte → Except String (Slot × H)
  vecNewFromSlice : H → List Slot → Except String (Slot × H)
  mapNewFromSlices : H → List String → List Slot → Except String (Slot × H)
  mapUnpackToSlice : H → Slot → List String → Nat → Except String (List Slot × H)
  hasContractData : H → Slot → StorageType → Except String (Slot × H)
  getContractData : H → Slot → StorageType → Except String (Slot × H)
  putContractData : H → Slot → Slot → StorageType → Except String H
  extendContractDataTtl : H → Slot → StorageType → Nat → Nat → Except String H
  extendCurrentContractInstanceAndCodeTtl : H → Nat → Nat → Except String H
  contractEvent : H → Slot → Slot → Except String H
  getLedgerSequence : H → Except String (Slot × H)
  objFromI128Pieces : H → Slot → Slot → Except String (Slot × H)
  objToI128Lo64 : H → Slot → Except String (Slot × H)
  objToI128Hi64 : H → Slot → Except String (Slot × H)
  requireAuth : H → Slot → Except String H
  describe : H → Slot → H

/-- `struct HostCallTrace`, less the decoded texts. -/
structure HostCallTrace where
  seq : Nat
  fnId : Nat
  name : String
  nArgs : Nat
  rawArgs : List Slot
  rawResult : Slot
  vecElemRaw : Option (List Slot)

/-- `struct DispatchCtx`; the guest memory behind `mem` has `memSize` bytes. -/
structure DispatchCtx (H : Type) where
  host : H
  mem : Nat → Byte
  memSize : Nat
  relativeObjects : List Slot := []
  hostCalls : List (String × Nat) := []
  traces : List HostCallTrace := []

variable {H : Type} (S : Soroban H)

/-- `Object::try_from(val).is_ok()`. -/
def isObjectVal (x : Slot) : Bool := S.isObject (sorobanTag x)

/-- `is_relative_handle`. -/
def isRelativeHandle (handle : Nat) : Bool := handle % 2 == 0

/-- `handle_to_index`. -/
def handleToIndex (handle : Nat) : Nat := handle / 2

/-- `index_to_relative_handle`: `checked_shl(1)` drops the bit that is shifted out. -/
def indexToRelativeHandle (index : Nat) : Except String Nat :=
  if index < 2 ^ 32 then .ok (index * 2 % 2 ^ 32) else .error "relative object index overflow"

/-- `to_absolute`. -/
def toAbsolute (ctx : DispatchCtx H) (x : Slot) : Except String Slot :=
  if isObjectVal S x then
    let handle := sorobanHandle x
    if isRelativeHandle handle then
      let index := handleToIndex handle
      match ctx.relativeObjects[index]? with
      | none => .error s!"relative object index {index} out of range"
      | some abs =>
        if sorobanTag abs ≠ sorobanTag x then .error "relative object tag mismatch" else .ok abs
    else .ok x
  else .ok x

/-- `decode_val`. -/
def decodeVal (ctx : DispatchCtx H) (raw : Slot) : Except String Slot := toAbsolute S ctx raw

/-- `decode_u32`. -/
def decodeU32 (raw : Slot) : Except String Nat :=
  if sorobanTag raw ≠ SOROBAN_TAG_U32VAL then
    .error ("expected U32Val, got " ++ S.tagText (sorobanTag raw))
  else .ok (sorobanHandle raw)

/-- `decode_storage_type`. -/
def decodeStorageType (raw : Slot) : Except String StorageType :=
  match raw.toNat with
  | 0 => .ok .temporary
  | 1 => .ok .persistent
  | 2 => .ok .instance_
  | n => .error s!"bad StorageType {n}"

/-- The little-endian word at `pos + 8 * i` of the guest memory. -/
def wordAt (ctx : DispatchCtx H) (pos i : Nat) : Slot := memLoadLe ctx.mem (pos + i * 8) 8

/-- `read_bytes`. -/
def readBytes (ctx : DispatchCtx H) (pos len : Nat) : Except String (List Byte) :=
  if pos + len > ctx.memSize then .error "guest memory oob"
  else .ok ((List.range len).map fun i => ctx.mem (pos + i))

/-- `read_slice_descriptors`. -/
def readSliceDescriptors (ctx : DispatchCtx H) (pos len : Nat) : Except String (List (Nat × Nat)) :=
  if pos + len * 8 > ctx.memSize then .error "guest slice descriptor oob"
  else .ok ((List.range len).map fun i =>
    ((u32 (wordAt ctx pos i)).toNat, sorobanHandle (wordAt ctx pos i)))

/-- `read_symbol_keys`. -/
def readSymbolKeys (ctx : DispatchCtx H) (pos len : Nat) : Except String (List String) := do
  let descriptors ← readSliceDescriptors ctx pos len
  descriptors.mapM fun d => do
    let bytes ← readBytes ctx d.1 d.2
    match String.fromUTF8? ⟨(bytes.map fun b => b.toNat.toUInt8).toArray⟩ with
    | some key => return key
    | none => .error ("symbol key utf8: " ++ S.utf8Error bytes)

/-- `read_vals`. -/
def readVals (ctx : DispatchCtx H) (pos len : Nat) : Except String (List Slot) :=
  if pos + len * 8 > ctx.memSize then .error "guest val slice oob"
  else (List.range len).mapM fun i => toAbsolute S ctx (wordAt ctx pos i)

/-- `read_vals_raw`. -/
def readValsRaw (ctx : DispatchCtx H) (pos len : Nat) : Except String (List Slot) :=
  if pos + len * 8 > ctx.memSize then .error "guest val slice oob"
  else .ok ((List.range len).map (wordAt ctx pos))

/-- A method with `&mut self`. -/
abbrev Method (H : Type) := EStateM String (DispatchCtx H)

/-- The `?` operator on a result that does not touch the context. -/
def ofExcept {α : Type} : Except String α → Method H α
  | .ok a => pure a
  | .error e => throw e

/-- `self.host.f(..).map_err(..)?` for a host function with a value. -/
def ask {α : Type} (name : String) (f : H → Except String (α × H)) : Method H α := do
  match f (← get).host with
  | .ok (a, h) => do
    modify fun ctx => { ctx with host := h }
    return a
  | .error e => throw (name ++ ": " ++ e)

/-- The same for a host function without a value. -/
def tell (name : String) (f : H → Except String H) : Method H Unit :=
  ask name fun h => (f h).map fun h => ((), h)

/-- `to_relative`: the table grows before the handle is computed. -/
def toRelative (x : Slot) : Method H Slot := do
  if isObjectVal S x then
    let index := (← get).relativeObjects.length
    modify fun ctx => { ctx with relativeObjects := ctx.relativeObjects ++ [x] }
    let handle ← ofExcept (indexToRelativeHandle index)
    return sorobanMakeObj handle (sorobanTag x)
  else return x

/-- The loop of `write_vals` from element `i` on. -/
def writeValsFrom (pos : Nat) : Nat → List Slot → Method H Unit
  | _, [] => pure ()
  | i, x :: xs => do
    let rel ← toRelative S x
    modify fun ctx => { ctx with mem := memStoreLe ctx.mem (pos + i * 8) 8 rel }
    writeValsFrom pos (i + 1) xs

/-- `write_vals`. -/
def writeVals (pos : Nat) (xs : List Slot) : Method H Unit := do
  if pos + xs.length * 8 > (← get).memSize then throw "guest val write oob"
  writeValsFrom S pos 0 xs

/-- `finish`: the mailbox with the result, under a relative handle if it is an object. -/
def finish (mb : HostMailbox) (res : Option Slot) : Method H HostMailbox := do
  let out ← match res with
    | none => pure SOROBAN_VOID
    | some x => if isObjectVal S x then toRelative S x else pure x
  return { mb with nResults := 1, results := Function.update mb.results 0 out }

/-- `finish_raw`. -/
def finishRaw (mb : HostMailbox) (raw : Slot) : HostMailbox :=
  { mb with nResults := 1, results := Function.update mb.results 0 raw }

/-- `describe_val`, as far as it changes the host. -/
def describeVal (raw : Slot) : Method H Unit :=
  modify fun ctx =>
    match decodeVal S ctx raw with
    | .ok abs => { ctx with host := S.describe ctx.host abs }
    | .error _ => ctx

/-- The `Val`s that `record_trace` describes, in order. -/
def describedVals (mb : HostMailbox) (name : String) : List Slot :=
  match name with
  | "has_contract_data" | "extend_contract_data_ttl" => [mb.args 0]
  | "get_contract_data" => [mb.args 0, mb.results 0]
  | "put_contract_data" => [mb.args 0, mb.args 1]
  | "vec_new_from_linear_memory" | "obj_from_i128_pieces" | "string_new_from_linear_memory" =>
    [mb.results 0]
  | _ => []

/-- The elements a trace of `vec_new_from_linear_memory` shows. -/
def vecElemRaw (ctx : DispatchCtx H) (mb : HostMailbox) (name : String) : Option (List Slot) :=
  if name = "vec_new_from_linear_memory" then
    match decodeU32 S (mb.args 0), decodeU32 S (mb.args 1) with
    | .ok pos, .ok len => (readValsRaw ctx pos len).toOption
    | _, _ => none
  else none

/-- `record_trace`. -/
def recordTrace (mb : HostMailbox) (name : String) : Method H Unit := do
  let elems := vecElemRaw S (← get) mb name
  (describedVals mb name).forM (describeVal S)
  modify fun ctx => { ctx with
    traces := ctx.traces ++ [{
      seq := ctx.traces.length % 2 ^ 32, fnId := mb.fnId, name := name, nArgs := mb.nArgs
      rawArgs := (List.range mb.nArgs).map mb.args, rawResult := mb.results 0
      vecElemRaw := elems }] }

/-- `try_into` of an object type: the `Val` must have its tag. -/
def expectTag (tag : Byte) (text : String) (x : Slot) : Method H Slot :=
  if sorobanTag x = tag then pure x else throw text

/-- `env_ids::name`. -/
def nameOf (fnId : Nat) : Option String := (EnvFnId.table[fnId]?).map fun f => f.2.2

/-- `env_ids::import_key`. -/
def importKey (fnId : Nat) : Option String :=
  (EnvFnId.table[fnId]?).map fun f => f.1 ++ "::" ++ f.2.1

/-- The decoders on the current context. -/
def decode (raw : Slot) : Method H Slot := do ofExcept (decodeVal S (← get) raw)

/-- How a `match` arm of `dispatch` goes on: the common tail with a result, or an early return with
the mailbox, recorded or not. -/
inductive Arm where
  | result (res : Option Slot)
  | done (mb : HostMailbox) (recorded : Bool)

/-- The `match name` of `dispatch`. -/
def arm (mb : HostMailbox) (name : String) : Method H Arm :=
  match name with
  | "string_new_from_linear_memory" => do
    let pos ← ofExcept (decodeU32 S (mb.args 0))
    let len ← ofExcept (decodeU32 S (mb.args 1))
    let bytes ← ofExcept (readBytes (← get) pos len)
    return .result (some (← ask "string_new_from_slice" (S.stringNewFromSlice · bytes)))
  | "symbol_new_from_linear_memory" => do
    let pos ← ofExcept (decodeU32 S (mb.args 0))
    let len ← ofExcept (decodeU32 S (mb.args 1))
    let bytes ← ofExcept (readBytes (← get) pos len)
    return .result (some (← ask "symbol_new_from_slice" (S.symbolNewFromSlice · bytes)))
  | "vec_new_from_linear_memory" => do
    let pos ← ofExcept (decodeU32 S (mb.args 0))
    let len ← ofExcept (decodeU32 S (mb.args 1))
    let vals ← ofExcept (readVals S (← get) pos len)
    return .result (some (← ask "vec_new_from_slice" (S.vecNewFromSlice · vals)))
  | "map_new_from_linear_memory" => do
    let keysPos ← ofExcept (decodeU32 S (mb.args 0))
    let valsPos ← ofExcept (decodeU32 S (mb.args 1))
    let len ← ofExcept (decodeU32 S (mb.args 2))
    let keys ← ofExcept (readSymbolKeys S (← get) keysPos len)
    let vals ← ofExcept (readVals S (← get) valsPos len)
    return .result (some (← ask "map_new_from_slices" (S.mapNewFromSlices · keys vals)))
  | "map_unpack_to_linear_memory" => do
    let map ← expectTag SOROBAN_TAG_MAP_OBJECT "map_unpack: arg0 not MapObject" (← decode S (mb.args 0))
    let keysPos ← ofExcept (decodeU32 S (mb.args 1))
    let valsPos ← ofExcept (decodeU32 S (mb.args 2))
    let len ← ofExcept (decodeU32 S (mb.args 3))
    let keys ← ofExcept (readSymbolKeys S (← get) keysPos len)
    let vals ← ask "map_unpack_to_slice" (S.mapUnpackToSlice · map keys len)
    writeVals S valsPos vals
    return .done (← finish S mb none) false
  | "has_contract_data" => do
    let k ← decode S (mb.args 0)
    let t ← ofExcept (decodeStorageType (mb.args 1))
    return .result (some (← ask "has_contract_data" (S.hasContractData · k t)))
  | "get_contract_data" => do
    let k ← decode S (mb.args 0)
    let t ← ofExcept (decodeStorageType (mb.args 1))
    return .result (some (← ask "get_contract_data" (S.getContractData · k t)))
  | "put_contract_data" => do
    let k ← decode S (mb.args 0)
    let x ← decode S (mb.args 1)
    let t ← ofExcept (decodeStorageType (mb.args 2))
    tell "put_contract_data" (S.putContractData · k x t)
    return .result none
  | "extend_contract_data_ttl" => do
    let k ← decode S (mb.args 0)
    let t ← ofExcept (decodeStorageType (mb.args 1))
    let threshold ← ofExcept (decodeU32 S (mb.args 2))
    let extendTo ← ofExcept (decodeU32 S (mb.args 3))
    tell "extend_contract_data_ttl" (S.extendContractDataTtl · k t threshold extendTo)
    return .result none
  | "extend_current_contract_instance_and_code_ttl" => do
    let threshold ← ofExcept (decodeU32 S (mb.args 0))
    let extendTo ← ofExcept (decodeU32 S (mb.args 1))
    tell "extend_current_contract_instance_and_code_ttl"
      (S.extendCurrentContractInstanceAndCodeTtl · threshold extendTo)
    return .result none
  | "contract_event" => do
    let topics ← expectTag SOROBAN_TAG_VEC_OBJECT "contract_event: topics not VecObject"
      (← decode S (mb.args 0))
    let data ← decode S (mb.args 1)
    tell "contract_event" (S.contractEvent · topics data)
    return .result none
  | "get_ledger_sequence" => return .result (some (← ask "get_ledger_sequence" S.getLedgerSequence))
  | "obj_from_i128_pieces" =>
    return .result (some (← ask "obj_from_i128_pieces"
      (S.objFromI128Pieces · (mb.args 0) (mb.args 1))))
  | "obj_to_i128_lo64" => do
    let obj ← expectTag SOROBAN_TAG_I128OBJECT "not I128Object" (← decode S (mb.args 0))
    let lo ← ask "obj_to_i128_lo64" (S.objToI128Lo64 · obj)
    return .done (finishRaw mb lo) true
  | "obj_to_i128_hi64" => do
    let obj ← expectTag SOROBAN_TAG_I128OBJECT "not I128Object" (← decode S (mb.args 0))
    let hi ← ask "obj_to_i128_hi64" (S.objToI128Hi64 · obj)
    return .done (finishRaw mb hi) true
  | "require_auth" => do
    let addr ← expectTag SOROBAN_TAG_ADDRESS_OBJECT "require_auth: not AddressObject"
      (← decode S (mb.args 0))
    tell "require_auth" (S.requireAuth · addr)
    return .result none
  | other =>
    throw ("unimplemented host function " ++ (importKey mb.fnId).getD "?" ++ " (" ++ other ++ ")")

/-- `DispatchCtx::dispatch`: the mailbox after a call that succeeded. -/
def dispatch (mb : HostMailbox) : Method H HostMailbox := do
  let name := (nameOf mb.fnId).getD "?"
  modify fun ctx => { ctx with hostCalls := ctx.hostCalls ++ [(name, mb.nArgs)] }
  match ← arm S mb name with
  | .done mb recorded =>
    if recorded then recordTrace S mb name
    return mb
  | .result res =>
    let mb ← finish S mb res
    recordTrace S mb name
    return mb

end CuWasm.Dispatch
