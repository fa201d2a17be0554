import CuWasm.HostObjects
import CuWasm.Lib.BoundedMap

/-!
# The ledger as a bounded map

What the parallel arrays of `GpuStorage` are for: a map of at most 16 byte strings to byte strings.
-/

namespace CuWasm

/-- The key and the value bytes of a `gpu_kv_put_raw`. -/
abbrev KvPut := List Byte × List Byte

/-- The store after a sequence of puts. -/
def GpuStorage.puts (st : GpuStorage) (ops : List KvPut) : GpuStorage :=
  ops.foldl (fun st op => gpuKvPutRaw st op.1 op.2) st

/-- The key bytes of entry `i`. -/
def GpuStorage.keyAt (st : GpuStorage) (i : Nat) : List Byte :=
  (List.range (st.keyLens i)).map (st.keys i)

/-- The map the store stands for. -/
abbrev LedgerMap := BoundedMap (List Byte) (List Byte) GPU_STORAGE_CAP

/-- A put as the map sees it: only the first 32 bytes of a value are kept. -/
def KvPut.cut (op : KvPut) : KvPut := (op.1, op.2.take GPU_KV_VAL_MAX)

/-- The arrays hold the map: every entry is found under its own key, and the entries found are those
of the map. -/
structure GpuStorage.Holds (st : GpuStorage) (m : LedgerMap) : Prop where
  count : st.count = m.size
  found : ∀ i, i < st.count → kvFind st (st.keyAt i) = some i
  entry : ∀ key, st.entry key = m.lookup key

end CuWasm
