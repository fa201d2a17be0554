import CuWasm.Bench
import CuWasm.HostObjects

/-!
# Seeded balances

The benchmark fills the ledger before a contract runs and reads the balances back afterwards. It never
sees the contract's heap, so the keys have to agree by their bytes.
-/

namespace CuWasm

/-- The key bytes of the balance of an address. -/
def balanceKey (pk : Vector Byte 32) : List Byte :=
  STOR_PERSISTENT :: (kvWriteU64 SYM_BALANCE ++ pk.toList)

/-- A seeding of the ledger. -/
inductive Seed where
  | admin (pk : Vector Byte 32)
  | balance (pk : Vector Byte 32) (amount : Slot)

/-- What a seeding does to the store. -/
def Seed.apply (store : GpuStorage) : Seed → GpuStorage
  | .admin pk => gpuSeedAdmin store pk
  | .balance pk amount => gpuSeedBalance store pk amount

/-- The seeding is not for the balance of this address. -/
def Seed.Spares (pk : Vector Byte 32) : Seed → Prop
  | .admin _ => True
  | .balance pk' _ => pk' ≠ pk

/-- The `Val` `a` is an address object of the heap with the bytes `pk`. -/
structure IsAddress (heap : GpuObjHeap) (a : Slot) (pk : Vector Byte 32) : Prop where
  tag : sorobanTag a = SOROBAN_TAG_ADDRESS_OBJECT
  object : ∃ i, objGet heap a = some i ∧ (heap.entries i).tag = SOROBAN_TAG_ADDRESS_OBJECT ∧
    (List.range 32).map (heap.entries i).data = pk.toList

/-- The `Val` `k` is a vector object of the heap with the elements `SYM_BALANCE` and `a`. -/
structure IsBalanceVec (heap : GpuObjHeap) (k a : Slot) : Prop where
  tag : sorobanTag k = SOROBAN_TAG_VEC_OBJECT
  object : ∃ i, objGet heap k = some i ∧ (heap.entries i).tag = SOROBAN_TAG_VEC_OBJECT ∧
    (heap.entries i).len = 2 ∧ (heap.entries i).elems 0 = SYM_BALANCE ∧
    (heap.entries i).elems 1 = a

/-- The call builds a vector from the words `SYM_BALANCE` and `a` of the guest memory. -/
structure BuildsBalanceVec (c : HostCall) (a : Slot) : Prop where
  fn : c.fn = some .vecNewLm
  len : sorobanHandle (c.mb.args 1) = 2
  fits : sorobanHandle (c.mb.args 0) + 16 ≤ c.memSize
  memSize : c.memSize < 2 ^ 32
  symbol : memLoadLe c.mem (sorobanHandle (c.mb.args 0)) 8 = SYM_BALANCE
  address : memLoadLe c.mem (sorobanHandle (c.mb.args 0) + 8) 8 = a

end CuWasm
