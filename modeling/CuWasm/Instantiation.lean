import CuWasm.Meaning

/-!
# Instantiation

The instance and the initial store of a Wasm module, from its own sections: tables and element segments,
the memory and the data segments, the globals, and the names of the imports. Nothing here comes from a
translation. `Wasm.Module.toInstance` and `HostModule.toStore` read the same off the translated module;
that they agree is what the loader has to get right.
-/

namespace CuWasm

open Wasm

/-- The sections of a module that are evaluated when it is instantiated, with constant expressions as
terms. -/
structure Sections where
  tables : List TableDecl := []
  elems : List ElemSegment := []
  datas : List DataSegment := []
  globals : List ConstOp := []

/-- The value in a table slot. -/
def reference (x : Nat) : Option Nat := if x = TABLE_NULL then none else some x

namespace Wasm.Module

variable {H : Type} (M : Module) (S : Sections)

/-- The sections of `M` are those of `S`, and the translator treats its tables as instantiation does. -/
structure Has : Prop where
  tables : M.tables = S.tables.map TableDecl.entry
  elems : M.elems = S.elems.map ElemSegment.element
  datas : M.datas = S.datas.map DataSegment.data
  globals : M.globals.map (·.1.initExpr) = S.globals.map fun c => [.ok (.const c), .ok .end_]
  regular : TablesRegular S.tables S.elems

/-- The pages of the memory at the start. A module without a memory has none. -/
def initialPages : Nat := (M.mems.head?.map (·.initial)).getD 0

/-- The pages that the memory may grow to: those that the module allows, but not more than 1024. -/
def maximumPages : Nat := (M.mems.head?.map fun mt => min (mt.maximum.getD 1024) 1024).getD 0

/-- The host function that the import `fi` names. -/
def hostId (fi : Nat) : Nat :=
  (M.imports[fi]?.bind fun imp => (EnvFnId.lookup imp.module imp.name).toOption).getD 0

/-- The instance of the module. -/
def instantiate (host : HostFn H) : Instance H where
  types := M.funcTypes
  funcs := M.funcTypeidx
  nImports := M.imports.length
  code := M.code
  table := (List.range (tableSize S.tables)).map fun k => reference (initialSlot S.tables S.elems k)
  maxPages := M.maximumPages
  datas := S.datas.map fun d => d.bytes.map BitVec.toNat
  host := fun h fi => hostAnswer host (M.hostId fi) h

/-- The store that the module starts with. Active segments are dropped once they have been copied. -/
def initialStore (h : H) : Store H where
  globals := S.globals.map ConstOp.value
  mem := fun c => (initialByte S.datas c).toNat
  size := M.initialPages * WASM_PAGE
  dropped := fun d => (S.datas[d]?.map fun seg => !seg.isPassive).getD true
  host := h

end Wasm.Module

end CuWasm
