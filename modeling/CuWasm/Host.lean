import CuWasm.Interp

/-!
# The host-side module

`HostModule` of `host.h`: what `translate_wasm` builds, `verify_cuop` checks and the drivers run.
-/

namespace CuWasm

/-- `struct HostModule`. The bytes of `memory` are a function with their number in `memMax`. -/
structure HostModule where
  code : List CuOp
  consts : List Slot
  funcs : List FuncMeta
  exports : List (String × Nat)
  globals : List Slot
  memory : Nat → Byte
  memMax : Nat
  memSize : Nat
  dataBlob : List Byte
  dataOff : List Nat
  dataLen : List Nat
  dataLive : List Byte
  table : List Nat
  funcTypeidx : List Nat
  typeFp : List Nat
  nHostImports : Nat
  hostFnId : List Nat
  hostImportMod : List String
  hostImportName : List String
  hostImportEnv : List String

/-- `HostModule::dev`. -/
def HostModule.dev (m : HostModule) : DevModule where
  code := m.code
  consts := m.consts
  funcs := m.funcs
  table := m.table
  funcTypeidx := m.funcTypeidx
  typeFp := m.typeFp

/-- `HostModule::find_export`. -/
def HostModule.findExport (m : HostModule) (name : String) : Option Nat :=
  (m.exports.find? fun e => e.1 = name).map (·.2)

end CuWasm
