import CuWasm.Boundary

/-!
# When `cuwasm_translate_wasm` returns

The exported function is meant to return for every input, either with all arrays or with an error
text. This module states that, and the condition on the module under which it is so.
-/

namespace CuWasm

open Wasm

/-- Every array is there. -/
structure TranslateOut.AllSet (out : TranslateOut) : Prop where
  code : out.code.isSome
  consts : out.consts.isSome
  funcs : out.funcs.isSome
  exportNames : out.exportNames.isSome
  exportIdxs : out.exportIdxs.isSome
  globals : out.globals.isSome
  memory : out.memory.isSome
  dataBlob : out.dataBlob.isSome
  dataOff : out.dataOff.isSome
  dataLen : out.dataLen.isSome
  dataLive : out.dataLive.isSome
  table : out.table.isSome
  funcTypeidx : out.funcTypeidx.isSome
  typeFp : out.typeFp.isSome
  hostFnId : out.hostFnId.isSome
  hostImportMod : out.hostImportMod.isSome
  hostImportName : out.hostImportName.isSome
  hostImportEnv : out.hostImportEnv.isSome

namespace Checked

open Translate

/-- 0 with all arrays, or -1 with an error text. -/
def Returned (r : Except Panic (Int × TranslateOut)) : Prop :=
  ∃ out, r = .ok (0, out) ∧ out.AllSet ∨ r = .ok (-1, out) ∧ out.err.isSome

/-! ## Names and counts -/

/-- The name of a function export. -/
def functionExport : Parsed Export → Option String
  | .ok ex => if ex.isFunc then some ex.name else none
  | .error _ => none

/-- The names of the function exports in a payload. -/
def payloadExports : Parsed Payload → List String
  | .ok (.exportSection exs) => exs.filterMap functionExport
  | _ => []

/-- The names of all function exports. -/
def functionExports (payloads : List (Parsed Payload)) : List String :=
  payloads.flatMap payloadExports

/-- The number of functions a payload declares. -/
def payloadDeclared : Parsed Payload → Nat
  | .ok (.functionSection idxs) => idxs.length
  | _ => 0

/-- The number of functions a payload defines. -/
def payloadDefined : Parsed Payload → Nat
  | .ok (.codeSectionEntry _) => 1
  | _ => 0

def declared (payloads : List (Parsed Payload)) : Nat := (payloads.map payloadDeclared).sum

def defined (payloads : List (Parsed Payload)) : Nat := (payloads.map payloadDefined).sum

/-! ## Bodies -/

/-- The type, the number of locals and the operators of a body that is lowered. -/
def bodyArgs (s : TState) (body : FunctionBody) :
    Except String (FuncType × Nat × List Operator) :=
  match s.funcTypeidx[s.funcs.length]? with
  | none => .error "code/function section mismatch"
  | some tidx =>
    match s.funcTypes[tidx]? with
    | none => .error "type index oob"
    | some ft => do
      let locals ← body.locals.mapError ("locals: " ++ ·)
      let nLocals ← countLocals locals
      if nLocals > 2 ^ 16 - 1 then throw "too many locals"
      let ops ← body.ops.mapError ("ops: " ++ ·)
      let ops ← collect "op" ops
      return (ft, nLocals, ops)

/-- The arithmetic of the lowering of a payload does not overflow. -/
def PayloadFits (s : TState) : Payload → Prop
  | .codeSectionEntry body => ∀ ft nLocals ops, bodyArgs s body = .ok (ft, nLocals, ops) →
      BodyFits (lowerEnv s.lowerModule ops (ft.1.length % 2 ^ 16) (ft.2.length % 2 ^ 16) nLocals)
        ops s.code s.consts
  | _ => True

/-- The payloads from the state `s` on, as far as the translator gets. -/
def PayloadsFit : List (Parsed Payload) → TState → Prop
  | .ok pl :: rest, s => PayloadFits s pl ∧ ∀ t, payload .release s pl = .ok t → PayloadsFit rest t
  | _, _ => True

/-! ## The condition -/

/-- `translate_wasm` accepts the module. -/
def Accepted (payloads : List (Parsed Payload)) : Prop :=
  ∃ m, CuWasm.translateWasm payloads = .ok m

/-- The function exports of a module that is accepted have names without `NUL`. In the dev profile it
declares as many functions as it defines, and no arithmetic of the lowering overflows. -/
structure Returnable (p : Profile) (payloads : List (Parsed Payload)) : Prop where
  names : Accepted payloads → ∀ name ∈ functionExports payloads, NUL ∉ name.toList
  counts : p = .dev → Accepted payloads → declared payloads % 2 ^ 32 = defined payloads % 2 ^ 32
  fits : p = .dev → PayloadsFit payloads {}

end Checked

end CuWasm
