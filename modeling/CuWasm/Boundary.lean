import CuWasm.Overflow
import CuWasm.Translate

/-!
# The C boundary `cuwasm_translate_wasm`

`lib.rs`: the exported function runs `translate_wasm` and hands its arrays and strings over to C. A
panic must not get across, so every place that can panic is a branch here: indices, `unwrap`, debug
assertions, and arithmetic by the profile the crate is compiled with. Allocations succeed.
-/

namespace CuWasm

open Wasm BlockMove

/-! ## Strings of C -/

/-- The character that ends a string of C. -/
def NUL : Char := Char.ofNat 0

/-- `CString`: a string without `NUL`. -/
structure CString where
  text : String
  noNul : NUL ∉ text.toList

/-- `CString::new`. -/
def CString.new (s : String) : Option CString :=
  if h : NUL ∉ s.toList then some ⟨s, h⟩ else none

/-! ## What is handed over -/

/-- `TranslateOut`: a pointer is null or points to an array. -/
structure TranslateOut where
  code : Option (List CuOp) := none
  nCode : Nat := 0
  consts : Option (List Slot) := none
  nConsts : Nat := 0
  funcs : Option (List FuncMeta) := none
  nFuncs : Nat := 0
  exportNames : Option (List CString) := none
  exportIdxs : Option (List Nat) := none
  nExports : Nat := 0
  globals : Option (List Slot) := none
  nGlobals : Nat := 0
  memory : Option (List Byte) := none
  memSize : Nat := 0
  memMax : Nat := 0
  dataBlob : Option (List Byte) := none
  dataBlobLen : Nat := 0
  dataOff : Option (List Nat) := none
  dataLen : Option (List Nat) := none
  dataLive : Option (List Byte) := none
  nData : Nat := 0
  table : Option (List Nat) := none
  tableLen : Nat := 0
  funcTypeidx : Option (List Nat) := none
  typeFp : Option (List Nat) := none
  nTypes : Nat := 0
  nHostImports : Nat := 0
  hostFnId : Option (List Nat) := none
  hostImportMod : Option (List CString) := none
  hostImportName : Option (List CString) := none
  hostImportEnv : Option (List CString) := none
  err : Option CString := none

namespace Checked

open Translate

/-! ## Panics -/

def ofErr {α : Type} : Except String α → Except Stop α := Except.mapError .err

def ofPanic {α : Type} : Except Panic α → Except Stop α := Except.mapError .panic

/-- `unwrap`. -/
def unwrap {α : Type} : Option α → Except Panic α
  | some a => .ok a
  | none => .error .unwrap

/-- `xs[i]`. -/
def index {α : Type} (xs : List α) (i : Nat) : Except Panic α :=
  match xs[i]? with
  | some a => .ok a
  | none => .error .index

/-- `debug_assert_eq!`. -/
def debugAssertEq (p : Profile) (x y : Nat) : Except Panic Unit :=
  if p = .dev ∧ x ≠ y then .error .assert else .ok ()

/-! ## The translator -/

/-- `for x in reader { let x = x.map_err(..)?; .. }` -/
def each {σ α : Type} (what : String) (f : σ → α → Except Stop σ) :
    List (Parsed α) → σ → Except Stop σ
  | [], s => .ok s
  | .error e :: _, _ => .error (.err (what ++ ": " ++ e))
  | .ok a :: rest, s => do
    let s ← f s a
    each what f rest s

/-- The function of a body behind its pass, or the stub behind whatever the failed pass has left. -/
def pushBody (s : TState) (nParams nResults : Nat) :
    Except Stop FuncMeta × List CuOp × List Slot → Except Stop TState
  | (.ok f, code, consts) => .ok { s with code := code, consts := consts, funcs := s.funcs ++ [f] }
  | (.error (.panic e), _, _) => .error (.panic e)
  | (.error (.err _), code, consts) => .ok { s with
      code := code ++ [{ op := .unreachable }, { op := .endFunc, a := nResults }]
      consts := consts
      funcs := s.funcs ++ [stub (code.length % 2 ^ 32) nParams nResults] }

section

variable (p : Profile)

/-- Lower one body. -/
def lowerBody (s : TState) (ft : FuncType) (nLocals : Nat) (ops : List Operator) :
    Except Stop TState :=
  let nParams := ft.1.length % 2 ^ 16
  let nResults := ft.2.length % 2 ^ 16
  pushBody s nParams nResults
    (lowerOperators p s.lowerModule ops nParams nResults nLocals s.code s.consts)

/-- One entry of the code section. -/
def addCode (s : TState) (body : FunctionBody) : Except Stop TState :=
  match s.funcTypeidx[s.funcs.length]? with
  | none => .error (.err "code/function section mismatch")
  | some tidx =>
    match s.funcTypes[tidx]? with
    | none => .error (.err "type index oob")
    | some ft => do
      let locals ← ofErr (body.locals.mapError ("locals: " ++ ·))
      let nLocals ← ofErr (countLocals locals)
      if nLocals > 2 ^ 16 - 1 then throw (.err "too many locals")
      let ops ← ofErr (body.ops.mapError ("ops: " ++ ·))
      let ops ← ofErr (collect "op" ops)
      lowerBody p s ft nLocals ops

/-- The `match` over the payloads; only the code section lowers operators. -/
def payload (s : TState) : Payload → Except Stop TState
  | .codeSectionEntry body => addCode p s body
  | rest => ofErr (Translate.payload s rest)

/-- The loops of `type_fingerprint`: two bits per type from bit `shift` on. -/
def typeTags (shift : Nat) : List ValType → Nat → Except Stop Nat
  | [], fp => .ok fp
  | t :: ts, fp => do
    let tag ← ofErr (typeTag t)
    let x ← ofPanic (shl p tag shift)
    typeTags (shift + 2) ts (fp ||| x)

/-- `type_fingerprint`. -/
def typeFingerprint (ft : FuncType) : Except Stop Nat :=
  if ft.1.length > 8 ∨ ft.2.length > 8 then
    .error (.err "too many params/results for type fingerprint")
  else do
    let n ← ofPanic (shl p ft.2.length 8)
    let fp ← typeTags p 16 ft.1 (ft.1.length ||| n)
    typeTags p 32 ft.2 fp

/-- The fingerprints of all types. -/
def fingerprints : List FuncType → Except Stop (List Nat)
  | [] => .ok []
  | ft :: rest => do
    let fp ← typeFingerprint p ft
    let fps ← fingerprints rest
    return fp :: fps

/-- The loop over the pending data segments; a segment that is not empty is copied into the slice
`memory[off..off + len]`. -/
def layoutData (memSize memMax : Nat) :
    List (Bool × Nat × List Byte) → Layout → Except Stop Layout
  | [], l => .ok l
  | (active, off, bytes) :: rest, l =>
    if active ∧ off + bytes.length > memSize then .error (.err "data segment out of bounds")
    else if active ∧ bytes ≠ [] ∧ off + bytes.length > memMax then .error (.panic .index)
    else layoutData memSize memMax rest {
      memory := if active then fillAsc l.memory off (bytes.getD · 0) bytes.length else l.memory
      dataBlob := l.dataBlob ++ bytes
      dataOff := l.dataOff ++ [l.dataBlob.length]
      dataLen := l.dataLen ++ [bytes.length]
      dataLive := l.dataLive ++ [if active then 0 else 1] }

/-- What `translate_wasm` does behind the loop over the payloads. -/
def finish (s : TState) : Except Stop HostModule := do
  let typeFp ← fingerprints p s.funcTypes
  let capPages := min (s.memMaxPages.getD 1024) 1024
  if s.hasMemory ∧ s.memMin > capPages then throw (.err "memory too large for host")
  let memMax := if s.hasMemory then capPages * WASM_PAGE else 0
  let memSize := if s.hasMemory then s.memMin * WASM_PAGE else 0
  let l ← layoutData memSize memMax s.pendingData {}
  let table ← ofErr (placeElems s.pendingElem s.table)
  if s.funcs.isEmpty then throw (.err "no functions")
  return {
    code := s.code, consts := s.consts, funcs := s.funcs, exports := s.exports
    globals := s.globals, memory := l.memory, memMax := memMax, memSize := memSize
    dataBlob := l.dataBlob, dataOff := l.dataOff, dataLen := l.dataLen, dataLive := l.dataLive
    table := table, funcTypeidx := s.funcTypeidx, typeFp := typeFp
    nHostImports := s.hostFnIds.length, hostFnId := s.hostFnIds
    hostImportMod := s.hostImportMod, hostImportName := s.hostImportName
    hostImportEnv := s.hostImportEnv }

/-- `translate_wasm`. -/
def translateWasm (payloads : List (Parsed Payload)) : Except Stop HostModule := do
  let s ← each "parse" (payload p) payloads {}
  finish p s

end

/-! ## The exported function -/

/-- `vec_to_raw`: the pointer and the length. -/
def vecToRaw {α : Type} (v : List α) : Option (List α) × Nat := (some v, v.length % 2 ^ 32)

/-- `cstring_err`. -/
def cstringErr (msg : String) : Except Panic CString :=
  unwrap (CString.new (String.ofList (msg.toList.filter (· ≠ NUL))))

/-- The loop over the exports. -/
def exportArrays : List (String × Nat) → Except Panic (List CString × List Nat)
  | [] => .ok ([], [])
  | (name, idx) :: rest => do
    let name ← unwrap (CString.new name)
    let (names, idxs) ← exportArrays rest
    return (name :: names, idx :: idxs)

/-- The string at `i`, as a string of C. -/
def cstringAt (xs : List String) (i : Nat) : Except Panic CString := do
  let x ← index xs i
  unwrap (CString.new x)

/-- The loop over the host imports. -/
def importArrays (m : HostModule) :
    List Nat → Except Panic (List CString × List CString × List CString)
  | [] => .ok ([], [], [])
  | i :: is => do
    let himod ← cstringAt m.hostImportMod i
    let hiname ← cstringAt m.hostImportName i
    let hienv ← cstringAt m.hostImportEnv i
    let (himods, hinames, hienvs) ← importArrays m is
    return (himod :: himods, hiname :: hinames, hienv :: hienvs)

/-- The arrays of a module, as they are handed over. -/
def moduleOut (p : Profile) (m : HostModule) : Except Panic TranslateOut := do
  let (code, nCode) := vecToRaw m.code
  let (consts, nConsts) := vecToRaw m.consts
  let (funcs, nFuncs) := vecToRaw m.funcs
  let (names, idxs) ← exportArrays m.exports
  let (exportNames, nExports1) := vecToRaw names
  let (exportIdxs, nExports2) := vecToRaw idxs
  debugAssertEq p nExports1 nExports2
  let (globals, nGlobals) := vecToRaw m.globals
  let (memory, memMaxChk) := vecToRaw ((List.range m.memMax).map m.memory)
  debugAssertEq p m.memMax memMaxChk
  let dataBlobLenExpect := m.dataBlob.length % 2 ^ 32
  let (dataBlob, dataBlobLen) := vecToRaw m.dataBlob
  debugAssertEq p dataBlobLenExpect dataBlobLen
  let nData := m.dataLive.length % 2 ^ 32
  let (dataOff, n1) := vecToRaw m.dataOff
  let (dataLen, n2) := vecToRaw m.dataLen
  let (dataLive, n3) := vecToRaw m.dataLive
  debugAssertEq p nData n1
  debugAssertEq p nData n2
  debugAssertEq p nData n3
  let (table, tableLen) := vecToRaw m.table
  let (funcTypeidx, nTidx) := vecToRaw m.funcTypeidx
  debugAssertEq p nTidx nFuncs
  let (typeFp, nTypes) := vecToRaw m.typeFp
  let (hostFnId, nHost1) := vecToRaw m.hostFnId
  let nHostImports := m.nHostImports % 2 ^ 32
  debugAssertEq p nHostImports nHost1
  let (himods, hinames, hienvs) ← importArrays m (List.range nHostImports)
  let (hostImportMod, nHost2) := vecToRaw himods
  let (hostImportName, nHost3) := vecToRaw hinames
  let (hostImportEnv, nHost4) := vecToRaw hienvs
  debugAssertEq p nHostImports nHost2
  debugAssertEq p nHostImports nHost3
  debugAssertEq p nHostImports nHost4
  return {
    code := code, nCode := nCode, consts := consts, nConsts := nConsts
    funcs := funcs, nFuncs := nFuncs
    exportNames := exportNames, exportIdxs := exportIdxs, nExports := nExports1
    globals := globals, nGlobals := nGlobals
    memory := memory, memSize := m.memSize, memMax := m.memMax
    dataBlob := dataBlob, dataBlobLen := dataBlobLen
    dataOff := dataOff, dataLen := dataLen, dataLive := dataLive, nData := nData
    table := table, tableLen := tableLen, funcTypeidx := funcTypeidx
    typeFp := typeFp, nTypes := nTypes
    nHostImports := nHostImports, hostFnId := hostFnId
    hostImportMod := hostImportMod, hostImportName := hostImportName
    hostImportEnv := hostImportEnv }

/-- The bytes `data` points to. -/
def bytesAt (data : Option (List Byte)) (len : Nat) : List Byte :=
  if len = 0 then [] else (data.getD []).take len

/-- `cuwasm_translate_wasm` for an `out` that is not null: the code it returns and `*out`. `parse`
stands for `Parser::parse_all`. -/
def cuwasmTranslateWasm (p : Profile) (parse : List Byte → List (Parsed Payload))
    (data : Option (List Byte)) (len : Nat) : Except Panic (Int × TranslateOut) :=
  if data = none ∧ len ≠ 0 then do
    let err ← cstringErr "null data"
    return (-1, { err := some err })
  else
    match translateWasm p (parse (bytesAt data len)) with
    | .ok m => do
      let out ← moduleOut p m
      return (0, out)
    | .error (.err e) => do
      let err ← cstringErr e
      return (-1, { err := some err })
    | .error (.panic e) => .error e

end Checked

end CuWasm
