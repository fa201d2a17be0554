import CuWasm.EnvFnId
import CuWasm.Host
import CuWasm.Lower

/-!
# The translator `translate_wasm`

`lib.rs`, over the payloads that `wasmparser::Parser` yields for a byte string. The parser is a
library outside the repository: a payload, and every item a section reader yields, is either the
decoded thing or the parser's error text. No validator runs, so nothing is assumed about how the
sections fit together.
-/

namespace CuWasm

open Wasm BlockMove

/-- What a reader of the parser yields. -/
abbrev Parsed (α : Type) := Except String α

/-- The composite types of the type section; only function types are told apart. -/
inductive CompositeType where
  | func (ft : FuncType)
  | other

/-- `wasmparser::TypeRef` of an import. -/
inductive TypeRef where
  | func (typeIdx : Nat)
  | other (text : String)

/-- An import entry. -/
structure Import where
  module : String
  name : String
  ty : TypeRef

/-- `wasmparser::MemoryType`. -/
structure MemoryType where
  memory64 : Bool := false
  shared : Bool := false
  pageSizeLog2 : Option Nat := none
  initial : Nat
  maximum : Option Nat := none

/-- A constant expression, operator by operator. -/
abbrev ConstExpr := List (Parsed Operator)

/-- A table entry, with the initialiser if it has one. -/
structure TableEntry where
  table64 : Bool := false
  isFuncRef : Bool := true
  elementType : String := "funcref"
  initial : Nat
  init : Option ConstExpr := none

/-- `wasmparser::ElementKind`. -/
inductive ElementKind where
  | active (tableIndex : Option Nat) (offset : ConstExpr)
  | passive
  | declared

/-- `wasmparser::ElementItems`. -/
inductive ElementItems where
  | functions (idxs : List (Parsed Nat))
  | expressions (exprs : List (Parsed ConstExpr))

/-- An element segment. -/
structure Element where
  kind : ElementKind
  items : ElementItems

/-- `wasmparser::DataKind`. -/
inductive DataKind where
  | active (memoryIndex : Nat) (offset : ConstExpr)
  | passive

/-- A data segment. -/
structure Data where
  kind : DataKind
  data : List Byte

/-- A global entry. -/
structure GlobalEntry where
  contentType : ValType
  initExpr : ConstExpr

/-- An export entry; only function exports are told apart. -/
structure Export where
  name : String
  isFunc : Bool
  index : Nat

/-- A function body: its local declarations and its operators. -/
structure FunctionBody where
  locals : Parsed (List (Parsed (Nat × ValType)))
  ops : Parsed (List (Parsed Operator))

/-- `wasmparser::Payload`. -/
inductive Payload where
  | typeSection (recs : List (Parsed (List CompositeType)))
  | functionSection (idxs : List (Parsed Nat))
  | importSection (imps : List (Parsed Import))
  | memorySection (mems : List (Parsed MemoryType))
  | tableSection (tabs : List (Parsed TableEntry))
  | elementSection (els : List (Parsed Element))
  | dataSection (segs : List (Parsed Data))
  | dataCountSection
  | globalSection (gs : List (Parsed GlobalEntry))
  | exportSection (exs : List (Parsed Export))
  | codeSectionEntry (body : FunctionBody)
  | startSection
  | other

/-- `only_int`. -/
def onlyInt : List ValType → Except String Unit
  | [] => .ok ()
  | t :: ts =>
    match t with
    | .i32 | .i64 | .f32 | .f64 => onlyInt ts
    | _ => .error ("unsupported valtype " ++ t.text)

/-- The closure `tag` of `type_fingerprint`. -/
def typeTag (t : ValType) : Except String Nat :=
  match t with
  | .i32 => .ok 0
  | .i64 => .ok 1
  | .f32 => .ok 2
  | .f64 => .ok 3
  | _ => .error ("unsupported valtype " ++ t.text)

/-- The loops of `type_fingerprint`: two bits per type from bit `shift` on. -/
def typeTags (shift : Nat) : List ValType → Nat → Except String Nat
  | [], fp => .ok fp
  | t :: ts, fp => do
    let tag ← typeTag t
    typeTags (shift + 2) ts (fp ||| tag <<< shift)

/-- `type_fingerprint`. -/
def typeFingerprint (ft : FuncType) : Except String Nat :=
  if ft.1.length > 8 ∨ ft.2.length > 8 then .error "too many params/results for type fingerprint"
  else do
    let fp ← typeTags 16 ft.1 (ft.1.length ||| ft.2.length <<< 8)
    typeTags 32 ft.2 fp

/-- The arithmetic operators of `eval_i32_expr` on its stack, top first. -/
def constArith (f : BitVec 32 → BitVec 32 → BitVec 32) (st : List (BitVec 32)) :
    Except String (List (BitVec 32)) :=
  match st with
  | b :: a :: rest => .ok (f a b :: rest)
  | _ => .error "constexpr underflow"

/-- The loop of `eval_i32_expr`. -/
def evalI32Loop : ConstExpr → List (BitVec 32) → Except String (List (BitVec 32))
  | [], st => .ok st
  | .error e :: _, _ => .error ("constexpr: " ++ e)
  | .ok op :: ops, st =>
    match op with
    | .const (.i32 x) => evalI32Loop ops (x :: st)
    | .num .i32Add => do evalI32Loop ops (← constArith (· + ·) st)
    | .num .i32Sub => do evalI32Loop ops (← constArith (· - ·) st)
    | .num .i32Mul => do evalI32Loop ops (← constArith (· * ·) st)
    | .end_ => evalI32Loop ops st
    | .globalGet _ => .error "imported global in offset expr"
    | other => .error ("unsupported constexpr " ++ reprStr other)

/-- `eval_i32_expr`. -/
def evalI32Expr (ops : ConstExpr) : Except String Nat := do
  match ← evalI32Loop ops [] with
  | [] => .error "empty constexpr"
  | x :: _ => .ok x.toNat

/-- The initialiser of a global. -/
def globalInit : ConstExpr → Option Slot → Except String Slot
  | [], some x => .ok x
  | [], none => .error "empty global init"
  | .error e :: _, _ => .error ("global init: " ++ e)
  | .ok op :: ops, x =>
    match op with
    | .const c => globalInit ops (some (ConstOp.slot c))
    | .end_ => globalInit ops x
    | other => .error ("unsupported global init " ++ reprStr other)

/-- An element expression: a function index or null. -/
def elemExpr : ConstExpr → Option Nat → Except String Nat
  | [], some x => .ok x
  | [], none => .error "empty elem expr"
  | .error e :: _, _ => .error ("elem op: " ++ e)
  | .ok op :: ops, x =>
    match op with
    | .refFunc fi => elemExpr ops (some fi)
    | .refNull => elemExpr ops (some TABLE_NULL)
    | .end_ => elemExpr ops x
    | other => .error ("unsupported elem expr " ++ reprStr other)

namespace Translate

/-- The mutable variables of `translate_wasm`. -/
structure TState where
  funcTypes : List FuncType := []
  funcTypeidx : List Nat := []
  exports : List (String × Nat) := []
  code : List CuOp := []
  consts : List Slot := []
  funcs : List FuncMeta := []
  globals : List Slot := []
  memMin : Nat := 0
  memMaxPages : Option Nat := none
  hasMemory : Bool := false
  table : List Nat := []
  pendingData : List (Bool × Nat × List Byte) := []
  pendingElem : List (Nat × List Nat) := []
  hostFnIds : List Nat := []
  hostImportMod : List String := []
  hostImportName : List String := []
  hostImportEnv : List String := []

/-- `for x in reader { let x = x.map_err(..)?; .. }` -/
def each {σ α : Type} (what : String) (f : σ → α → Except String σ) :
    List (Parsed α) → σ → Except String σ
  | [], s => .ok s
  | .error e :: _, _ => .error (what ++ ": " ++ e)
  | .ok a :: rest, s => do
    let s ← f s a
    each what f rest s

/-- The items of a reader, when all of them decode. -/
def collect {α : Type} (what : String) (xs : List (Parsed α)) : Except String (List α) :=
  each what (fun acc x => .ok (acc ++ [x])) xs []

/-- The types of one entry of the type section. -/
def addTypes : List CompositeType → TState → Except String TState
  | [], s => .ok s
  | .func ft :: rest, s => do
    onlyInt ft.1
    onlyInt ft.2
    addTypes rest { s with funcTypes := s.funcTypes ++ [ft] }
  | .other :: _, _ => .error "non-func type in type section"

/-- One entry of the import section. A function import becomes a placeholder `FuncMeta` without
code. -/
def addImport (s : TState) (imp : Import) : Except String TState :=
  match imp.ty with
  | .func t =>
    match s.funcTypes[t]? with
    | none => .error ("import type oob: " ++ imp.module ++ "::" ++ imp.name)
    | some ft => do
      onlyInt ft.1
      onlyInt ft.2
      let fnId ← EnvFnId.lookup imp.module imp.name
      .ok { s with
        funcTypeidx := s.funcTypeidx ++ [t]
        hostFnIds := s.hostFnIds ++ [fnId]
        hostImportMod := s.hostImportMod ++ [imp.module]
        hostImportName := s.hostImportName ++ [imp.name]
        hostImportEnv := s.hostImportEnv ++ [(EnvFnId.label fnId).getD "?"]
        funcs := s.funcs ++ [{
          codeOff := 0, codeLen := 0, nParams := ft.1.length % 2 ^ 16
          nResults := ft.2.length % 2 ^ 16, nLocals := 0 }] }
  | .other text => .error ("unsupported import " ++ text ++ ": " ++ imp.module ++ "::" ++ imp.name)

/-- One entry of the memory section. -/
def addMemory (s : TState) (mt : MemoryType) : Except String TState :=
  if s.hasMemory then .error "multiple memories not supported"
  else if mt.memory64 then .error "memory64 not supported"
  else if mt.shared then .error "shared memory not supported"
  else if mt.pageSizeLog2.isSome then .error "custom page size not supported"
  else .ok { s with memMin := mt.initial, memMaxPages := mt.maximum, hasMemory := true }

/-- One entry of the table section. -/
def addTable (s : TState) (t : TableEntry) : Except String TState :=
  if ¬ s.table.isEmpty then .error "multiple tables not supported"
  else if t.table64 then .error "table64 not supported"
  else if ¬ t.isFuncRef then .error ("unsupported table elem type " ++ t.elementType)
  else if t.initial > 1024 then .error "table too large"
  else .ok { s with table := List.replicate t.initial TABLE_NULL }

/-- The function indices of an element segment. -/
def elemItems : ElementItems → Except String (List Nat)
  | .functions idxs => collect "elem func" idxs
  | .expressions exprs =>
    each "elem expr" (fun acc ops => do return acc ++ [← elemExpr ops none]) exprs []

/-- One element segment. -/
def addElement (s : TState) (el : Element) : Except String TState := do
  let off ← match el.kind with
    | .active tableIndex offset =>
      if tableIndex.getD 0 ≠ 0 then .error "elem to non-zero table" else evalI32Expr offset
    | .passive | .declared => .error "passive/declared elem not supported"
  let idxs ← elemItems el.items
  return { s with pendingElem := s.pendingElem ++ [(off, idxs)] }

/-- One data segment. -/
def addData (s : TState) (d : Data) : Except String TState :=
  match d.kind with
  | .active memoryIndex offset =>
    if memoryIndex ≠ 0 then .error "data to non-zero memory"
    else do
      let off ← evalI32Expr offset
      return { s with pendingData := s.pendingData ++ [(true, off, d.data)] }
  | .passive => .ok { s with pendingData := s.pendingData ++ [(false, 0, d.data)] }

/-- One global. -/
def addGlobal (s : TState) (g : GlobalEntry) : Except String TState :=
  match g.contentType with
  | .i32 | .i64 | .f32 | .f64 => do
    let x ← globalInit g.initExpr none
    return { s with globals := s.globals ++ [x] }
  | t => .error ("unsupported global type " ++ t.text)

/-- One export. -/
def addExport (s : TState) (ex : Export) : Except String TState :=
  if ex.isFunc then .ok { s with exports := s.exports ++ [(ex.name, ex.index)] } else .ok s

/-- The number of declared locals: the sum of the groups' counts, in `u32`. -/
def countLocals (locals : List (Parsed (Nat × ValType))) : Except String Nat :=
  each "local" (fun n (cnt, ty) =>
    match ty with
    | .i32 | .i64 | .f32 | .f64 =>
      if n + cnt ≥ 2 ^ 32 then .error "too many locals" else .ok (n + cnt)
    | t => .error ("non-int local " ++ t.text)) locals 0

/-- The stub that stands in for a function that could not be lowered. -/
def stub (codeOff nParams nResults : Nat) : FuncMeta :=
  { codeOff := codeOff, codeLen := 2, nParams := nParams, nResults := nResults, nLocals := 0 }

/-- The module part of the arguments of `lower_operators`. -/
def TState.lowerModule (s : TState) : LowerModule where
  funcTypes := s.funcTypes
  funcTypeidx := s.funcTypeidx
  nImports := s.hostFnIds.length
  hostFnIds := s.hostFnIds

/-- Lower one body, or emit the stub behind whatever the failed pass has left. -/
def lowerBody (s : TState) (ft : FuncType) (nLocals : Nat) (ops : List Operator) : TState :=
  let nParams := ft.1.length % 2 ^ 16
  let nResults := ft.2.length % 2 ^ 16
  match lowerOperators s.lowerModule ops nParams nResults nLocals s.code s.consts with
  | (.ok f, code, consts) => { s with code := code, consts := consts, funcs := s.funcs ++ [f] }
  | (.error _, code, consts) =>
    { s with
      code := code ++ [{ op := .unreachable }, { op := .endFunc, a := nResults }]
      consts := consts
      funcs := s.funcs ++ [stub code.length nParams nResults] }

/-- One entry of the code section. -/
def addCode (s : TState) (body : FunctionBody) : Except String TState :=
  match s.funcTypeidx[s.funcs.length]? with
  | none => .error "code/function section mismatch"
  | some tidx =>
    match s.funcTypes[tidx]? with
    | none => .error "type index oob"
    | some ft => do
      let locals ← body.locals.mapError ("locals: " ++ ·)
      let nLocals ← countLocals locals
      if nLocals > 2 ^ 16 - 1 then throw "too many locals"
      let ops ← body.ops.mapError ("ops: " ++ ·)
      let ops ← collect "op" ops
      return lowerBody s ft nLocals ops

/-- The `match` over the payloads. -/
def payload (s : TState) : Payload → Except String TState
  | .typeSection recs => each "type" (fun s tys => addTypes tys s) recs s
  | .functionSection idxs =>
    each "funcsec" (fun s i => .ok { s with funcTypeidx := s.funcTypeidx ++ [i] }) idxs s
  | .importSection imps => each "import" addImport imps s
  | .memorySection mems => each "memory" addMemory mems s
  | .tableSection tabs => each "table" addTable tabs s
  | .elementSection els => each "elem" addElement els s
  | .dataSection segs => each "data" addData segs s
  | .dataCountSection => .ok s
  | .globalSection gs => each "global" addGlobal gs s
  | .exportSection exs => each "export" addExport exs s
  | .codeSectionEntry body => addCode s body
  | .startSection => .error "start section not supported"
  | .other => .ok s

/-- The fingerprints of all types. -/
def fingerprints : List FuncType → Except String (List Nat)
  | [] => .ok []
  | ft :: rest => do
    let fp ← typeFingerprint ft
    let fps ← fingerprints rest
    return fp :: fps

/-- The data segments laid out so far. -/
structure Layout where
  memory : Nat → Byte := fun _ => 0
  dataBlob : List Byte := []
  dataOff : List Nat := []
  dataLen : List Nat := []
  dataLive : List Byte := []

/-- The loop over the pending data segments. A module has one data section, of less than 2^32 bytes, so
the casts of offsets and lengths to `u32` change nothing. -/
def layoutData (memSize : Nat) : List (Bool × Nat × List Byte) → Layout → Except String Layout
  | [], l => .ok l
  | (active, off, bytes) :: rest, l =>
    if active ∧ off + bytes.length > memSize then .error "data segment out of bounds"
    else layoutData memSize rest {
      memory := if active then fillAsc l.memory off (bytes.getD · 0) bytes.length else l.memory
      dataBlob := l.dataBlob ++ bytes
      dataOff := l.dataOff ++ [l.dataBlob.length]
      dataLen := l.dataLen ++ [bytes.length]
      dataLive := l.dataLive ++ [if active then 0 else 1] }

/-- Place the functions of one element segment from slot `slot` on. -/
def placeElem : Nat → List Nat → List Nat → Except String (List Nat)
  | _, [], table => .ok table
  | slot, fi :: fis, table =>
    if slot ≥ table.length then .error "elem segment out of bounds"
    else placeElem (slot + 1) fis (table.set slot fi)

/-- The loop over the pending element segments. -/
def placeElems : List (Nat × List Nat) → List Nat → Except String (List Nat)
  | [], table => .ok table
  | (off, idxs) :: rest, table => do
    let table ← placeElem off idxs table
    placeElems rest table

/-- What `translate_wasm` does behind the loop over the payloads. -/
def finish (s : TState) : Except String HostModule := do
  let typeFp ← fingerprints s.funcTypes
  let capPages := min (s.memMaxPages.getD 1024) 1024
  if s.hasMemory ∧ s.memMin > capPages then throw "memory too large for host"
  let memMax := if s.hasMemory then capPages * WASM_PAGE else 0
  let memSize := if s.hasMemory then s.memMin * WASM_PAGE else 0
  let l ← layoutData memSize s.pendingData {}
  let table ← placeElems s.pendingElem s.table
  if s.funcs.isEmpty then throw "no functions"
  return {
    code := s.code, consts := s.consts, funcs := s.funcs, exports := s.exports
    globals := s.globals, memory := l.memory, memMax := memMax, memSize := memSize
    dataBlob := l.dataBlob, dataOff := l.dataOff, dataLen := l.dataLen, dataLive := l.dataLive
    table := table, funcTypeidx := s.funcTypeidx, typeFp := typeFp
    nHostImports := s.hostFnIds.length, hostFnId := s.hostFnIds
    hostImportMod := s.hostImportMod, hostImportName := s.hostImportName
    hostImportEnv := s.hostImportEnv }

end Translate

/-- `translate_wasm` of `lib.rs`. -/
def translateWasm (payloads : List (Parsed Payload)) : Except String HostModule := do
  let s ← Translate.each "parse" Translate.payload payloads {}
  Translate.finish s

/-- `translate_wasm` of `translate.cpp`: the module behind the C boundary. Its copy of
`func_typeidx` has as many entries as there are functions. -/
def loadWasm (payloads : List (Parsed Payload)) : Except String HostModule := do
  let m ← translateWasm payloads
  return { m with funcTypeidx := m.funcTypeidx.take m.funcs.length }

end CuWasm
