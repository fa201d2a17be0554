import CuWasm.Translate
import CuWasm.Wasm.Heights

/-!
# Wasm modules

A decoded module with function bodies as syntax trees, the payloads `wasmparser` yields for it, and
its validity. Only the conditions of validation that concern types, functions and bodies are stated;
an entity the translator refuses (an imported memory, a type that is no function type) may occur in a
module but not in its validation contexts.
-/

namespace CuWasm.Wasm

/-- An entry of the code section: groups of locals and the body. -/
structure Func where
  locals : List (Nat × ValType)
  body : Body

/-- A module, section by section. A global comes with its mutability. -/
structure Module where
  types : List (List CompositeType) := []
  imports : List Import := []
  funcs : List Nat := []
  tables : List TableEntry := []
  mems : List MemoryType := []
  globals : List (GlobalEntry × Bool) := []
  exports : List Export := []
  start : Bool := false
  elems : List Element := []
  code : List Func := []
  datas : List Data := []

/-- A function type among the types. -/
def functionType : CompositeType → Option FuncType
  | .func ft => some ft
  | .other => none

/-- The type index of an imported function. -/
def importType (imp : Import) : Option Nat :=
  match imp.ty with
  | .func t => some t
  | .other _ => none

namespace Module

variable (M : Module)

/-- The type index space. -/
def funcTypes : List FuncType := M.types.flatten.filterMap functionType

/-- The type indices of the function index space, imports first. -/
def funcTypeidx : List Nat := M.imports.filterMap importType ++ M.funcs

/-- The validation context of a function of type `ft` with the locals of `c`. -/
def ctx (ft : FuncType) (c : Func) : Ctx where
  types := M.funcTypes
  funcs := M.funcTypeidx
  globals := M.globals.map fun g => (g.1.contentType, g.2)
  locals := ft.1 ++ c.locals.flatMap fun g => List.replicate g.1 g.2
  memories := M.mems.length
  tables := M.tables.length
  datas := M.datas.length
  results := ft.2

/-- The type of the function that the code entry `k` defines. -/
def codeType (k : Nat) : Option FuncType := M.funcs[k]?.bind fun ti => M.funcTypes[ti]?

/-- Every function has a type and a body, and every body is valid. -/
structure Valid : Prop where
  types : ∀ ti ∈ M.funcTypeidx, ti < M.funcTypes.length
  code : M.code.length = M.funcs.length
  body : ∀ k ft c, M.codeType k = some ft → M.code[k]? = some c → c.body.Valid (M.ctx ft c)

/-- The code entry of a function. -/
def codeEntry (c : Func) : Parsed Payload :=
  .ok (.codeSectionEntry { locals := .ok (c.locals.map .ok), ops := .ok (c.body.function.map .ok) })

/-- The payloads in front of the code. -/
def header : List (Parsed Payload) :=
  [.ok (.typeSection (M.types.map .ok)), .ok (.importSection (M.imports.map .ok)),
    .ok (.functionSection (M.funcs.map .ok)), .ok (.tableSection (M.tables.map .ok)),
    .ok (.memorySection (M.mems.map .ok)), .ok (.globalSection (M.globals.map fun g => .ok g.1)),
    .ok (.exportSection (M.exports.map .ok))] ++
  (if M.start then [.ok .startSection] else []) ++ [.ok (.elementSection (M.elems.map .ok))]

/-- The payloads in the order of the binary format. -/
def payloads : List (Parsed Payload) :=
  M.header ++ M.code.map codeEntry ++ [.ok (.dataSection (M.datas.map .ok))]

/-- The state of the translator in front of the code entry `k`. -/
def before (k : Nat) : Except String Translate.TState :=
  Translate.each "parse" Translate.payload (M.header ++ (M.code.take k).map codeEntry) {}

/-- The number of slots a frame of a function may need: parameters, locals, the scratch local of a
`br_table`, and the deepest operand stack, with `extra` more operands in front of a `br_table` that
compares its index. -/
def frameSize (extra : Nat) (ft : FuncType) (c : Func) : Nat :=
  ft.1.length + (c.locals.map (·.1)).sum + (if c.body.function.any Operator.isBrTable then 1 else 0) +
    c.body.deepest (M.ctx ft c) extra (some 0)

/-- Every frame fits in 65535 slots, with `extra` slots more for a `br_table`. -/
def FramesFit (extra : Nat) : Prop :=
  ∀ k ft c, M.codeType k = some ft → M.code[k]? = some c → M.frameSize extra ft c ≤ 65535

end Module

/-- A payload without content: an empty section, a custom section, the data count. -/
def trivialPayload : Parsed Payload → Bool
  | .ok (.typeSection []) | .ok (.functionSection []) | .ok (.importSection [])
  | .ok (.memorySection []) | .ok (.tableSection []) | .ok (.elementSection [])
  | .ok (.dataSection []) | .ok .dataCountSection | .ok (.globalSection [])
  | .ok (.exportSection []) | .ok .other => true
  | _ => false

/-- The payloads `ps` are those of the module, up to payloads without content. -/
def Encodes (M : Module) (ps : List (Parsed Payload)) : Prop :=
  (ps.filter fun p => !trivialPayload p) = M.payloads.filter fun p => !trivialPayload p

end CuWasm.Wasm
