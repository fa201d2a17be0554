import CuWasm.Wasm.Syntax

/-!
# The Wasm type system

Validation of instruction sequences, in the declarative form of the specification: behind an
unconditional branch the operand stack may have any type. Operand stacks are lists of types with the
top first.

`Typed C L r ts b us` also records in `r` whether the sequence may be reached at all. Only a
`br_table` uses it: in unreachable code its labels need not agree on more than their arity. An
operator outside the modelled part has any type, so that validity here is implied by the
specification's.
-/

namespace CuWasm.Wasm

/-- A validation context, less the labels. -/
structure Ctx where
  types : List FuncType
  funcs : List Nat
  globals : List (ValType × Bool)
  locals : List ValType
  memories : Nat
  tables : Nat
  datas : Nat
  results : List ValType

/-- Number types. -/
def ValType.isNum : ValType → Bool
  | .i32 | .i64 | .f32 | .f64 => true
  | _ => false

/-- The type of a constant. -/
def ConstOp.type : ConstOp → ValType
  | .i32 _ => .i32
  | .i64 _ => .i64
  | .f32 _ => .f32
  | .f64 _ => .f64

/-- Operand and result types of an integer operator; all operands have one type, and so do all
results. -/
def NumOp.type : NumOp → (Nat × ValType) × (Nat × ValType)
  | .i32Eqz | .i32Clz => ((1, .i32), (1, .i32))
  | .i32Eq | .i32Ne | .i32LtS | .i32LtU | .i32LeS | .i32LeU | .i32GtS | .i32GtU | .i32GeS | .i32GeU
  | .i32Add | .i32Sub | .i32Mul | .i32And | .i32Or | .i32Xor | .i32DivS | .i32DivU | .i32RemS
  | .i32RemU | .i32Shl | .i32ShrS | .i32ShrU => ((2, .i32), (1, .i32))
  | .i32WrapI64 | .i64Eqz => ((1, .i64), (1, .i32))
  | .i64Eq | .i64Ne | .i64LtS | .i64LtU | .i64LeS | .i64LeU | .i64GtS | .i64GtU | .i64GeS | .i64GeU =>
    ((2, .i64), (1, .i32))
  | .i64Add | .i64Sub | .i64Mul | .i64And | .i64Or | .i64Xor | .i64DivS | .i64DivU | .i64RemS
  | .i64RemU | .i64Shl | .i64ShrS | .i64ShrU => ((2, .i64), (1, .i64))
  | .i64Extend32S | .i64Clz => ((1, .i64), (1, .i64))
  | .i64ExtendI32S | .i64ExtendI32U => ((1, .i32), (1, .i64))
  | .i64MulWideS | .i64MulWideU => ((2, .i64), (2, .i64))
  | .i64Add128 | .i64Sub128 => ((4, .i64), (2, .i64))

/-- The operand types of an integer operator. -/
def NumOp.pops (o : NumOp) : List ValType := List.replicate o.type.1.1 o.type.1.2

/-- The result types of an integer operator. -/
def NumOp.pushes (o : NumOp) : List ValType := List.replicate o.type.2.1 o.type.2.2

/-- The type of a loaded value. -/
def LoadOp.type : LoadOp → ValType
  | .i32Load | .i32Load8S | .i32Load8U | .i32Load16S | .i32Load16U => .i32
  | .i64Load | .i64Load8S | .i64Load8U | .i64Load16S | .i64Load16U | .i64Load32S | .i64Load32U => .i64
  | .f32Load => .f32
  | .f64Load => .f64

/-- The type of a stored value. -/
def StoreOp.type : StoreOp → ValType
  | .i32Store | .i32Store8 | .i32Store16 => .i32
  | .i64Store | .i64Store8 | .i64Store16 | .i64Store32 => .i64
  | .f32Store => .f32
  | .f64Store => .f64

/-- Operand and result type of a reinterpretation. -/
def Reinterpret.type : Reinterpret → ValType × ValType
  | .i32F32 => (.f32, .i32)
  | .f32I32 => (.i32, .f32)
  | .i64F64 => (.f64, .i64)
  | .f64I64 => (.i64, .f64)

/-- Parameters and results of a block type. -/
def BlockType.expand (types : List FuncType) : BlockType → Option FuncType
  | .empty => some ([], [])
  | .type t => some ([], [t])
  | .funcType idx => types[idx]?

/-- The operators that have one fixed type: operands and results, top first. -/
inductive OpTyped (C : Ctx) : Operator → List ValType → List ValType → Prop where
  | nop : OpTyped C .nop [] []
  | const (c : ConstOp) : OpTyped C (.const c) [] [c.type]
  | drop (t : ValType) : OpTyped C .drop [t] []
  | select {t : ValType} (h : t.isNum = true ∨ t = .v128) : OpTyped C .select [.i32, t, t] [t]
  | typedSelect (t : ValType) : OpTyped C (.typedSelect t) [.i32, t, t] [t]
  | num (o : NumOp) : OpTyped C (.num o) o.pops o.pushes
  | globalGet {i : Nat} {t : ValType} {mutable : Bool} (h : C.globals[i]? = some (t, mutable)) :
      OpTyped C (.globalGet i) [] [t]
  | globalSet {i : Nat} {t : ValType} (h : C.globals[i]? = some (t, true)) :
      OpTyped C (.globalSet i) [t] []
  | localGet {i : Nat} {t : ValType} (h : C.locals[i]? = some t) : OpTyped C (.localGet i) [] [t]
  | localSet {i : Nat} {t : ValType} (h : C.locals[i]? = some t) : OpTyped C (.localSet i) [t] []
  | localTee {i : Nat} {t : ValType} (h : C.locals[i]? = some t) : OpTyped C (.localTee i) [t] [t]
  | call {fi ti : Nat} {ft : FuncType} (hf : C.funcs[fi]? = some ti) (ht : C.types[ti]? = some ft) :
      OpTyped C (.call fi) ft.1.reverse ft.2.reverse
  | callIndirect {ti tab : Nat} {ft : FuncType} (ht : C.types[ti]? = some ft) (hb : tab < C.tables) :
      OpTyped C (.callIndirect ti tab) (.i32 :: ft.1.reverse) ft.2.reverse
  | load (o : LoadOp) {ma : MemArg} (hm : ma.memory < C.memories) (ho : ma.offset < 2 ^ 32) :
      OpTyped C (.load o ma) [.i32] [o.type]
  | store (o : StoreOp) {ma : MemArg} (hm : ma.memory < C.memories) (ho : ma.offset < 2 ^ 32) :
      OpTyped C (.store o ma) [o.type, .i32] []
  | memorySize {mem : Nat} (hm : mem < C.memories) : OpTyped C (.memorySize mem) [] [.i32]
  | memoryGrow {mem : Nat} (hm : mem < C.memories) : OpTyped C (.memoryGrow mem) [.i32] [.i32]
  | memoryCopy {dst src : Nat} (hd : dst < C.memories) (hs : src < C.memories) :
      OpTyped C (.memoryCopy dst src) [.i32, .i32, .i32] []
  | memoryFill {mem : Nat} (hm : mem < C.memories) : OpTyped C (.memoryFill mem) [.i32, .i32, .i32] []
  | memoryInit {di mem : Nat} (hd : di < C.datas) (hm : mem < C.memories) :
      OpTyped C (.memoryInit di mem) [.i32, .i32, .i32] []
  | dataDrop {di : Nat} (hd : di < C.datas) : OpTyped C (.dataDrop di) [] []
  | reinterpret (x : Reinterpret) : OpTyped C (.reinterpret x) [x.type.1] [x.type.2]
  | refFunc {fi : Nat} (h : fi < C.funcs.length) : OpTyped C (.refFunc fi) [] [.ref "funcref"]
  | refNull (text : String) : OpTyped C .refNull [] [.ref text]
  | other (text : String) (ps qs : List ValType) : OpTyped C (.other text) ps qs

/-- Validity of an instruction sequence under the labels `L`, innermost first. -/
inductive Typed (C : Ctx) :
    List (List ValType) → Bool → List ValType → Body → List ValType → Prop where
  | nil {L : List (List ValType)} {r : Bool} {ts : List ValType} : Typed C L r ts .nil ts
  | op {L : List (List ValType)} {r : Bool} {o : Operator} {ps qs ts us : List ValType} {rest : Body}
      (ho : OpTyped C o ps qs) (hr : Typed C L r (qs ++ ts) rest us) :
      Typed C L r (ps ++ ts) (.op o rest) us
  | unreachable {L : List (List ValType)} {r : Bool} {ts ts' us : List ValType} {rest : Body}
      (hr : Typed C L false ts' rest us) : Typed C L r ts (.op .unreachable rest) us
  | br {L : List (List ValType)} {r : Bool} {l : Nat} {lt ts ts' us : List ValType} {rest : Body}
      (hl : L[l]? = some lt) (hr : Typed C L false ts' rest us) :
      Typed C L r (lt ++ ts) (.op (.br l) rest) us
  | brIf {L : List (List ValType)} {r : Bool} {l : Nat} {lt ts us : List ValType} {rest : Body}
      (hl : L[l]? = some lt) (hr : Typed C L r (lt ++ ts) rest us) :
      Typed C L r (.i32 :: (lt ++ ts)) (.op (.brIf l) rest) us
  | brTable {L : List (List ValType)} {r : Bool} {ls : List Nat} {l : Nat}
      {lt ts ts' us : List ValType} {rest : Body} (hl : L[l]? = some lt)
      (hls : ∀ k ∈ ls, ∃ lt', L[k]? = some lt' ∧ lt'.length = lt.length ∧ (r = true → lt' = lt))
      (hr : Typed C L false ts' rest us) :
      Typed C L r (.i32 :: (lt ++ ts)) (.op (.brTable ls l) rest) us
  | return_ {L : List (List ValType)} {r : Bool} {ts ts' us : List ValType} {rest : Body}
      (hr : Typed C L false ts' rest us) :
      Typed C L r (C.results.reverse ++ ts) (.op .return_ rest) us
  | returnCall {L : List (List ValType)} {r : Bool} {fi ti : Nat} {ft : FuncType}
      {ts ts' us : List ValType} {rest : Body} (hf : C.funcs[fi]? = some ti)
      (ht : C.types[ti]? = some ft) (hres : ft.2 = C.results) (hr : Typed C L false ts' rest us) :
      Typed C L r (ft.1.reverse ++ ts) (.op (.returnCall fi) rest) us
  | block {L : List (List ValType)} {r : Bool} {bt : BlockType} {ft : FuncType}
      {ts us : List ValType} {body rest : Body} (hb : bt.expand C.types = some ft)
      (hbody : Typed C (ft.2.reverse :: L) r ft.1.reverse body ft.2.reverse)
      (hr : Typed C L r (ft.2.reverse ++ ts) rest us) :
      Typed C L r (ft.1.reverse ++ ts) (.block bt body rest) us
  | loop {L : List (List ValType)} {r : Bool} {bt : BlockType} {ft : FuncType}
      {ts us : List ValType} {body rest : Body} (hb : bt.expand C.types = some ft)
      (hbody : Typed C (ft.1.reverse :: L) r ft.1.reverse body ft.2.reverse)
      (hr : Typed C L r (ft.2.reverse ++ ts) rest us) :
      Typed C L r (ft.1.reverse ++ ts) (.loop bt body rest) us
  | ifThen {L : List (List ValType)} {r : Bool} {bt : BlockType} {ft : FuncType}
      {ts us : List ValType} {body rest : Body} (hb : bt.expand C.types = some ft)
      (heq : ft.1 = ft.2) (hbody : Typed C (ft.2.reverse :: L) r ft.1.reverse body ft.2.reverse)
      (hr : Typed C L r (ft.2.reverse ++ ts) rest us) :
      Typed C L r (.i32 :: (ft.1.reverse ++ ts)) (.ifThen bt body rest) us
  | ifElse {L : List (List ValType)} {r : Bool} {bt : BlockType} {ft : FuncType}
      {ts us : List ValType} {body els rest : Body} (hb : bt.expand C.types = some ft)
      (hbody : Typed C (ft.2.reverse :: L) r ft.1.reverse body ft.2.reverse)
      (hels : Typed C (ft.2.reverse :: L) r ft.1.reverse els ft.2.reverse)
      (hr : Typed C L r (ft.2.reverse ++ ts) rest us) :
      Typed C L r (.i32 :: (ft.1.reverse ++ ts)) (.ifElse bt body els rest) us

/-- A valid function body. -/
def Body.Valid (C : Ctx) (b : Body) : Prop :=
  Typed C [C.results.reverse] true [] b C.results.reverse

end CuWasm.Wasm
