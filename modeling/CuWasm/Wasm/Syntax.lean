import Mathlib.Data.BitVec

/-!
# Wasm operators

The operators `wasmparser` delivers for a function body, as far as `lower_operators` tells them
apart. The integer operators, loads, stores and constants that the lowering treats alike are grouped.
`refFunc` and `refNull` occur in element expressions; every other operator without a case of its own
is `other`, with its text.

`Body` is the structured form of the same sequence, the instruction sequences of the Wasm grammar,
and `Body.flatten` its binary order.
-/

namespace CuWasm.Wasm

/-- `wasmparser::ValType`; `ref` carries the text of a reference type. -/
inductive ValType where
  | i32 | i64 | f32 | f64 | v128
  | ref (text : String)
  deriving DecidableEq, Repr

/-- The `Debug` text of a value type. -/
def ValType.text : ValType → String
  | .i32 => "I32"
  | .i64 => "I64"
  | .f32 => "F32"
  | .f64 => "F64"
  | .v128 => "V128"
  | .ref t => t

/-- A function type: parameters and results, first one first. -/
abbrev FuncType := List ValType × List ValType

/-- `wasmparser::BlockType`. -/
inductive BlockType where
  | empty
  | type (t : ValType)
  | funcType (idx : Nat)
  deriving DecidableEq, Repr

/-- `wasmparser::MemArg`, less its alignment hint, which nothing reads. -/
structure MemArg where
  offset : Nat
  memory : Nat
  deriving DecidableEq, Repr

/-- Integer operators without immediates. -/
inductive NumOp where
  | i32Eqz | i32Eq | i32Ne | i32LtS | i32LtU | i32LeS | i32LeU | i32GtS | i32GtU | i32GeS | i32GeU
  | i32Add | i32Sub | i32Mul | i32And | i32Or | i32Xor | i32DivS | i32DivU | i32RemS | i32RemU
  | i32Shl | i32ShrS | i32ShrU | i32WrapI64 | i32Clz
  | i64Eqz | i64Eq | i64Ne | i64LtS | i64LtU | i64LeS | i64LeU | i64GtS | i64GtU | i64GeS | i64GeU
  | i64Add | i64Sub | i64Mul | i64And | i64Or | i64Xor | i64DivS | i64DivU | i64RemS | i64RemU
  | i64Shl | i64ShrS | i64ShrU | i64Extend32S | i64ExtendI32S | i64ExtendI32U | i64Clz
  | i64MulWideS | i64MulWideU | i64Add128 | i64Sub128
  deriving DecidableEq, Repr

/-- Constant operators. -/
inductive ConstOp where
  | i32 (value : BitVec 32)
  | i64 (value : BitVec 64)
  | f32 (bits : BitVec 32)
  | f64 (bits : BitVec 64)
  deriving DecidableEq, Repr

/-- Load operators. -/
inductive LoadOp where
  | i32Load | i64Load | i32Load8S | i32Load8U | i32Load16S | i32Load16U
  | i64Load8S | i64Load8U | i64Load16S | i64Load16U | i64Load32S | i64Load32U
  | f32Load | f64Load
  deriving DecidableEq, Repr

/-- Store operators. -/
inductive StoreOp where
  | i32Store | i64Store | i32Store8 | i32Store16 | i64Store8 | i64Store16 | i64Store32
  | f32Store | f64Store
  deriving DecidableEq, Repr

/-- Bit reinterpretations between integers and floats. -/
inductive Reinterpret where
  | i32F32 | f32I32 | i64F64 | f64I64
  deriving DecidableEq, Repr

/-- `wasmparser::Operator`. -/
inductive Operator where
  | nop
  | unreachable
  | const (c : ConstOp)
  | drop
  | select
  | typedSelect (t : ValType)
  | num (o : NumOp)
  | globalGet (globalIndex : Nat)
  | globalSet (globalIndex : Nat)
  | localGet (localIndex : Nat)
  | localSet (localIndex : Nat)
  | localTee (localIndex : Nat)
  | block (blockty : BlockType)
  | loop (blockty : BlockType)
  | if_ (blockty : BlockType)
  | else_
  | end_
  | br (relativeDepth : Nat)
  | brIf (relativeDepth : Nat)
  | brTable (targets : List Nat) (default : Nat)
  | return_
  | call (functionIndex : Nat)
  | returnCall (functionIndex : Nat)
  | callIndirect (typeIndex tableIndex : Nat)
  | load (o : LoadOp) (memarg : MemArg)
  | store (o : StoreOp) (memarg : MemArg)
  | memorySize (mem : Nat)
  | memoryGrow (mem : Nat)
  | memoryCopy (dstMem srcMem : Nat)
  | memoryFill (mem : Nat)
  | memoryInit (dataIndex mem : Nat)
  | dataDrop (dataIndex : Nat)
  | reinterpret (r : Reinterpret)
  | refFunc (functionIndex : Nat)
  | refNull
  | other (text : String)
  deriving DecidableEq, Repr

/-- `matches!(op, Operator::BrTable { .. })`. -/
def Operator.isBrTable : Operator → Bool
  | .brTable .. => true
  | _ => false

/-- The operators that open, divide or close a block. -/
def Operator.isStructured : Operator → Bool
  | .block _ | .loop _ | .if_ _ | .else_ | .end_ => true
  | _ => false

/-- An instruction sequence of the Wasm grammar. `op` holds the operators that are not structured;
every other constructor is a structured instruction followed by the rest of the sequence. -/
inductive Body where
  | nil
  | op (o : Operator) (rest : Body)
  | block (blockty : BlockType) (body rest : Body)
  | loop (blockty : BlockType) (body rest : Body)
  | ifThen (blockty : BlockType) (body rest : Body)
  | ifElse (blockty : BlockType) (body orElse rest : Body)
  deriving DecidableEq, Repr

/-- The operators of a sequence in binary order. -/
def Body.flatten : Body → List Operator
  | .nil => []
  | .op o rest => o :: rest.flatten
  | .block bt body rest => .block bt :: (body.flatten ++ .end_ :: rest.flatten)
  | .loop bt body rest => .loop bt :: (body.flatten ++ .end_ :: rest.flatten)
  | .ifThen bt body rest => .if_ bt :: (body.flatten ++ .end_ :: rest.flatten)
  | .ifElse bt body els rest =>
    .if_ bt :: (body.flatten ++ .else_ :: (els.flatten ++ .end_ :: rest.flatten))

/-- Structured instructions occur only as such. -/
def Body.Plain : Body → Prop
  | .nil => True
  | .op o rest => o.isStructured = false ∧ rest.Plain
  | .block _ body rest => body.Plain ∧ rest.Plain
  | .loop _ body rest => body.Plain ∧ rest.Plain
  | .ifThen _ body rest => body.Plain ∧ rest.Plain
  | .ifElse _ body els rest => body.Plain ∧ els.Plain ∧ rest.Plain

/-- The operators of a function body: its sequence and the closing `end`. -/
def Body.function (b : Body) : List Operator := b.flatten ++ [.end_]

end CuWasm.Wasm
