import CuWasm.Translate

/-!
# Segments of a module

Data and element segments as the grammar of Wasm has them, what they say about the initial memory and
the initial table, and the module without them. Addresses are constant expressions, evaluated without
bound and reduced modulo 2^32.
-/

namespace CuWasm

open Wasm

/-- A constant offset expression. -/
inductive OffsetExpr where
  | const (x : BitVec 32)
  | add (a b : OffsetExpr)
  | sub (a b : OffsetExpr)
  | mul (a b : OffsetExpr)
  deriving DecidableEq, Repr

namespace OffsetExpr

/-- The value of the expression, not reduced. -/
def value : OffsetExpr → Int
  | const x => x.toInt
  | add a b => a.value + b.value
  | sub a b => a.value - b.value
  | mul a b => a.value * b.value

/-- The address the expression stands for. -/
def address (e : OffsetExpr) : Nat := (e.value % 2 ^ 32).toNat

/-- The operators of the expression in binary order. -/
def flatten : OffsetExpr → List Operator
  | const x => [.const (.i32 x)]
  | add a b => a.flatten ++ b.flatten ++ [.num .i32Add]
  | sub a b => a.flatten ++ b.flatten ++ [.num .i32Sub]
  | mul a b => a.flatten ++ b.flatten ++ [.num .i32Mul]

/-- The expression as the parser yields it. -/
def expr (e : OffsetExpr) : ConstExpr := e.flatten.map .ok ++ [.ok .end_]

end OffsetExpr

/-- A data segment of the one memory. -/
inductive DataSegment where
  | active (offset : OffsetExpr) (bytes : List Byte)
  | passive (bytes : List Byte)

namespace DataSegment

def bytes : DataSegment → List Byte
  | active _ bs | passive bs => bs

def isPassive : DataSegment → Bool
  | active .. => false
  | passive _ => true

/-- The segment as the parser yields it. -/
def data : DataSegment → Data
  | active offset bs => ⟨.active 0 offset.expr, bs⟩
  | passive bs => ⟨.passive, bs⟩

/-- The byte that an active segment covering the address `c` puts there. -/
def byteAt (c : Nat) : DataSegment → Option Byte
  | active offset bs => if offset.address ≤ c then bs[c - offset.address]? else none
  | passive _ => none

/-- An active segment that ends behind a memory of `size` bytes. -/
def Exceeds (size : Nat) : DataSegment → Prop
  | active offset bs => size < offset.address + bs.length
  | passive _ => False

end DataSegment

/-- The initial byte at `c`: that of the last active segment covering the address, or zero. -/
def initialByte (segs : List DataSegment) (c : Nat) : Byte :=
  (segs.reverse.findSome? (·.byteAt c)).getD 0

/-- A constant reference: null or a function. -/
inductive RefExpr where
  | null
  | func (functionIndex : Nat)
  deriving DecidableEq, Repr

namespace RefExpr

/-- The entry of a table for the reference. -/
def slot : RefExpr → Nat
  | null => TABLE_NULL
  | func fi => fi

/-- The expression as the parser yields it. -/
def expr : RefExpr → ConstExpr
  | null => [.ok .refNull, .ok .end_]
  | func fi => [.ok (.refFunc fi), .ok .end_]

end RefExpr

/-- A table of function references with its initialiser, if it has one. -/
structure TableDecl where
  size : Nat
  init : Option RefExpr := none

/-- The table as the parser yields it. -/
def TableDecl.entry (t : TableDecl) : TableEntry :=
  { initial := t.size, init := t.init.map RefExpr.expr }

/-- The initial value of every slot. -/
def TableDecl.slot (t : TableDecl) : Nat := (t.init.map RefExpr.slot).getD TABLE_NULL

/-- The two encodings of the items of an element segment. -/
inductive SegmentItems where
  | functions (fs : List Nat)
  | expressions (es : List RefExpr)

/-- An active element segment of table 0, which the encoding may name or leave out. -/
structure ElemSegment where
  named : Bool := false
  offset : OffsetExpr
  items : SegmentItems

namespace ElemSegment

/-- The entries the segment puts into the table. -/
def slots (d : ElemSegment) : List Nat :=
  match d.items with
  | .functions fs => fs
  | .expressions es => es.map RefExpr.slot

/-- The segment as the parser yields it. -/
def element (d : ElemSegment) : Element where
  kind := .active (if d.named then some 0 else none) d.offset.expr
  items :=
    match d.items with
    | .functions fs => .functions (fs.map .ok)
    | .expressions es => .expressions (es.map fun e => .ok e.expr)

/-- The entry that a segment covering slot `k` puts there. -/
def slotAt (k : Nat) (d : ElemSegment) : Option Nat :=
  if d.offset.address ≤ k then d.slots[k - d.offset.address]? else none

end ElemSegment

/-- The size of the first table. -/
def tableSize (tables : List TableDecl) : Nat := (tables.head?.map (·.size)).getD 0

/-- The value of slot `k` of the first table behind the segments. -/
def initialSlot (tables : List TableDecl) (segs : List ElemSegment) (k : Nat) : Nat :=
  (segs.reverse.findSome? (·.slotAt k)).getD ((tables.head?.map (·.slot)).getD TABLE_NULL)

/-- What instantiation demands of the tables and the element segments, and the table it makes. -/
structure TableInstantiated (tables : List TableDecl) (segs : List ElemSegment) (table : List Nat) :
    Prop where
  one : tables.length ≤ 1
  bounds : ∀ d ∈ segs, d.offset.address + d.slots.length ≤ tableSize tables
  table : table = (List.range (tableSize tables)).map (initialSlot tables segs)

/-- Tables and segments that the translator refuses: a table of more than 1024 slots, another table
behind one that has slots, or a function placed outside of the last table. -/
def TablesRefused (tables : List TableDecl) (segs : List ElemSegment) : Prop :=
  (∃ t ∈ tables, 1024 < t.size) ∨ (∃ t ∈ tables.dropLast, 0 < t.size) ∨
    ∃ d ∈ segs, d.slots ≠ [] ∧
      (tables.getLast?.map (·.size)).getD 0 < d.offset.address + d.slots.length

/-- Tables and segments that the translator treats as instantiation does: it refuses them, or there is
at most one table, no empty segment starts behind its end, and what no segment covers is null. -/
def TablesRegular (tables : List TableDecl) (segs : List ElemSegment) : Prop :=
  TablesRefused tables segs ∨
    (tables.length ≤ 1 ∧ (∀ d ∈ segs, d.slots = [] → d.offset.address ≤ tableSize tables) ∧
      ∀ t ∈ tables, ∀ k < t.size, (∀ d ∈ segs, d.slotAt k = none) → t.slot = TABLE_NULL)

section Payloads

/-- The items of all data sections. -/
def dataItems (ps : List (Parsed Payload)) : List (Parsed Data) :=
  ps.flatMap fun
    | .ok (.dataSection segs) => segs
    | _ => []

/-- The items of all table sections. -/
def tableItems (ps : List (Parsed Payload)) : List (Parsed TableEntry) :=
  ps.flatMap fun
    | .ok (.tableSection tabs) => tabs
    | _ => []

/-- The items of all element sections. -/
def elementItems (ps : List (Parsed Payload)) : List (Parsed Element) :=
  ps.flatMap fun
    | .ok (.elementSection els) => els
    | _ => []

/-- The module without its data segments. -/
def withoutData (ps : List (Parsed Payload)) : List (Parsed Payload) :=
  ps.map fun
    | .ok (.dataSection _) => .ok (.dataSection [])
    | p => p

/-- The module without its tables and element segments. -/
def withoutTables (ps : List (Parsed Payload)) : List (Parsed Payload) :=
  ps.map fun
    | .ok (.tableSection _) => .ok (.tableSection [])
    | .ok (.elementSection _) => .ok (.elementSection [])
    | p => p

end Payloads

end CuWasm
