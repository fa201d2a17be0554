import CuWasm.Lower

/-!
# The lowering by recursion over the syntax tree

`lower_operators` walks over the operators in binary order and patches branch targets afterwards.
`Structured.body` says the same by recursion over `Body`: an instruction whose target is the end of
an enclosing block is an item `jump k`, resolved where that block ends. Next to each item stands the
height of the operand stack before it, or `-1` in code that no path from the entry reaches.

`ghost` marks the else arm of an `if` in dead code: the lowering resumes its height tracking there
although nothing reaches it.
-/

namespace CuWasm

open Wasm

namespace Structured

/-- An instruction, or a branch to the end of the block `k` levels out. -/
inductive Item where
  | code (i : CuOp)
  | jump (k : Nat)
  deriving DecidableEq, Repr

/-- Items with their heights. -/
abbrev Items := List (Item × Int)

/-- What the lowering knows about an enclosing block: the start of a loop, the height below the
block's operands and the number of operands a branch carries. -/
structure Label where
  start : Option Nat
  base : Nat
  arity : Nat
  deriving DecidableEq, Repr

/-- The state of the pass: the next program counter, the constant pool, the tracked height and the
dead-code flag. -/
structure State where
  pc : Nat
  consts : List Slot
  h : Nat
  dead : Bool

/-- The height recorded for an instruction in front of which the tracked height is `h`. -/
def State.mark (st : State) (ghost : Bool) (h : Nat) : Int := if st.dead || ghost then -1 else h

/-- The end of the innermost block becomes known: its branches are resolved, those of the blocks
further out come one level closer. -/
def Item.resolve (target : Nat) : Item → Item
  | .code i => .code i
  | .jump 0 => .code { op := .br, b := target }
  | .jump (k + 1) => .jump k

/-- `Item.resolve` on items with heights. -/
def close (target : Nat) (is : Items) : Items := is.map fun p => (p.1.resolve target, p.2)

/-- Two passes in sequence. -/
def andThen (y : Option (Items × State)) (y' : State → Option (Items × State)) :
    Option (Items × State) :=
  y.bind fun p => (y' p.2).map fun q => (p.1 ++ q.1, q.2)

/-- The state behind an unconditional transfer of control. -/
def kill (p : Items × State) : Items × State := (p.1, { p.2 with dead := true })

section Pass

variable (env : LowerEnv) (L : List Label) (ghost : Bool)

/-- `consume`: `none` for an operand stack underflow. -/
def consume (pops pushes : Nat) (st : State) : Option State :=
  if st.dead then some st
  else if st.h < pops then none
  else some { st with h := st.h - pops + pushes }

/-- One instruction at the current position. -/
def emit (i : CuOp) (st : State) : Items × State :=
  ([(.code i, st.mark ghost st.h)], { st with pc := st.pc + 1 })

/-- The arms that emit one instruction and adjust the height. -/
def plain (op : Opcode) (a b pops pushes : Nat) (st : State) : Option (Items × State) :=
  let (is, st1) := emit ghost ⟨op, a, b⟩ st
  (consume pops pushes st1).map fun st2 => (is, st2)

/-- A branch to the block `k` levels out: drop the surplus operands and jump. -/
def branch (k : Nat) (st : State) : Option (Items × State) :=
  match L[k]? with
  | none => none
  | some l =>
    let dest := l.base + l.arity
    if ¬ st.dead ∧ st.h < dest then none
    else
      let unwind : Items := if ¬ st.dead ∧ st.h > dest then
          [(.code ⟨.unwind, l.arity, env.nParams + env.nLocals + dest⟩, st.mark ghost st.h)]
        else []
      let jump : Item := match l.start with
        | some pc => .code ⟨.br, 0, pc⟩
        | none => .jump k
      some (unwind ++ [(jump, st.mark ghost dest)], { st with pc := st.pc + unwind.length + 1 })

/-- The position of a constant in the pool, and the pool with it. -/
def intern (x : Slot) (consts : List Slot) : Nat × List Slot :=
  match consts.findIdx? (· == x) with
  | some i => (i, consts)
  | none => (consts.length, consts ++ [x])

/-- A branch taken when the operand on top is not zero. -/
def branchIf (k : Nat) (st : State) : Option (Items × State) :=
  (consume 1 0 st).bind fun st1 =>
    (branch env L ghost k { st1 with pc := st.pc + 1 }).map fun p =>
      ((.code ⟨.brIfNot, 0, p.2.pc⟩, st.mark ghost st.h) :: p.1, p.2)

/-- One comparison of a `br_table`. -/
def tableArm (scratch i k : Nat) (st : State) : Option (Items × State) :=
  let c := intern (BitVec.ofNat 64 (i % 2 ^ 32)) st.consts
  andThen (plain ghost .localGet scratch 0 0 1 { st with consts := c.2 }) fun st =>
    andThen (plain ghost .i64Const 0 c.1 0 1 st) fun st =>
      andThen (plain ghost (.bin .i32Eq) 0 0 2 1 st) (branchIf env L ghost k)

/-- The comparisons of a `br_table` from index `i` on. -/
def tableArms (scratch : Nat) : Nat → List Nat → State → Option (Items × State)
  | _, [], st => some ([], st)
  | i, k :: ks, st =>
    andThen (tableArm env L ghost scratch i k st) (tableArms scratch (i + 1) ks)

/-- `br_table`. -/
def table (ks : List Nat) (k : Nat) (st : State) : Option (Items × State) :=
  match env.scratch with
  | none => none
  | some scratch =>
    andThen (plain ghost .localSet scratch 0 1 0 st) fun st =>
      andThen (tableArms env L ghost scratch 0 ks st) fun st => (branch env L ghost k st).map kill

/-- The operators without a block of their own. -/
def operator (o : Operator) (st : State) : Option (Items × State) :=
  match o with
  | .nop => some ([], st)
  | .unreachable => some (kill (emit ghost ⟨.unreachable, 0, 0⟩ st))
  | .const c =>
    let c := intern (ConstOp.slot c) st.consts
    plain ghost .i64Const 0 c.1 0 1 { st with consts := c.2 }
  | .drop => plain ghost .drop 0 0 1 0 st
  | .select => plain ghost .select 0 0 3 1 st
  | .typedSelect _ => plain ghost .select 0 0 3 1 st
  | .num o =>
    let (op, a, pops, pushes) := NumOp.lower o
    plain ghost op a 0 pops pushes st
  | .globalGet i => plain ghost .globalGet 0 i 0 1 st
  | .globalSet i => plain ghost .globalSet 0 i 1 0 st
  | .localGet i => plain ghost .localGet (i % 2 ^ 16) 0 0 1 st
  | .localSet i => plain ghost .localSet (i % 2 ^ 16) 0 1 0 st
  | .localTee i =>
    some ([(.code ⟨.localSet, i % 2 ^ 16, 0⟩, st.mark ghost st.h),
      (.code ⟨.localGet, i % 2 ^ 16, 0⟩, st.mark ghost (st.h - 1))], { st with pc := st.pc + 2 })
  | .br k => (branch env L ghost k st).map kill
  | .brIf k => branchIf env L ghost k st
  | .brTable ks k => table env L ghost ks k st
  | .return_ => some (kill (emit ghost ⟨.ret, env.nResults, 0⟩ st))
  | .call fi =>
    match funcArity fi env.funcTypes env.funcTypeidx with
    | .error _ => none
    | .ok (np, nr) =>
      if fi < env.nImports then
        match env.hostFnIds[fi]? with
        | none => none
        | some fnId => plain ghost .callHost (np ||| (nr <<< 8) % 2 ^ 16) fnId np nr st
      else plain ghost .call 0 fi np nr st
  | .returnCall fi =>
    if fi < env.nImports then none else some (kill (emit ghost ⟨.returnCall, 0, fi⟩ st))
  | .callIndirect ti tab =>
    if tab ≠ 0 then none
    else
      match env.funcTypes[ti]? with
      | none => none
      | some ft => plain ghost .callIndirect 0 ti (1 + ft.1.length) ft.2.length st
  | .load o ma =>
    match checkMemarg ma with
    | .error _ => none
    | .ok off => plain ghost .load (LoadOp.lower o) off 1 1 st
  | .store o ma =>
    match checkMemarg ma with
    | .error _ => none
    | .ok off => plain ghost .store (StoreOp.lower o) off 2 0 st
  | .memorySize mem => if mem ≠ 0 then none else plain ghost .memorySize 0 0 0 1 st
  | .memoryGrow mem => if mem ≠ 0 then none else plain ghost .memoryGrow 0 0 1 1 st
  | .memoryCopy dst src => if dst ≠ 0 ∨ src ≠ 0 then none else plain ghost .memoryCopy 0 0 3 0 st
  | .memoryFill mem => if mem ≠ 0 then none else plain ghost .memoryFill 0 0 3 0 st
  | .memoryInit di mem => if mem ≠ 0 then none else plain ghost .memoryInit (di % 2 ^ 16) 0 3 0 st
  | .dataDrop di => some (emit ghost ⟨.dataDrop, di % 2 ^ 16, 0⟩ st)
  | .reinterpret _ => (consume 1 1 st).map fun st => ([], st)
  | _ => none

end Pass

/-- The height below the operands of a block with `np` parameters; `none` for an underflow. -/
def enter (np : Nat) (st : State) : Option Nat :=
  if st.dead then some 0 else if st.h < np then none else some (st.h - np)

/-- The state behind the end of a block entered in `st` with the height `base` below it. -/
def State.leave (st : State) (base nr : Nat) (inner : State) : State :=
  { inner with h := base + nr, dead := st.dead }

/-- The pass over an instruction sequence. -/
def body (env : LowerEnv) : List Label → Bool → State → Body → Option (Items × State)
  | _, _, st, .nil => some ([], st)
  | L, ghost, st, .op o rest =>
    andThen (operator env L ghost o st) fun st => body env L ghost st rest
  | L, ghost, st, .block bt b rest =>
    (blockArity bt env.funcTypes).toOption.bind fun a =>
      (enter a.1 st).bind fun base =>
        andThen ((body env (⟨none, base, a.2⟩ :: L) ghost st b).map fun p =>
            (close p.2.pc p.1, st.leave base a.2 p.2))
          fun st => body env L ghost st rest
  | L, ghost, st, .loop bt b rest =>
    (blockArity bt env.funcTypes).toOption.bind fun a =>
      (enter a.1 st).bind fun base =>
        andThen ((body env (⟨some st.pc, base, a.1⟩ :: L) ghost st b).map fun p =>
            (close p.2.pc p.1, st.leave base a.2 p.2))
          fun st => body env L ghost st rest
  | L, ghost, st, .ifThen bt b rest =>
    (blockArity bt env.funcTypes).toOption.bind fun a =>
      (consume 1 0 st).bind fun st0 =>
        (enter a.1 st0).bind fun base =>
          andThen ((body env (⟨none, base, a.2⟩ :: L) ghost { st0 with pc := st.pc + 1 } b).map fun p =>
              ((.code ⟨.brIfNot, 0, p.2.pc⟩, st.mark ghost st.h) :: close p.2.pc p.1,
                st.leave base a.2 p.2))
            fun st => body env L ghost st rest
  | L, ghost, st, .ifElse bt b els rest =>
    (blockArity bt env.funcTypes).toOption.bind fun a =>
      (consume 1 0 st).bind fun st0 =>
        (enter a.1 st0).bind fun base =>
          andThen ((body env (⟨none, base, a.2⟩ :: L) ghost { st0 with pc := st.pc + 1 } b).bind fun p =>
              (body env (⟨none, base, a.2⟩ :: L) (ghost || st.dead)
                { p.2 with pc := p.2.pc + 1, h := base + a.1, dead := false } els).map fun q =>
                ((.code ⟨.brIfNot, 0, p.2.pc + 1⟩, st.mark ghost st.h) ::
                    (close q.2.pc p.1 ++ (.code ⟨.br, 0, q.2.pc⟩, p.2.mark ghost p.2.h) ::
                      close q.2.pc q.1),
                  st.leave base a.2 q.2))
            fun st => body env L ghost st rest

/-- The items of a whole function body from position `pc` on, its closing `OP_END_FUNC` included, and
the constant pool behind it. -/
def function (env : LowerEnv) (pc : Nat) (consts : List Slot) (b : Body) :
    Option (Items × List Slot) :=
  (body env [⟨none, 0, env.nResults⟩] false ⟨pc, consts, 0, false⟩ b).map fun p =>
    (close p.2.pc p.1 ++ [(.code ⟨.endFunc, env.nResults, 0⟩, (env.nResults : Int))], p.2.consts)

/-- The instruction of an item, where `T` gives the ends of the enclosing blocks. -/
def Item.render (T : Nat → Nat) : Item → CuOp
  | .code i => i
  | .jump k => { op := .br, b := T k }

/-- The ends of the enclosing blocks inside a block that ends at `t`. -/
def ends (t : Nat) (T : Nat → Nat) : Nat → Nat
  | 0 => t
  | k + 1 => T k

/-- The instruction of an item before its target is known. -/
def Item.placeholder : Item → CuOp
  | .code i => i
  | .jump _ => { op := .br }

end Structured

end CuWasm
