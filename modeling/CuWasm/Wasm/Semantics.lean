import CuWasm.Lib.LittleEndian
import CuWasm.Wasm.Memory
import CuWasm.Wasm.Module

/-!
# The meaning of Wasm

Execution of function bodies over the syntax tree, in the manner of the specification: a block sees
only its own operands, and a branch leaves the blocks around it one by one. Operand stacks are lists
with the top first. A value is the number of its bits, and an operator reads every operand modulo the
width of its type, which changes nothing for a value of that type.

A body may run forever. `Instance.eval n` allows for `n` repetitions of a loop and `n` calls inside one
another; it answers `none` when they do not suffice.
-/

namespace CuWasm.Wasm

open LittleEndian

/-- Why a computation traps. -/
inductive Fault where
  | unreachable
  | arith (t : Trap)
  | memory
  | table
  deriving DecidableEq, Repr

/-- What the functions of an instance share: the globals, the linear memory with its size in bytes,
the dropped data segments, and the state of the host. -/
structure Store (H : Type) where
  globals : List Nat
  mem : Nat → Nat
  size : Nat
  dropped : Nat → Bool
  host : H

/-- What a host function leaves behind; it may refuse to answer. -/
structure Answer (H : Type) where
  results : Option (List Nat)
  mem : Nat → Nat
  host : H

/-- How a sequence ends: at its end, in a branch to the label `k`, in a return, in a tail call of the
function `fi`, in a trap, or because the host has refused. `xs` are the operands left. No rule applies
where it goes wrong. -/
inductive Outcome (H : Type) where
  | next (xs ls : List Nat) (s : Store H)
  | br (k : Nat) (xs ls : List Nat) (s : Store H)
  | ret (xs : List Nat) (s : Store H)
  | tail (fi : Nat) (xs : List Nat) (s : Store H)
  | trap (t : Fault) (s : Store H)
  | refused (s : Store H)
  | wrong

/-- How a call ends. The results are in the order of the function type. -/
inductive Result (H : Type) where
  | values (ys : List Nat) (s : Store H)
  | trap (t : Fault) (s : Store H)
  | refused (s : Store H)
  | wrong

/-- A module instance: the parts that do not change. Type indices of the functions, imports first; a
table slot holds a function or nothing. -/
structure Instance (H : Type) where
  types : List FuncType
  funcs : List Nat
  nImports : Nat
  code : List Func
  table : List (Option Nat)
  maxPages : Nat
  datas : List (List Nat)
  host : H → Nat → List Nat → (Nat → Nat) → Answer H

/-- The bits of a constant. -/
def ConstOp.value : ConstOp → Nat
  | .i32 x => x.toNat
  | .i64 x => x.toNat
  | .f32 x => x.toNat
  | .f64 x => x.toNat

/-- The array with `n` elements of `g` at `dst`. -/
def blit (f : Nat → Nat) (dst n : Nat) (g : Nat → Nat) : Nat → Nat :=
  fun c => if dst ≤ c ∧ c < dst + n then g (c - dst) else f c

section Execution

variable {H : Type}

/-- Write `n` bytes to the memory at `dst`, unless `oob` holds or the place is out of bounds. -/
def Store.write (s : Store H) (oob : Bool) (dst n : Nat) (g : Nat → Nat) (xs ls : List Nat) :
    Outcome H :=
  if oob = true ∨ dst + n > s.size then .trap .memory s
  else .next xs ls { s with mem := blit s.mem dst n g }

/-- Grow the memory to `pages` pages. -/
def Store.grow (s : Store H) (pages : Nat) : Store H :=
  { s with mem := blit s.mem s.size (pages * 65536 - s.size) fun _ => 0, size := pages * 65536 }

/-- `f` goes on where `o` gets to its end. -/
def Outcome.andThen (o : Option (Outcome H)) (f : List Nat → List Nat → Store H → Option (Outcome H)) :
    Option (Outcome H) :=
  match o with
  | some (.next xs ls s) => f xs ls s
  | o => o

/-- The outcome of a block with `nr` results above the operands `low`, whose label is that of its end.
-/
def Outcome.leave (nr : Nat) (low : List Nat) : Outcome H → Outcome H
  | .next xs ls s => if xs.length = nr then .next (xs ++ low) ls s else .wrong
  | .br 0 xs ls s => if nr ≤ xs.length then .next (xs.take nr ++ low) ls s else .wrong
  | .br (k + 1) xs ls s => .br k xs ls s
  | o => o

/-- The outcome of a sequence above the operands `low`. -/
def Outcome.above (low : List Nat) : Outcome H → Outcome H
  | .next xs ls s => .next (xs ++ low) ls s
  | o => o

/-- The outcome of a call above the operands `low`. -/
def Result.above (low ls : List Nat) : Result H → Outcome H
  | .values ys s => .next (ys.reverse ++ low) ls s
  | .trap t s => .trap t s
  | .refused s => .refused s
  | .wrong => .wrong

namespace Instance

variable (I : Instance H)

/-- The type of a function. -/
def funcType (fi : Nat) : Option FuncType := I.funcs[fi]?.bind fun ti => I.types[ti]?

/-- The operators that neither branch nor call. -/
def simple (o : Operator) (xs ls : List Nat) (s : Store H) : Outcome H :=
  match o, xs with
  | .nop, xs => .next xs ls s
  | .unreachable, _ => .trap .unreachable s
  | .const c, xs => .next (c.value :: xs) ls s
  | .drop, _ :: xs => .next xs ls s
  | .select, c :: b :: a :: xs => .next ((if c % 2 ^ 32 ≠ 0 then a else b) :: xs) ls s
  | .typedSelect _, c :: b :: a :: xs => .next ((if c % 2 ^ 32 ≠ 0 then a else b) :: xs) ls s
  | .num o, xs =>
    if xs.length < o.type.1.1 then .wrong
    else
      match o.apply ((xs.take o.type.1.1).reverse.map (· % 2 ^ o.type.1.2.width)) with
      | .ok ys => .next (ys.reverse ++ xs.drop o.type.1.1) ls s
      | .error t => .trap (.arith t) s
  | .globalGet i, xs =>
    match s.globals[i]? with
    | some a => .next (a :: xs) ls s
    | none => .wrong
  | .globalSet i, a :: xs =>
    if i < s.globals.length then .next xs ls { s with globals := s.globals.set i a } else .wrong
  | .localGet i, xs =>
    match ls[i]? with
    | some a => .next (a :: xs) ls s
    | none => .wrong
  | .localSet i, a :: xs => if i < ls.length then .next xs (ls.set i a) s else .wrong
  | .localTee i, a :: xs => if i < ls.length then .next (a :: xs) (ls.set i a) s else .wrong
  | .load o ma, a :: xs =>
    let ea := a % 2 ^ 32 + ma.offset
    if ea + o.bytes ≤ s.size then .next (o.extend (value s.mem ea o.bytes) :: xs) ls s
    else .trap .memory s
  | .store o ma, x :: a :: xs => s.write false (a % 2 ^ 32 + ma.offset) o.bytes (digit x) xs ls
  | .memorySize _, xs => .next (s.size / 65536 :: xs) ls s
  | .memoryGrow _, d :: xs =>
    let pages := s.size / 65536 + d % 2 ^ 32
    if pages ≤ I.maxPages ∧ pages ≤ 65536 then .next (s.size / 65536 :: xs) ls (s.grow pages)
    else .next ((2 ^ 32 - 1) :: xs) ls s
  | .memoryCopy _ _, n :: src :: dst :: xs =>
    s.write (src % 2 ^ 32 + n % 2 ^ 32 > s.size) (dst % 2 ^ 32) (n % 2 ^ 32)
      (fun i => s.mem (src % 2 ^ 32 + i)) xs ls
  | .memoryFill _, n :: x :: dst :: xs =>
    s.write false (dst % 2 ^ 32) (n % 2 ^ 32) (fun _ => x % 256) xs ls
  | .memoryInit d _, n :: src :: dst :: xs =>
    let seg := if s.dropped d then [] else I.datas.getD d []
    if d < I.datas.length then
      s.write (src % 2 ^ 32 + n % 2 ^ 32 > seg.length) (dst % 2 ^ 32) (n % 2 ^ 32)
        (fun i => seg.getD (src % 2 ^ 32 + i) 0) xs ls
    else .wrong
  | .dataDrop d, xs =>
    if d < I.datas.length then .next xs ls { s with dropped := Function.update s.dropped d true }
    else .wrong
  | .reinterpret _, a :: xs => .next (a :: xs) ls s
  | _, _ => .wrong

/-- Call the function `fi`, of type `ft`, with the operands on top. -/
def callTop (call : Nat → List Nat → Store H → Option (Result H)) (fi : Nat) (ft : FuncType)
    (xs ls : List Nat) (s : Store H) : Option (Outcome H) :=
  if xs.length < ft.1.length then some .wrong
  else (call fi (xs.take ft.1.length).reverse s).map (Result.above (xs.drop ft.1.length) ls)

/-- The operators without a block of their own. -/
def operator (call : Nat → List Nat → Store H → Option (Result H)) (o : Operator) (xs ls : List Nat)
    (s : Store H) : Option (Outcome H) :=
  match o, xs with
  | .br k, xs => some (.br k xs ls s)
  | .brIf k, c :: xs => some (if c % 2 ^ 32 ≠ 0 then .br k xs ls s else .next xs ls s)
  | .brTable ks k, c :: xs => some (.br (ks.getD (c % 2 ^ 32) k) xs ls s)
  | .return_, xs => some (.ret xs s)
  | .call fi, xs =>
    match I.funcType fi with
    | some ft => callTop call fi ft xs ls s
    | none => some .wrong
  | .returnCall fi, xs => some (.tail fi xs s)
  | .callIndirect ti _, c :: xs =>
    match I.types[ti]?, I.table[c % 2 ^ 32]? with
    | some ft, some (some fi) =>
      if I.funcType fi = some ft then callTop call fi ft xs ls s else some (.trap .table s)
    | some _, _ => some (.trap .table s)
    | none, _ => some .wrong
  | o, xs => some (I.simple o xs ls s)

end Instance

/-- The meaning of sequences and of calls. -/
structure Eval (H : Type) where
  body : Body → List Nat → List Nat → Store H → Option (Outcome H)
  call : Nat → List Nat → Store H → Option (Result H)

namespace Instance

variable (I : Instance H)

/-- Run `b` on the topmost operands as the body of a block of type `bt`. -/
def inBlock (bt : BlockType) (xs : List Nat)
    (run : (np nr : Nat) → (args low : List Nat) → Option (Outcome H)) : Option (Outcome H) :=
  match bt.expand I.types with
  | none => some .wrong
  | some ft =>
    if xs.length < ft.1.length then some .wrong
    else run ft.1.length ft.2.length (xs.take ft.1.length) (xs.drop ft.1.length)

/-- A sequence. `again` runs what is repeated: a call, or a loop whose label has been branched to. -/
def body (again : Eval H) : Body → List Nat → List Nat → Store H → Option (Outcome H)
  | .nil, xs, ls, s => some (.next xs ls s)
  | .op o rest, xs, ls, s => Outcome.andThen (I.operator again.call o xs ls s) (body again rest)
  | .block bt b rest, xs, ls, s =>
    Outcome.andThen
      (I.inBlock bt xs fun _ nr args low => (body again b args ls s).map (Outcome.leave nr low))
      (body again rest)
  | .loop bt b rest, xs, ls, s =>
    Outcome.andThen
      (I.inBlock bt xs fun np nr args low =>
        match body again b args ls s with
        | some (.br 0 ys ls s) =>
          if np ≤ ys.length then
            (again.body (.loop bt b .nil) (ys.take np) ls s).map (Outcome.above low)
          else some .wrong
        | o => o.map (Outcome.leave nr low))
      (body again rest)
  | .ifThen bt b rest, c :: xs, ls, s =>
    Outcome.andThen
      (I.inBlock bt xs fun _ nr args low =>
        (if c % 2 ^ 32 ≠ 0 then body again b args ls s else some (.next args ls s)).map
          (Outcome.leave nr low))
      (body again rest)
  | .ifElse bt b els rest, c :: xs, ls, s =>
    Outcome.andThen
      (I.inBlock bt xs fun _ nr args low =>
        (if c % 2 ^ 32 ≠ 0 then body again b args ls s else body again els args ls s).map
          (Outcome.leave nr low))
      (body again rest)
  | .ifThen .., [], _, _ | .ifElse .., [], _, _ => some .wrong

/-- The call of a host function of type `ft`. -/
def callHost (fi : Nat) (ft : FuncType) (args : List Nat) (s : Store H) : Result H :=
  let a := I.host s.host fi args s.mem
  let s := { s with mem := a.mem, host := a.host }
  match a.results with
  | none => .refused s
  | some ys => if ys.length = ft.2.length then .values ys s else .wrong

/-- The locals of a function that is called with `args`. -/
def locals (c : Func) (args : List Nat) : List Nat :=
  args ++ List.replicate (c.locals.map (·.1)).sum 0

/-- The end of a function with `nr` results. A tail call takes its arguments from the operands left, and
its callee has as many results. -/
def finish (call : Nat → List Nat → Store H → Option (Result H)) (nr : Nat) :
    Outcome H → Option (Result H)
  | .next xs _ s => some (if xs.length = nr then .values xs.reverse s else .wrong)
  | .br 0 xs _ s => some (if nr ≤ xs.length then .values (xs.take nr).reverse s else .wrong)
  | .br (_ + 1) _ _ _ => some .wrong
  | .ret xs s => some (if nr ≤ xs.length then .values (xs.take nr).reverse s else .wrong)
  | .tail fi xs s =>
    match I.funcType fi with
    | some ft =>
      if xs.length < ft.1.length ∨ ft.2.length ≠ nr then some .wrong
      else call fi (xs.take ft.1.length).reverse s
    | none => some .wrong
  | .trap t s => some (.trap t s)
  | .refused s => some (.refused s)
  | .wrong => some .wrong

/-- A call of the function `fi`. -/
def call (again : Eval H) (fi : Nat) (args : List Nat) (s : Store H) : Option (Result H) :=
  match I.funcType fi with
  | none => some .wrong
  | some ft =>
    if args.length ≠ ft.1.length then some .wrong
    else if fi < I.nImports then some (I.callHost fi ft args s)
    else
      match I.code[fi - I.nImports]? with
      | none => some .wrong
      | some c =>
        (I.body again c.body [] (locals c args) s).bind (I.finish again.call ft.2.length)

/-- The meaning of an instance within a budget. -/
def eval : Nat → Eval H
  | 0 => ⟨fun _ _ _ _ => none, fun _ _ _ => none⟩
  | n + 1 => ⟨I.body (eval n), I.call (eval n)⟩

end Instance

end Execution

end CuWasm.Wasm
