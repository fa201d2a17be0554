import CuWasm.Host

/-!
# The verifier `verify_cuop`

`verify.cpp`: for every function a worklist computes one operand height per reachable instruction.
`flow` is the `switch` of the source, `visit` one round of its `while` loop.

The source computes heights in the C++ type `int`. Every sum that can leave the range of an `int` is
passed through the parameter `int`: `verifyCuopInt` takes `cInt` for it, which wraps, `verifyCuop`
leaves the sums as they are.
-/

namespace CuWasm

namespace Verify

/-- The C++ cast `(int)` of a `uint32_t`. -/
def toI32 (n : Nat) : Int := (BitVec.ofNat 32 n).toInt

/-- The C++ `int` a sum comes to. -/
def cInt (x : Int) : Int := (BitVec.ofInt 32 x).toInt

/-- What the `switch` decides about one instruction: the height after it, whether control falls
through, and the branch target that is joined with that height. -/
structure Flow where
  nextH : Int
  fall : Bool := true
  target : Option Nat := none

section Int

variable (int : Int → Int)

/-- Opcodes that need `pops` operands and leave `pushes` in their place. -/
def effect (h pops pushes : Int) (msg : String) : Except String Flow :=
  if h < pops then .error msg else .ok { nextH := int (h - pops + pushes) }

/-- The `switch` of `verify_cuop` for the instruction `i` of `f` at height `h`. -/
def flow (m : HostModule) (f : FuncMeta) (i : CuOp) (h : Int) : Except String Flow :=
  match i.op with
  | .i64Const | .localGet => .ok { nextH := int (h + 1) }
  | .localSet => effect int h 1 0 "local.set underflow"
  | .bin _ => effect int h 2 1 "binop underflow"
  | .un _ => effect int h 1 1 "unop underflow"
  | .i64MulWideS | .i64MulWideU => effect int h 2 2 "mul_wide underflow"
  | .i64Add128 | .i64Sub128 => effect int h 4 2 "i64.xxx128 underflow"
  | .drop => effect int h 1 0 "drop underflow"
  | .globalGet => .ok { nextH := int (h + 1) }
  | .globalSet => effect int h 1 0 "global.set underflow"
  | .select => effect int h 3 1 "select underflow"
  | .unwind =>
    let destH := int (toI32 i.b - f.nParams - f.nLocals)
    if destH < 0 then .error "unwind dest below locals"
    else if h < destH then .error "unwind underflow"
    else .ok { nextH := destH }
  | .br =>
    if i.b < f.codeOff ∨ i.b ≥ f.codeOff + f.codeLen then .error "br target outside function"
    else .ok { nextH := h, fall := false, target := some i.b }
  | .brIfNot =>
    if h < 1 then .error "br_if_not underflow"
    else if i.b < f.codeOff ∨ i.b ≥ f.codeOff + f.codeLen then
      .error "br_if_not target outside function"
    else .ok { nextH := h - 1, target := some i.b }
  | .call =>
    match m.funcs[i.b]? with
    | none => .error "call func oob"
    | some g => effect int h g.nParams g.nResults "call underflow"
  | .returnCall =>
    match m.funcs[i.b]? with
    | none => .error "return_call func oob"
    | some g =>
      if h < g.nParams then .error "return_call underflow" else .ok { nextH := h, fall := false }
  | .ret | .endFunc =>
    if h < f.nResults then .error "return underflow" else .ok { nextH := h, fall := false }
  | .unreachable => .ok { nextH := h, fall := false }
  | .load => effect int h 1 1 "load underflow"
  | .store => effect int h 2 0 "store underflow"
  | .memorySize => .ok { nextH := int (h + 1) }
  | .memoryGrow => effect int h 1 1 "memory.grow underflow"
  | .memoryCopy | .memoryFill | .memoryInit => effect int h 3 0 "bulk-memory underflow"
  | .dataDrop => .ok { nextH := h }
  | .callHost =>
    effect int h ((i.a &&& 0xff : Nat) : Int) (((i.a >>> 8) &&& 0xff : Nat) : Int)
      "call_host underflow"
  | .callIndirect =>
    if h < 1 then .error "call_indirect underflow"
    else
      match m.typeFp[i.b]? with
      | none => .error "call_indirect type oob"
      | some fpv =>
        effect int h (1 + ((fpv &&& 0xff : Nat) : Int)) (((fpv >>> 8) &&& 0xff : Nat) : Int)
          "call_indirect underflow"
  | .clz => effect int h 1 1 "clz underflow"
  | .unknown _ => .error "unknown cuop in verify"

end Int

/-- The index tests behind the `switch`. -/
def indexCheck (m : HostModule) (f : FuncMeta) (i : CuOp) : Except String Unit :=
  match i.op with
  | .localGet =>
    if i.a ≥ (f.nParams + f.nLocals) % 2 ^ 16 then .error "local.get index oob" else .ok ()
  | .localSet =>
    if i.a ≥ (f.nParams + f.nLocals) % 2 ^ 16 then .error "local.set index oob" else .ok ()
  | .i64Const => if i.b ≥ m.consts.length then .error "const pool oob" else .ok ()
  | _ => .ok ()

/-- The state of the worklist: `height` is `-1` where nothing is known, the last element of the
source's `work` vector comes first. -/
structure VState where
  height : Nat → Int
  work : List Nat
  maxH : Int

/-- The lambda `join`. -/
def join (f : FuncMeta) (rel : Nat) (h : Int) (st : VState) : Except String VState :=
  if rel ≥ f.codeLen then .error "join target out of function"
  else if st.height rel < 0 then
    .ok { st with height := Function.update st.height rel h, work := rel :: st.work }
  else if st.height rel ≠ h then
    .error ("stack height mismatch at pc " ++ toString (f.codeOff + rel))
  else .ok st

/-- The instruction at a function-relative position. -/
def instrAt (m : HostModule) (f : FuncMeta) (rel : Nat) : CuOp :=
  m.code.getD (f.codeOff + rel) { op := .unknown 0 }

/-- The worklist at the function's entry. -/
def initial : VState where
  height := Function.update (fun _ => -1) 0 0
  work := [0]
  maxH := 0

section Int

variable (int : Int → Int)

/-- One round of the `while` loop for the position `rel` taken from the worklist. -/
def visit (m : HostModule) (f : FuncMeta) (rel : Nat) (st : VState) : Except String VState := do
  let i := instrAt m f rel
  let h := st.height rel
  if h < 0 then throw "uninitialized height"
  let st := { st with maxH := max st.maxH h }
  let fl ← flow int m f i h
  let st ← match fl.target with
    | some t => join f (t - f.codeOff) fl.nextH st
    | none => pure st
  indexCheck m f i
  let st := { st with maxH := max st.maxH fl.nextH }
  if fl.fall then
    if rel + 1 ≥ f.codeLen then throw "fallthrough past end of function"
    join f (rel + 1) fl.nextH st
  else return st

/-- `while (!work.empty())`. Every round removes a position and a position is entered once, so
`codeLen` rounds are enough. -/
def loop (m : HostModule) (f : FuncMeta) : Nat → VState → Except String VState
  | 0, st => if st.work = [] then .ok st else .error "worklist bound"
  | n + 1, st =>
    match st.work with
    | [] => .ok st
    | rel :: work => do
      let st ← visit int m f rel { st with work := work }
      loop m f n st

/-- The pass over one function: its heights and the greatest of them. -/
def analyse (m : HostModule) (f : FuncMeta) : Except String VState :=
  loop int m f f.codeLen initial

/-- The body of the loop over the functions: `f` with its `max_stack`. -/
def func (m : HostModule) (fi : Nat) (f : FuncMeta) : Except String FuncMeta := do
  if f.codeOff + f.codeLen > m.code.length then throw "function code out of bounds"
  if f.codeLen = 0 then
    if fi < m.nHostImports then return { f with maxStack := f.nParams }
    throw "empty function"
  let last := instrAt m f (f.codeLen - 1)
  if last.op ≠ .ret ∧ last.op ≠ .endFunc then throw "function does not end in return/end_func"
  let st ← analyse int m f
  let maxSp := int (f.nParams + f.nLocals + st.maxH)
  let maxSp := if maxSp < 0 then 0 else maxSp
  if maxSp > 65535 then throw "max_stack overflow"
  return { f with maxStack := maxSp.toNat }

/-- The loop over the functions from index `fi` on. -/
def funcs (m : HostModule) : Nat → List FuncMeta → Except String (List FuncMeta)
  | _, [] => .ok []
  | fi, f :: fs => do
    let f' ← func int m fi f
    let fs' ← funcs m (fi + 1) fs
    return f' :: fs'

/-- `verify_cuop`: the module with every `max_stack` filled in, or the error. A function's check
reads only the signature of other functions, never their `max_stack`. -/
def cuop (m : HostModule) : Except String HostModule := do
  if m.funcs.isEmpty then throw "no functions"
  if m.code.isEmpty then throw "empty code"
  let fs ← funcs int m 0 m.funcs
  return { m with funcs := fs }

end Int

end Verify

/-- `verify_cuop` over the C++ `int`. -/
def verifyCuopInt : HostModule → Except String HostModule := Verify.cuop Verify.cInt

/-- `verify_cuop` in exact integers. -/
def verifyCuop : HostModule → Except String HostModule := Verify.cuop id

/-- The heights `verify_cuop` computes for a function it accepts, by function-relative position. -/
def heights (m : HostModule) (f : FuncMeta) : Nat → Int :=
  match Verify.analyse id m f with
  | .ok st => st.height
  | .error _ => fun _ => -1

end CuWasm
