import CuWasm.Meaning

/-!
# Functions that only compute

Bodies without calls and without memory, what they mean on their own, and the run of `run_instance` over
the code that `lower_operators` emits for one of them.
-/

namespace CuWasm

open Wasm

namespace Wasm

/-- The operators on values, locals and globals, and the branches. -/
def Operator.computes : Operator → Bool
  | .nop | .unreachable | .const (.i32 _) | .const (.i64 _) | .drop | .select | .typedSelect _ | .num _
  | .globalGet _ | .globalSet _ | .localGet _ | .localSet _ | .localTee _
  | .br _ | .brIf _ | .brTable _ _ | .return_ => true
  | _ => false

/-- Every operator of the sequence computes. -/
def Body.computes : Body → Bool
  | .nil => true
  | .op o rest => o.computes && rest.computes
  | .block _ b rest | .loop _ b rest | .ifThen _ b rest => b.computes && rest.computes
  | .ifElse _ b els rest => b.computes && els.computes && rest.computes

/-- The function `c` of the type `ft`, which has the type index `ti`, is valid in the context `C`, and its
body only computes. -/
structure Func.Computes (c : Func) (C : Ctx) (ti : Nat) (ft : FuncType) : Prop where
  type : C.types[ti]? = some ft
  locals : C.locals = ft.1 ++ c.locals.flatMap fun g => List.replicate g.1 g.2
  results : C.results = ft.2
  valid : c.body.Valid C
  computes : c.body.computes = true

/-- The values `xs` have the types `ts`. -/
def Values (xs : List Nat) (ts : List ValType) : Prop := List.Forall₂ (fun a t => a < 2 ^ t.width) xs ts

end Wasm

/-- A host that refuses every call. -/
def noHost : HostFn Unit := fun h _ _ mem => { reply := .error "", memory := mem, host := h }

/-- The function `c` of the type `types[ti]` on its own, without imports, tables and memory. -/
def Wasm.Func.alone (c : Func) (types : List FuncType) (ti : Nat) : Instance Unit where
  types := types
  funcs := [ti]
  nImports := 0
  code := [c]
  table := []
  maxPages := 0
  datas := []
  host := fun h _ => hostAnswer noHost 0 h

/-- A store with the globals `gs` and nothing else. -/
def globalStore (gs : List Nat) : Store Unit where
  globals := gs
  mem := fun _ => 0
  size := 0
  dropped := fun _ => true
  host := ()

/-- The result of the function within the budget `n`. -/
def Wasm.Func.result (c : Func) (types : List FuncType) (ti n : Nat) (args gs : List Nat) :
    Option (Result Unit) :=
  ((c.alone types ti).eval n).call 0 args (globalStore gs)

/-- The code and the constants that the pass has left, with the function `f` and the globals `gs`. -/
def emittedModule (code : List CuOp) (consts : List Slot) (f : FuncMeta) (gs : List Nat) : HostModule where
  code := code
  consts := consts
  funcs := [f]
  exports := []
  globals := gs.map (BitVec.ofNat 64)
  memory := fun _ => 0
  memMax := 0
  memSize := 0
  dataBlob := []
  dataOff := []
  dataLen := []
  dataLive := []
  table := []
  funcTypeidx := []
  typeFp := []
  nHostImports := 0
  hostFnId := []
  hostImportMod := []
  hostImportName := []
  hostImportEnv := []

/-- `run_instance` from a fresh frame of `f`: the arguments, then zeros for the locals, and no operands. -/
def freshRun (code : List CuOp) (consts : List Slot) (f : FuncMeta) (args gs : List Nat) (fuel : Int)
    (quota : Nat) : VmState × HostMailbox × Arrays :=
  let m := emittedModule code consts f gs
  runInstance m.cpuViews m.dev (entryState m f fuel) m.memSize {}
    (m.entryArrays f (args.map (BitVec.ofNat 64))) quota

/-- `run_instance` has ended with the result `res` of a function with `nr` results in a module with `ng`
globals: the values in the lowest slots or the kind of the trap, and the globals. -/
def Delivers (nr ng : Nat) (res : Result Unit) (out : VmState × HostMailbox × Arrays) : Prop :=
  match res with
  | .values ys s => out.1.status = .ok ∧ (List.range nr).map out.2.2.stack = ys.map (BitVec.ofNat 64) ∧
      (List.range ng).map out.2.2.globals = s.globals.map (BitVec.ofNat 64)
  | .trap t s => out.1.status = faultStatus t ∧
      (List.range ng).map out.2.2.globals = s.globals.map (BitVec.ofNat 64)
  | .refused _ | .wrong => False

/-- The run has met a limit of the machine. -/
def Limited (out : VmState × HostMailbox × Arrays) : Prop :=
  out.1.status = .trapStackOverflow ∨ out.1.status = .outOfFuel

end CuWasm
