import CuWasm.CuOp
import CuWasm.Lib.BlockMove

/-!
# The interpreter `run_instance`

`interp.h`, with the views of `layout.h` and `mem.h` it works on. One instruction is a computation
in `Run`, an exception-and-state monad whose exceptions are the `goto done` exits of the source: they
carry the status and keep the machine state reached so far.

The arrays a run works on are total functions from indices, and a view says where in them the run's
own part starts. That is the pointer arithmetic of the source: an index outside the part is not an
error there but an access to somebody else's memory. Every access is therefore recorded in `log`,
which holds the accesses of the current instruction.
-/

namespace CuWasm

open BlockMove

/-- The arrays shared between the instances of a batch. -/
inductive Region where
  | stack | frames | globals | memory | live
  deriving DecidableEq, Repr

/-- An access of `count` cells of an array from index `start` on. -/
structure Access where
  region : Region
  start : Nat
  count : Nat := 1
  deriving DecidableEq, Repr

/-- `AoSView` and `AoSFrameView`: instance `inst` of capacity `cap` behind a base pointer. -/
structure AoSView where
  base : Nat
  cap : Nat
  inst : Nat := 0
  deriving DecidableEq, Repr

/-- The array index behind `at(i)`. -/
def AoSView.idx (v : AoSView) (i : Nat) : Nat := v.base + v.inst * v.cap + i

/-- `struct HostMailbox`; `args` has 16 and `results` one cell. -/
structure HostMailbox where
  fnId : Nat := 0
  nArgs : Nat := 0
  nResults : Nat := 0
  args : Nat → Slot := fun _ => 0
  results : Nat → Slot := fun _ => 0

/-- `struct VmState`. -/
structure VmState where
  pc : Nat := 0
  sp : Nat := 0
  fp : Nat := 0
  csp : Nat := 0
  fuel : Int := 0
  status : Status := .running
  peakCsp : Nat := 0
  memSize : Nat := 0
  hostFn : Nat := 0
  hostNArgs : Nat := 0
  hostNResults : Nat := 0

/-- The arguments of `run_instance` that stay fixed during a run: the views, the length of the
globals, the memory limit and the data segments. -/
structure Views where
  stack : AoSView
  frames : AoSView
  globals : Nat := 0
  nGlobals : Nat
  memory : Nat := 0
  memMax : Nat
  live : Nat := 0
  nData : Nat
  blob : List Byte := []
  dataOff : List Nat := []
  dataLen : List Nat := []

/-- The machine inside `run_instance`: the registers it keeps in locals, the size of its own copy of
the `MemView`, the host fields of `VmState` it writes through, the mailbox and the arrays. -/
structure Mach where
  pc : Nat
  sp : Nat
  fp : Nat
  csp : Nat
  fuel : Int
  peakCsp : Nat
  memSize : Nat
  hostFn : Nat
  hostNArgs : Nat
  hostNResults : Nat
  mb : HostMailbox
  stack : Nat → Slot
  frames : Nat → Frame
  globals : Nat → Slot
  mem : Nat → Byte
  live : Nat → Byte
  log : List Access

/-- A computation of the machine; an exception is a `goto done` with its status. -/
abbrev Run := EStateM Status Mach

/-! ## Memory helpers of `mem.h` -/

/-- `mem_in_bounds`. -/
def memInBounds (size ea n : Nat) : Bool := if n > size then false else ea ≤ size - n

/-- `mem_load_le`. -/
def memLoadLe (mem : Nat → Byte) (ea : Nat) : Nat → Slot
  | 0 => 0
  | i + 1 => memLoadLe mem ea i ||| ((mem (ea + i)).setWidth 64 <<< (8 * i))

/-- `mem_store_le`. -/
def memStoreLe (mem : Nat → Byte) (ea n : Nat) (v : Slot) : Nat → Byte :=
  fillAsc mem ea (fun i => (v >>> (8 * i)).setWidth 8) n

/-- `sext64`. -/
def sext64 (v : Slot) (bits : Nat) : Slot := (v <<< (64 - bits)).sshiftRight (64 - bits)

/-- `--x` on a `uint32_t`: zero wraps around. -/
def dec32 (x : Nat) : Nat := if x = 0 then 0xFFFFFFFF else x - 1

/-! ## The machine's primitive accesses -/

namespace Run

variable (v : Views)

/-- Record an access. -/
def touch (r : Region) (start : Nat) (count : Nat := 1) : Run Unit :=
  modify fun s => { s with log := ⟨r, start, count⟩ :: s.log }

/-- Read `stack.at(i)`. -/
def stackGet (i : Nat) : Run Slot := do
  touch .stack (v.stack.idx i)
  return (← get).stack (v.stack.idx i)

/-- `stack.at(i) = x`. -/
def stackSet (i : Nat) (x : Slot) : Run Unit := do
  touch .stack (v.stack.idx i)
  modify fun s => { s with stack := Function.update s.stack (v.stack.idx i) x }

/-- The copy loops of `OP_UNWIND`, `OP_RETURN_CALL` and `OP_RETURN`: upwards when the destination is
not above the source, downwards otherwise. -/
def stackMove (dst src n : Nat) : Run Unit := do
  touch .stack (v.stack.idx src) n
  touch .stack (v.stack.idx dst) n
  modify fun s => { s with stack := move s.stack (v.stack.idx 0) dst src n }

/-- Read `frames.at(i)`. -/
def frameGet (i : Nat) : Run Frame := do
  touch .frames (v.frames.idx i)
  return (← get).frames (v.frames.idx i)

/-- `frames.at(i) = fr`. -/
def frameSet (i : Nat) (fr : Frame) : Run Unit := do
  touch .frames (v.frames.idx i)
  modify fun s => { s with frames := Function.update s.frames (v.frames.idx i) fr }

/-- `CU_POP()`. -/
def pop : Run Slot := do
  modify fun s => { s with sp := dec32 s.sp }
  stackGet v (← get).sp

/-- `CU_PUSH(x)`: the capacity is tested before the operand is evaluated. -/
def push (x : Run Slot) : Run Unit := do
  if (← get).sp ≥ v.stack.cap then throw .trapStackOverflow
  let y ← x
  let sp := (← get).sp
  modify fun s => { s with sp := sp + 1 }
  stackSet v sp y

/-- `for (i = 0; i < n; ++i) CU_PUSH(0);` -/
def pushZeros : Nat → Run Unit
  | 0 => pure ()
  | n + 1 => do push v (pure 0); pushZeros n

/-- The common part of `OP_CALL` and `OP_CALL_INDIRECT` once the callee is known. -/
def enter (f : FuncMeta) : Run Unit := do
  let s ← get
  if s.csp ≥ FRAME_CAP then throw .trapCallDepth
  if s.sp < f.nParams then throw .trapStackOverflow
  let spBase := s.sp - f.nParams
  frameSet v s.csp ⟨s.pc, s.fp, spBase, f.nResults⟩
  modify fun s => { s with csp := s.csp + 1 }
  modify fun s => { s with peakCsp := if s.csp > s.peakCsp then s.csp else s.peakCsp }
  modify fun s => { s with fp := spBase }
  pushZeros v f.nLocals
  modify fun s => { s with pc := f.codeOff }

/-- The part of `OP_RETURN`/`OP_END_FUNC`: pop a frame and move the results down. -/
def leave : Run Unit := do
  if (← get).csp = 0 then throw .trapUnreachable
  modify fun s => { s with csp := s.csp - 1 }
  let fr ← frameGet v (← get).csp
  let nres := fr.nResults
  if (← get).sp < nres then throw .trapStackOverflow
  stackMove v fr.spBase ((← get).sp - nres) nres
  modify fun s => { s with sp := fr.spBase + nres, fp := fr.fp }
  if (← get).csp = 0 then throw .ok
  modify fun s => { s with pc := fr.retPc }

/-- `OP_UNWIND`: keep the top `nkeep` operands and drop what lies between them and the label. -/
def unwind (nkeep b : Nat) : Run Unit := do
  let s ← get
  let dest := (s.fp + b) % 2 ^ 32
  if nkeep > s.sp then throw .trapStackOverflow
  if dest < nkeep ∨ dest > STACK_CAP then throw .trapStackOverflow
  let src := s.sp - nkeep
  let dst := dest - nkeep
  if dst ≠ src then stackMove v dst src nkeep
  modify fun s => { s with sp := dest }

/-- `OP_RETURN_CALL`: reuse the current frame for the callee. -/
def returnCall (f : FuncMeta) : Run Unit := do
  let s ← get
  if s.sp < f.nParams then throw .trapStackOverflow
  stackMove v s.fp (s.sp - f.nParams) f.nParams
  modify fun s => { s with sp := s.fp + f.nParams }
  pushZeros v f.nLocals
  if s.csp > 0 then
    let fr ← frameGet v (s.csp - 1)
    frameSet v (s.csp - 1) { fr with nResults := f.nResults }
  modify fun s => { s with pc := f.codeOff }

/-- `OP_CALL_HOST`: fill the mailbox and leave with a pending host call. -/
def callHost (a b : Nat) : Run Unit := do
  let np := a &&& 0xff
  let nr := (a >>> 8) &&& 0xff
  if np > 16 then throw .unsupportedOp
  let s ← get
  if s.sp < np then throw .trapStackOverflow
  touch .stack (v.stack.idx (s.sp - np)) np
  modify fun s => { s with
    mb := { s.mb with
      fnId := b, nArgs := np, nResults := nr
      args := fun i => if i < np then s.stack (v.stack.idx (s.sp - np + i)) else s.mb.args i } }
  modify fun s => { s with sp := s.sp - np, hostFn := b, hostNArgs := np, hostNResults := nr }
  throw .hostcallPending

/-- `OP_CALL_INDIRECT` up to the choice of the callee. -/
def indirectCallee (m : DevModule) (b idx : Nat) : Run FuncMeta := do
  match m.table[idx]? with
  | none => throw .trapIndirectCall
  | some fi =>
    if fi = TABLE_NULL then throw .trapIndirectCall
    match m.funcs[fi]?, m.typeFp[b]? with
    | some f, some want =>
      match m.funcTypeidx[fi]? with
      | none => throw .trapIndirectCall
      | some tidx =>
        if m.typeFp[tidx]? ≠ some want then throw .trapIndirectCall
        return f
    | _, _ => throw .trapIndirectCall

/-- `OP_LOAD`. -/
def load (a b : Nat) : Run Unit := do
  let nbytes := a &&& 0xf
  let sgn := a &&& 0x10 ≠ 0
  let i64dest := a &&& 0x20 ≠ 0
  let addr := (u32 (← pop v)).toNat
  let ea := addr + b
  if nbytes = 0 ∨ nbytes > 8 ∨ !memInBounds (← get).memSize ea nbytes then throw .trapMemOob
  touch .memory (v.memory + ea) nbytes
  let x := memLoadLe (← get).mem (v.memory + ea) nbytes
  let x :=
    if sgn then
      if i64dest then sext64 x (nbytes * 8) else slot32 (u32 (sext64 x (nbytes * 8)))
    else if ¬ i64dest ∧ nbytes < 8 then slot32 (u32 x)
    else x
  push v (pure x)

/-- `OP_STORE`. -/
def store (a b : Nat) : Run Unit := do
  let val ← pop v
  let addr := (u32 (← pop v)).toNat
  let ea := addr + b
  if a = 0 ∨ a > 8 ∨ !memInBounds (← get).memSize ea a then throw .trapMemOob
  touch .memory (v.memory + ea) a
  modify fun s => { s with mem := memStoreLe s.mem (v.memory + ea) a val }

/-- `OP_MEMORY_GROW`: only the local copy of the view grows. -/
def memoryGrow : Run Unit := do
  let delta := (u32 (← pop v)).toNat
  let old := (← get).memSize / WASM_PAGE
  let np := old + delta
  let maxp := v.memMax / WASM_PAGE
  if np > maxp ∨ np > 65536 then push v (pure (slot32 (-1)))
  else
    modify fun s => { s with memSize := np % 2 ^ 32 * WASM_PAGE % 2 ^ 32 }
    push v (pure (BitVec.ofNat 64 old))

/-- `OP_MEMORY_COPY`. -/
def memoryCopy : Run Unit := do
  let n := (u32 (← pop v)).toNat
  let src := (u32 (← pop v)).toNat
  let dst := (u32 (← pop v)).toNat
  let size := (← get).memSize
  if src + n > size ∨ dst + n > size then throw .trapMemOob
  touch .memory (v.memory + src) n
  touch .memory (v.memory + dst) n
  modify fun s => { s with mem := move s.mem v.memory dst src n }

/-- `OP_MEMORY_FILL`. -/
def memoryFill : Run Unit := do
  let n := (u32 (← pop v)).toNat
  let val : Byte := (← pop v).setWidth 8
  let dst := (u32 (← pop v)).toNat
  if dst + n > (← get).memSize then throw .trapMemOob
  touch .memory (v.memory + dst) n
  modify fun s => { s with mem := fillAsc s.mem (v.memory + dst) (fun _ => val) n }

/-- `OP_MEMORY_INIT` of segment `di`: a dropped segment counts as empty. -/
def memoryInit (di : Nat) : Run Unit := do
  let n := (u32 (← pop v)).toNat
  let src := (u32 (← pop v)).toNat
  let dst := (u32 (← pop v)).toNat
  if di ≥ v.nData then throw .trapMemOob
  touch .live (v.live + di)
  let alive := (← get).live (v.live + di) ≠ 0
  let dlen := if alive then v.dataLen.getD di 0 else 0
  let doff := if alive then v.dataOff.getD di 0 else 0
  if src + n > dlen ∨ dst + n > (← get).memSize then throw .trapMemOob
  touch .memory (v.memory + dst) n
  let seg := fun i => v.blob.getD (doff + src + i) 0
  modify fun s => { s with mem := fillAsc s.mem (v.memory + dst) seg n }

/-- `OP_DATA_DROP`. -/
def dataDrop (di : Nat) : Run Unit := do
  if di ≥ v.nData then throw .trapMemOob
  touch .live (v.live + di)
  modify fun s => { s with live := Function.update s.live (v.live + di) 0 }

/-- `OP_BR`: a target not beyond the next instruction costs fuel. -/
def br (b : Nat) : Run Unit := do
  if b ≤ (← get).pc then
    modify fun s => { s with fuel := s.fuel - FUEL_BACKEDGE }
    if (← get).fuel ≤ 0 then throw .outOfFuel
  modify fun s => { s with pc := b }

/-- `OP_GLOBAL_GET`. -/
def globalGet (b : Nat) : Run Unit := do
  if b ≥ v.nGlobals then throw .unsupportedOp
  push v do
    touch .globals (v.globals + b)
    return (← get).globals (v.globals + b)

/-- `OP_GLOBAL_SET`. -/
def globalSet (b : Nat) : Run Unit := do
  if b ≥ v.nGlobals then throw .unsupportedOp
  let x ← pop v
  touch .globals (v.globals + b)
  modify fun s => { s with globals := Function.update s.globals (v.globals + b) x }

/-- Push a pair of words, the low one first. -/
def pushPair (p : Slot × Slot) : Run Unit := do
  push v (pure p.1)
  push v (pure p.2)

/-- The `switch` of `run_instance`. -/
def exec (m : DevModule) (i : CuOp) : Run Unit :=
  match i.op with
  | .i64Const => push v (pure (m.consts.getD i.b 0))
  | .localGet => push v do stackGet v ((← get).fp + i.a)
  | .localSet => do
    let x ← pop v
    stackSet v ((← get).fp + i.a) x
  | .bin o => do
    let b ← pop v
    let a ← pop v
    match o.eval a b with
    | .ok r => push v (pure r)
    | .error st => throw st
  | .un o => do
    let a ← pop v
    push v (pure (o.eval a))
  | .drop => do let _ ← pop v
  | .select => do
    let c := u32 (← pop v)
    let b ← pop v
    let a ← pop v
    push v (pure (if c ≠ 0 then a else b))
  | .i64MulWideU => do
    let b ← pop v
    let a ← pop v
    pushPair v (mulWideU a b)
  | .i64MulWideS => do
    let b ← pop v
    let a ← pop v
    pushPair v (mulWideS a b)
  | .i64Add128 => do
    let rhsHi ← pop v
    let rhsLo ← pop v
    let lhsHi ← pop v
    let lhsLo ← pop v
    pushPair v (add128 lhsLo lhsHi rhsLo rhsHi)
  | .i64Sub128 => do
    let rhsHi ← pop v
    let rhsLo ← pop v
    let lhsHi ← pop v
    let lhsLo ← pop v
    pushPair v (sub128 lhsLo lhsHi rhsLo rhsHi)
  | .globalGet => globalGet v i.b
  | .globalSet => globalSet v i.b
  | .unwind => unwind v i.a i.b
  | .br => br i.b
  | .brIfNot => do
    let c := u32 (← pop v)
    if c = 0 then modify fun s => { s with pc := i.b }
  | .call =>
    match m.funcs[i.b]? with
    | none => throw .unsupportedOp
    | some f => enter v f
  | .returnCall =>
    match m.funcs[i.b]? with
    | none => throw .unsupportedOp
    | some f => returnCall v f
  | .ret => leave v
  | .endFunc => leave v
  | .unreachable => throw .trapUnreachable
  | .load => load v i.a i.b
  | .store => store v i.a i.b
  | .memorySize => do push v (pure (BitVec.ofNat 64 ((← get).memSize / WASM_PAGE)))
  | .memoryGrow => memoryGrow v
  | .memoryCopy => memoryCopy v
  | .memoryFill => memoryFill v
  | .memoryInit => memoryInit v i.a
  | .dataDrop => dataDrop v i.a
  | .callHost => callHost v i.a i.b
  | .callIndirect => do
    let idx := (u32 (← pop v)).toNat
    let f ← indirectCallee m i.b idx
    enter v f
  | .clz => do
    let x ← pop v
    push v (pure (clz i.a x))
  | .unknown _ => throw .unsupportedOp

/-- One round of the instruction loop: fetch, execute, and the stack test behind the `switch`. -/
def step (m : DevModule) : Run Unit := do
  modify fun s => { s with log := [] }
  match m.code[(← get).pc]? with
  | none => throw .trapUnreachable
  | some i =>
    modify fun s => { s with pc := s.pc + 1 }
    exec v m i
    if (← get).sp > STACK_CAP then throw .trapStackOverflow

/-- The loop `for (step = 0; step < max_steps; ++step)`, with the status it is left with. -/
def loop (m : DevModule) : Nat → Mach → Status × Mach
  | 0, s => (.running, s)
  | n + 1, s =>
    match step v m s with
    | .ok _ s' => loop m n s'
    | .error st s' => (st, s')

end Run

/-- The arrays a run works on. -/
structure Arrays where
  stack : Nat → Slot
  frames : Nat → Frame
  globals : Nat → Slot
  mem : Nat → Byte
  live : Nat → Byte

/-- The prologue of `run_instance`: load the registers from `VmState`. The size of the memory comes
from the `MemView` argument, not from `VmState`. -/
def Mach.load (st : VmState) (memSize : Nat) (mb : HostMailbox) (ar : Arrays) : Mach where
  pc := st.pc
  sp := st.sp
  fp := st.fp
  csp := st.csp
  fuel := st.fuel
  peakCsp := if st.csp > st.peakCsp then st.csp else st.peakCsp
  memSize := memSize
  hostFn := st.hostFn
  hostNArgs := st.hostNArgs
  hostNResults := st.hostNResults
  mb := mb
  stack := ar.stack
  frames := ar.frames
  globals := ar.globals
  mem := ar.mem
  live := ar.live
  log := []

/-- The epilogue of `run_instance`: store the registers back into `VmState`. -/
def Mach.save (s : Mach) (status : Status) : VmState where
  pc := s.pc
  sp := s.sp
  fp := s.fp
  csp := s.csp
  fuel := s.fuel
  status := status
  peakCsp := s.peakCsp
  memSize := s.memSize
  hostFn := s.hostFn
  hostNArgs := s.hostNArgs
  hostNResults := s.hostNResults

/-- The arrays behind a machine. -/
def Mach.arrays (s : Mach) : Arrays := ⟨s.stack, s.frames, s.globals, s.mem, s.live⟩

/-- `run_instance`: at most `maxSteps` instructions from the saved state. -/
def runInstance (v : Views) (m : DevModule) (st : VmState) (memSize : Nat) (mb : HostMailbox)
    (ar : Arrays) (maxSteps : Nat) : VmState × HostMailbox × Arrays :=
  let (status, s) := Run.loop v m maxSteps (Mach.load st memSize mb ar)
  (s.save status, s.mb, s.arrays)

end CuWasm
