import CuWasm.Interp
import CuWasm.Lib.Lockstep
import CuWasm.Lib.Window

/-!
# Two machines that look alike

The same instructions run on other arrays: the slice of a batch thread, the copies on a device, the
arrays a driver hands back. Two machines are alike when their registers are equal and their arrays
agree on the cells a run owns. What `run_instance` only writes and never reads (the mailbox, the host
fields, `peak_csp`) is not compared.
-/

namespace CuWasm

open BlockMove

/-- Where the cells of a region begin. -/
def Views.base (v : Views) : Region → Nat
  | .stack => v.stack.idx 0
  | .frames => v.frames.idx 0
  | .globals => v.globals
  | .memory => v.memory
  | .live => v.live

/-- The cells of a region that belong to the instance behind the views. -/
def Views.own (v : Views) : Region → Nat → Prop
  | .stack, j => j < v.stack.cap
  | .frames, j => j < v.frames.cap
  | .globals, j => j < v.nGlobals
  | .memory, j => j < v.memMax
  | .live, j => j < v.nData

/-- The views `v'` show the same module as `v`; their stack is not smaller. -/
structure Views.Fits (v v' : Views) : Prop where
  cap : v.stack.cap ≤ v'.stack.cap
  nGlobals : v'.nGlobals = v.nGlobals
  nData : v'.nData = v.nData
  blob : v'.blob = v.blob
  dataOff : v'.dataOff = v.dataOff
  dataLen : v'.dataLen = v.dataLen

section Alike

variable (own : Region → Nat → Prop) (v v' : Views) (ar : Arrays)

/-- The access stays with the cells `own`. -/
def Access.In (a : Access) : Prop :=
  ∀ j, a.start ≤ v.base a.region + j → v.base a.region + j < a.start + a.count → own a.region j

/-- The current instruction has accessed a cell outside `own`. -/
def Spoiled (s : Mach) : Prop := ∃ a ∈ s.log, ¬ a.In own v

/-- Equal registers. -/
structure SameRegs (s t : Mach) : Prop where
  pc : t.pc = s.pc
  sp : t.sp = s.sp
  fp : t.fp = s.fp
  csp : t.csp = s.csp
  fuel : t.fuel = s.fuel
  memSize : t.memSize = s.memSize

/-- The machines are alike, and outside of the cells `own` the arrays of `t` are still `ar`. -/
structure Alike (s t : Mach) : Prop where
  regs : SameRegs s t
  stack : Window (own .stack) (v.base .stack) (v'.base .stack) ar.stack s.stack t.stack
  frames : Window (own .frames) (v.base .frames) (v'.base .frames) ar.frames s.frames t.frames
  globals : Window (own .globals) (v.base .globals) (v'.base .globals) ar.globals s.globals t.globals
  mem : Window (own .memory) (v.base .memory) (v'.base .memory) ar.mem s.mem t.mem
  live : Window (own .live) (v.base .live) (v'.base .live) ar.live s.live t.live

/-- The mailboxes hold the same call. -/
structure SameCall (mb mb' : HostMailbox) : Prop where
  fnId : mb'.fnId = mb.fnId
  nArgs : mb'.nArgs = mb.nArgs
  args : ∀ i, i < mb.nArgs → mb'.args i = mb.args i

/-- A stack overflow of the smaller stack. -/
def Escape (e : Status) : Prop := e = .trapStackOverflow ∧ v.stack.cap < v'.stack.cap

/-- A `memory.grow` in state `s` has the same outcome under both memory limits. -/
def GrowsAlike (s : Mach) : Prop :=
  let np := s.memSize / WASM_PAGE + (u32 (s.stack (v.stack.idx (dec32 s.sp)))).toNat
  (np > v.memMax / WASM_PAGE ∨ np > 65536 ↔ np > v'.memMax / WASM_PAGE ∨ np > 65536)

/-- In `n` steps from `s` the machine keeps to the cells `own`. -/
def StaysIn (m : DevModule) (n : Nat) (s : Mach) : Prop :=
  ∀ k u, k < n → Exit.Steps (Run.step v m) k s u → ¬ Spoiled own v (Exit.final (Run.step v m u))

/-- In `n` steps from `s` the two memory limits make no difference. -/
def GrowsAlikeFor (m : DevModule) (n : Nat) (s : Mach) : Prop :=
  ∀ k u i, k < n → Exit.Steps (Run.step v m) k s u → m.code[u.pc]? = some i → i.op = .memoryGrow →
    GrowsAlike v v' u

/-- The two computations go in lockstep as long as the first one keeps to `own`. -/
def InStep {α : Type} (x y : Run α) : Prop :=
  Exit.Lock (Alike own v v' ar) (Spoiled own v) (Escape v v') x y

end Alike

end CuWasm
