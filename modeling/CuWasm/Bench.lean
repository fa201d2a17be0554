import CuWasm.GpuHost

/-!
# The batch kernel

`bench.cu`: every thread of `k_batch` runs one instance of the same export. Stacks, frames, globals,
memories and live flags of all threads lie in shared arrays, thread `tid` behind an offset of its own;
host calls are answered on the device by `gpu_host_dispatch`.

`threadStep` is one instruction of a thread, host call included, on the arrays all threads share;
`batchRun` runs the threads in any order the scheduler gives.
-/

namespace CuWasm

/-- `BENCH_STACK_CAP`. -/
def BENCH_STACK_CAP : Nat := 512

/-- `BENCH_FRAME_CAP`. -/
def BENCH_FRAME_CAP : Nat := 64

/-- `BENCH_MAX_STEPS`, also the fuel of a thread. -/
def BENCH_MAX_STEPS : Nat := 100000000

/-- The length of a thread's slice of an array of `n` cells per thread. -/
def sliceLen (n : Nat) : Nat := if n = 0 then 1 else n

/-- The views of thread `tid`. The memory limit is the current size of the memory. -/
def HostModule.batchViews (m : HostModule) (tid : Nat) : Views where
  stack := { base := tid * BENCH_STACK_CAP, cap := BENCH_STACK_CAP }
  frames := { base := tid * BENCH_FRAME_CAP, cap := BENCH_FRAME_CAP }
  globals := tid * sliceLen m.globals.length
  nGlobals := m.globals.length
  memory := tid * sliceLen m.memSize
  memMax := m.memSize
  live := tid * sliceLen m.dataLive.length
  nData := m.dataLive.length
  blob := m.dataBlob
  dataOff := m.dataOff
  dataLen := m.dataLen

/-- The arrays `upload_wasm_call` fills for a call of `f`: every thread gets a copy of the arguments,
the entry frame, the globals and the memory of the module, and all its data segments live. -/
def HostModule.batchArrays (m : HostModule) (f : FuncMeta) (args : List Slot) : Arrays where
  stack := fun i => if i % BENCH_STACK_CAP < args.length then args.getD (i % BENCH_STACK_CAP) 0 else 0
  frames := fun i => if i % BENCH_FRAME_CAP = 0 then ⟨0, 0, 0, f.nResults⟩ else default
  globals := fun i => m.globals.getD (i % sliceLen m.globals.length) 0
  mem := fun i => m.memory (i % sliceLen m.memSize)
  live := fun _ => 1

/-- The `VmState` that `upload_wasm_call` gives to every thread. -/
def batchState (m : HostModule) (f : FuncMeta) : VmState where
  pc := f.codeOff
  sp := f.nParams + f.nLocals
  fp := 0
  csp := 1
  fuel := BENCH_MAX_STEPS
  status := .running
  peakCsp := 1
  memSize := m.memSize

/-- The loop that pushes host results while there is room: the new stack pointer and stack. -/
def pushWhile (v : Views) (results : Nat → Slot) : Nat → Nat → (Nat → Slot) → Nat →
    Nat × (Nat → Slot)
  | _, 0, stack, sp => (sp, stack)
  | i, n + 1, stack, sp =>
    if sp < BENCH_STACK_CAP then
      pushWhile v results (i + 1) n (Function.update stack (v.stack.idx sp) (results i)) (sp + 1)
    else (sp, stack)

/-- A thread of `k_batch`: the machine inside `run_instance` with the number of instructions left of
the quota, or the final status; and the host state. -/
structure Thread where
  mach : Mach
  phase : Nat ⊕ Status
  hs : GpuHostState

/-- The machine with the shared arrays in place of its own. -/
def Mach.on (s : Mach) (ar : Arrays) : Mach :=
  { s with stack := ar.stack, frames := ar.frames, globals := ar.globals, mem := ar.mem
           live := ar.live }

section Batch

variable (m : HostModule) (maxSteps : Nat) (tid : Nat)

/-- The reaction of `k_batch` to the exit of `run_instance` with the status `e`. -/
def batchExit (hs : GpuHostState) (e : Status) (s : Mach) : Thread :=
  let v := m.batchViews tid
  if e = .hostcallPending then
    match gpuHostDispatch hs s.mb (fun i => s.mem (v.memory + i)) s.memSize with
    | none => ⟨s, .inr .unsupportedOp, hs⟩
    | some (hs, mb) =>
      let p := pushWhile v mb.results 0 mb.nResults s.stack s.sp
      let st := { s.save .running with sp := p.1 }
      ⟨Mach.load st m.memSize mb { s.arrays with stack := p.2 }, .inl maxSteps, hs⟩
  else ⟨s, .inr e, hs⟩

/-- One instruction of thread `tid` on the shared arrays. -/
def threadStep (t : Thread) (ar : Arrays) : Thread × Arrays :=
  match t.phase with
  | .inr _ => (t, ar)
  | .inl 0 => ({ t with phase := .inr .running }, ar)
  | .inl (n + 1) =>
    match Run.step (m.batchViews tid) m.dev (t.mach.on ar) with
    | .ok _ s => (⟨s, .inl n, t.hs⟩, s.arrays)
    | .error e s =>
      let t' := batchExit m maxSteps tid t.hs e s
      (t', t'.mach.arrays)

/-- The thread as `k_batch` finds it, with the host state `hs`. -/
def batchThread (f : FuncMeta) (args : List Slot) (hs : GpuHostState) : Thread where
  mach := Mach.load (batchState m f) m.memSize {} (m.batchArrays f args)
  phase := .inl maxSteps
  hs := hs

/-- All threads and the shared arrays after the scheduler has run the threads of the list, one
instruction each. -/
def batchRun : List Nat → (Nat → Thread) × Arrays → (Nat → Thread) × Arrays
  | [], b => b
  | tid :: sched, (ts, ar) =>
    let p := threadStep m maxSteps tid (ts tid) ar
    batchRun sched (Function.update ts tid p.1, p.2)

end Batch

/-- The lambda `bal` of the balance checks: the value stored for an address, 0 if there is none. -/
def bal (store : GpuStorage) (pk : Vector Byte 32) : Slot :=
  match kvFind store (STOR_PERSISTENT :: (kvWriteU64 SYM_BALANCE ++ pk.toList)) with
  | none => 0
  | some idx => if store.valLens idx < 8 then 0 else kvReadU64 (store.values idx)

end CuWasm
