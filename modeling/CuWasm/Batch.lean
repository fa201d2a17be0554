import CuWasm.Alike
import CuWasm.Frames
import CuWasm.HostEffect
import CuWasm.Lib.Interleave

/-!
# Threads of the batch kernel, alone and together

The threads of `k_batch` share their arrays. `SameThread` compares a thread on the shared arrays with
a thread on other arrays by everything the thread can get to see: its registers, its mailbox, its host
state and its slices. `HostModule.alone` is the thread with the arrays to itself. `SameEnd` compares it
with a run of `run_gpu_host`.
-/

namespace CuWasm

/-- The instruction `i` enters a function: an `OP_CALL`, or an `OP_CALL_INDIRECT` that finds one. -/
def Run.Enters (v : Views) (m : DevModule) (i : CuOp) (s : Mach) : Prop :=
  i.op = .call ∨ i.op = .callIndirect ∧
    Run.indirectTarget m i.b (u32 (s.stack (v.stack.idx (dec32 s.sp)))).toNat ≠ none

/-- A thread with the arrays it works on. -/
abbrev World := Thread × Arrays

/-- The machine of a thread, on the arrays of its world. -/
def World.mach (w : World) : Mach := w.1.mach.on w.2

/-- The arrays show the same slices behind the views. -/
structure SameSlices (v : Views) (ar ar' : Arrays) : Prop where
  stack : ∀ j, v.own .stack j → ar'.stack (v.base .stack + j) = ar.stack (v.base .stack + j)
  frames : ∀ j, v.own .frames j → ar'.frames (v.base .frames + j) = ar.frames (v.base .frames + j)
  globals : ∀ j, v.own .globals j →
    ar'.globals (v.base .globals + j) = ar.globals (v.base .globals + j)
  mem : ∀ j, v.own .memory j → ar'.mem (v.base .memory + j) = ar.mem (v.base .memory + j)
  live : ∀ j, v.own .live j → ar'.live (v.base .live + j) = ar.live (v.base .live + j)

/-- Outside of the slices behind the views the arrays are the same. -/
structure SameOutside (v : Views) (ar ar' : Arrays) : Prop where
  stack : ∀ i, (∀ j, v.own .stack j → i ≠ v.base .stack + j) → ar'.stack i = ar.stack i
  frames : ∀ i, (∀ j, v.own .frames j → i ≠ v.base .frames + j) → ar'.frames i = ar.frames i
  globals : ∀ i, (∀ j, v.own .globals j → i ≠ v.base .globals + j) → ar'.globals i = ar.globals i
  mem : ∀ i, (∀ j, v.own .memory j → i ≠ v.base .memory + j) → ar'.mem i = ar.mem i
  live : ∀ i, (∀ j, v.own .live j → i ≠ v.base .live + j) → ar'.live i = ar.live i

/-- The threads have the same `VmState`, mailboxes, host states and slices. -/
structure SameThread (v : Views) (w w' : World) : Prop where
  phase : w'.1.phase = w.1.phase
  hs : w'.1.hs = w.1.hs
  vm : w'.1.mach.save .running = w.1.mach.save .running
  mb : w'.1.mach.mb = w.1.mach.mb
  slices : SameSlices v w.2 w'.2

namespace HostModule

variable (m : HostModule)

/-- The thread does not leave its slices with the next instruction, and its memory is inside its
slice. -/
def Private (tid : Nat) (w : World) : Prop :=
  w.1.mach.memSize ≤ m.memSize ∧
    ∀ n, w.1.phase = .inl (n + 1) →
      ¬ Spoiled (m.batchViews tid).own (m.batchViews tid)
        (Exit.final (Run.step (m.batchViews tid) m.dev w.mach))

/-- The thread is not deeper in calls than its frames reach, and if it is about to make a host call
without arguments, there is a slot for the result. -/
def roomy (w : World) : Bool :=
  w.1.mach.csp ≤ BENCH_FRAME_CAP &&
    match w.1.phase, m.code[w.1.mach.pc]? with
    | .inl (_ + 1), some i =>
      i.op != .callHost || 0 < i.declared.1 || w.1.mach.sp < BENCH_STACK_CAP
    | _, _ => true

/-- The next instruction of the thread leaves its slices alone by the conditions on it: those that
`verify_cuop` leaves open, a function is entered with a frame of the thread free, and a host call that
`gpu_host_dispatch` answers declares one result and finds a slot for it. -/
def Disciplined (tid : Nat) (w : World) : Prop :=
  ∀ n i, w.1.phase = .inl (n + 1) → m.code[w.1.mach.pc]? = some i →
    StepOk (m.batchViews tid) m w.mach ∧
      (Run.Enters (m.batchViews tid) m.dev i w.mach → w.1.mach.csp < BENCH_FRAME_CAP) ∧
      (i.op = .callHost → GpuFn.ofId i.b = none ∨
        i.declared.2 = 1 ∧ w.1.mach.sp - i.declared.1 < BENCH_STACK_CAP)

/-- The cells in which the arrays of a thread and those of `run_gpu_host` agree: the cells of the slices,
but of the live flags only those of segments that have not been dropped at the start. -/
def tracked (tid : Nat) (r : Region) (j : Nat) : Prop :=
  (m.batchViews tid).own r j ∧ (r = .live → m.dataLive.getD j 0 = 1)

/-- The next instruction of the thread does in `k_batch` what it does in `run_gpu_host`: the two memory
limits make no difference to a `memory.grow`, and the segment of a `memory.init` or a `data.drop` has not
been dropped at the start. -/
def Matches (tid : Nat) (w : World) : Prop :=
  ∀ n i, w.1.phase = .inl (n + 1) → m.code[w.1.mach.pc]? = some i →
    (i.op = .memoryGrow → GrowsAlike (m.batchViews tid) m.cpuViews w.mach) ∧
      (i.op = .memoryInit ∨ i.op = .dataDrop → i.a < m.dataLive.length → m.dataLive.getD i.a 0 = 1)

/-- The next step of the thread accesses cells of its slices only, and changes no others. -/
structure KeepsToSlices (maxSteps tid : Nat) (w : World) : Prop where
  within : m.Private tid w
  outside : SameOutside (m.batchViews tid) w.2 (Interleave.alone (threadStep m maxSteps) tid w).2

/-- The host calls in the code that `gpu_host_dispatch` answers declare one result. -/
def OneResult : Prop :=
  ∀ i ∈ m.code, i.op = .callHost → GpuFn.ofId i.b ≠ none → i.declared.2 = 1

/-- No slot of the table holds an import. -/
def TableDefined : Prop :=
  ∀ i fi : Nat, m.table[i]? = some fi → fi ≠ TABLE_NULL → m.nHostImports ≤ fi

section Threads

variable (maxSteps : Nat) (f : FuncMeta) (args : List Slot)

/-- Thread `tid` after `k` instructions with the arrays to itself. -/
def alone (hs : GpuHostState) (tid k : Nat) : World :=
  (Interleave.alone (threadStep m maxSteps) tid)^[k]
    (batchThread m maxSteps f args hs, m.batchArrays f args)

/-- Thread `tid` after the threads of the schedule have run on the shared arrays. -/
def among (hs : Nat → GpuHostState) (sched : List Nat) (tid : Nat) : World :=
  let b := batchRun m maxSteps sched
    (fun tid => batchThread m maxSteps f args (hs tid), m.batchArrays f args)
  (b.1 tid, b.2)

end Threads

end HostModule

/-- `run_gpu_host` has ended as the thread `tid` has: with its status, its host state and its slices of
the stack, the globals and the memory. -/
structure SameEnd (m : HostModule) (tid : Nat) (w : World) (r : GpuHostEnd) : Prop where
  status : w.1.phase = .inr r.run.status
  hs : r.hs = w.1.hs
  stack : ∀ j, (m.batchViews tid).own .stack j →
    r.ar.stack j = w.2.stack ((m.batchViews tid).base .stack + j)
  globals : ∀ j, (m.batchViews tid).own .globals j →
    r.ar.globals j = w.2.globals ((m.batchViews tid).base .globals + j)
  mem : ∀ j, (m.batchViews tid).own .memory j →
    r.ar.mem j = w.2.mem ((m.batchViews tid).base .memory + j)

end CuWasm
