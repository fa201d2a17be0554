import CuWasm.Alike
import CuWasm.Run

/-!
# The GPU driver `run_gpu`

`runner.cu`: stack, frames, globals, memory, live flags, registers and mailbox have a copy on the
device, where the kernel `k_run` works, and a copy on the host, where the driver and the host function
work. The driver keeps the two in step by hand. The module's code and data segments are uploaded once
and never change, so they stay those of the `HostModule`.

Allocation and copying succeed. A launch fails when an instruction accesses a cell that is not part of
the uploaded arrays.
-/

namespace CuWasm

/-- `cudaMemcpy` of `n` cells: the destination afterwards. -/
def cudaMemcpy {α : Type} (n : Nat) (dst src : Nat → α) : Nat → α :=
  fun i => if i < n then src i else dst i

/-- What lies on the device. -/
structure Device where
  st : VmState
  mb : HostMailbox
  ar : Arrays

/-- The variables of `run_gpu` that change during the run. Its copies of globals, memory and live
flags are those of the module. -/
structure GpuState (H : Type) where
  m : HostModule
  st : VmState
  stack : Nat → Slot
  dev : Device
  host : H

/-- The cells that were allocated and uploaded for a region. -/
def HostModule.cells (m : HostModule) : Region → Nat
  | .stack => STACK_CAP
  | .frames => FRAME_CAP
  | .globals => m.globals.length
  | .memory => m.memMax
  | .live => m.dataLive.length

/-- An access of the kernel stays inside the allocation. -/
def HostModule.legal (m : HostModule) (a : Access) : Bool :=
  a.count == 0 || a.start + a.count ≤ m.cells a.region

/-- No instruction of a launch makes an illegal access. -/
def HostModule.legalRun (m : HostModule) : Nat → Mach → Bool
  | 0, _ => true
  | n + 1, s =>
    (Exit.final (Run.step m.cpuViews m.dev s)).log.all m.legal &&
      match Run.step m.cpuViews m.dev s with
      | .ok _ s' => m.legalRun n s'
      | .error _ _ => true

/-- The machine that `k_run` starts: the size of the memory is the one in `VmState`. -/
def Device.mach (d : Device) : Mach := Mach.load d.st d.st.memSize d.mb d.ar

/-- A launch of `k_run`, or `none` when it fails. -/
def kRun (m : HostModule) (maxSteps : Nat) (d : Device) : Option Device :=
  if m.legalRun maxSteps d.mach then
    let (st, mb, ar) := runInstance m.cpuViews m.dev d.st d.st.memSize d.mb d.ar maxSteps
    some ⟨st, mb, ar⟩
  else none

section Gpu

variable {H : Type}

/-- The call of the host function with the mailbox and the memory copied from the device. -/
def GpuState.ask (host : HostFn H) (g : GpuState H) : HostReply H :=
  host g.host g.dev.mb.fnId ((List.range g.dev.mb.nArgs).map g.dev.mb.args)
    (cudaMemcpy g.m.memMax g.m.memory g.dev.ar.mem)

/-- The reaction to a pending host call: the early return of `run_gpu`, or the state to go on with. -/
def gpuHostReply (host : HostFn H) (g : GpuState H) : (RunResult × HostModule × H) ⊕ GpuState H :=
  let out := g.ask host
  let m := { g.m with memory := out.memory }
  match out.reply with
  | .error e =>
    .inl ({ status := .unsupportedOp, error := e, peakCsp := g.st.peakCsp }, m, out.host)
  | .ok (n, results) =>
    match pushResults { g.dev.mb with nResults := n, results := results } 0 n g.stack g.st.sp with
    | none => .inl ({ status := .trapStackOverflow }, m, out.host)
    | some (sp, stack) =>
      let st := { g.st with sp := sp, status := .running }
      let dev := { g.dev with
        st := st
        ar := { g.dev.ar with
          stack := cudaMemcpy STACK_CAP g.dev.ar.stack stack
          mem := cudaMemcpy m.memMax g.dev.ar.mem m.memory } }
      .inr { m := m, st := st, stack := stack, dev := dev, host := out.host }

/-- The copies from the device after a launch. -/
def GpuState.download (g : GpuState H) (d : Device) : GpuState H where
  m := { g.m with
    globals := (List.range g.m.globals.length).map d.ar.globals
    memory := cudaMemcpy g.m.memMax g.m.memory d.ar.mem
    dataLive := (List.range g.m.dataLive.length).map d.ar.live }
  st := d.st
  stack := cudaMemcpy STACK_CAP g.stack d.ar.stack
  dev := d
  host := g.host

/-- What `run_gpu` returns once the status is final. -/
def gpuResult (f : FuncMeta) (maxSteps : Nat) (g : GpuState H) : RunResult × HostModule × H :=
  ({ status := g.st.status, peakCsp := g.st.peakCsp, stepsBound := maxSteps
     results := if g.st.status = .ok then (List.range f.nResults).map g.stack else [] },
    { g.m with memSize := g.st.memSize }, g.host)

/-- The answer to a pending host call, or nothing to do. -/
def gpuResume (host : HostFn H) (g : GpuState H) : (RunResult × HostModule × H) ⊕ GpuState H :=
  if g.st.status = .hostcallPending then gpuHostReply host g else .inr g

/-- One round of `for (;;)`: the value returned, or the state of the next round. -/
def gpuRound (f : FuncMeta) (host : HostFn H) (maxSteps : Nat) (g : GpuState H) :
    (RunResult × HostModule × H) ⊕ GpuState H :=
  match gpuResume host g with
  | .inl r => .inl r
  | .inr g =>
    if g.st.status ≠ .running then .inl (gpuResult f maxSteps g)
    else
      match kRun g.m maxSteps g.dev with
      | none => .inl ({}, g.m, g.host)
      | some d => .inr (g.download d)

/-- The loop of `run_gpu`, for at most the given number of rounds. -/
def gpuLoop (f : FuncMeta) (host : HostFn H) (maxSteps : Nat) :
    Nat → GpuState H → Option (RunResult × HostModule × H)
  | 0, _ => none
  | n + 1, g =>
    match gpuRound f host maxSteps g with
    | .inl r => some r
    | .inr g => gpuLoop f host maxSteps n g

/-- The state of the driver before its first round. `junk` is what the fresh allocations hold. -/
def gpuEntry (m : HostModule) (f : FuncMeta) (args : List Slot) (fuel : Int) (h : H)
    (junk : Device) : GpuState H :=
  let st := entryState m f fuel
  let ar := m.entryArrays f args
  { m := m
    st := st
    stack := ar.stack
    dev :=
      { st := st
        mb := junk.mb
        ar :=
          { stack := cudaMemcpy STACK_CAP junk.ar.stack ar.stack
            frames := cudaMemcpy FRAME_CAP junk.ar.frames ar.frames
            globals := cudaMemcpy m.globals.length junk.ar.globals ar.globals
            mem := cudaMemcpy m.memMax junk.ar.mem ar.mem
            live := cudaMemcpy m.dataLive.length junk.ar.live ar.live } }
    host := h }

/-- `run_gpu`; `none` when it has not returned within `rounds` rounds of its loop. -/
def runGpu (m : HostModule) (funcIdx : Nat) (args : List Slot) (maxSteps : Nat) (host : HostFn H)
    (h : H) (junk : Device) (rounds : Nat) : Option (RunResult × HostModule × H) :=
  match m.funcs[funcIdx]? with
  | none => some ({}, m, h)
  | some f =>
    if args.length ≠ f.nParams then some ({}, m, h)
    else if m.code.isEmpty then some ({}, m, h)
    else gpuLoop f host maxSteps rounds (gpuEntry m f args CPU_FUEL h junk)

/-- The driver gets from one round to the next. -/
def GpuRuns (f : FuncMeta) (host : HostFn H) (maxSteps : Nat) : GpuState H → GpuState H → Prop :=
  Relation.ReflTransGen fun g g' => gpuRound f host maxSteps g = .inr g'

/-- All CUDA calls of the run from `g0` succeed: no launch fails. -/
def CudaSucceeds (f : FuncMeta) (host : HostFn H) (maxSteps : Nat) (g0 : GpuState H) : Prop :=
  ∀ g g', GpuRuns f host maxSteps g0 g → gpuResume host g = .inr g' → g'.st.status = .running →
    (kRun g'.m maxSteps g'.dev).isSome

/-- The launches of at most `rounds` rounds succeed, and the driver returns within them. -/
def launchesSucceed (f : FuncMeta) (host : HostFn H) (maxSteps : Nat) : Nat → GpuState H → Bool
  | 0, _ => false
  | n + 1, g =>
    (match gpuResume host g with
      | .inl _ => true
      | .inr g' => g'.st.status != .running || (kRun g'.m maxSteps g'.dev).isSome) &&
    match gpuRound f host maxSteps g with
    | .inl _ => true
    | .inr g' => launchesSucceed f host maxSteps n g'

/-- Two drivers have returned the same, up to their profile. -/
structure SameReturn (r r' : RunResult × HostModule × H) : Prop where
  status : r'.1.status = r.1.status
  results : r'.1.results = r.1.results
  error : r'.1.error = r.1.error
  module : r'.2.1 = r.2.1
  host : r'.2.2 = r.2.2

end Gpu

end CuWasm
