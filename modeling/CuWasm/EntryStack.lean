import CuWasm.Frames
import CuWasm.GpuHost
import CuWasm.Runner
import CuWasm.Traps

/-!
# The stack cells of a run

`run_cpu`, `run_gpu` and `run_gpu_host` build the first frame with two loops of their own, which count
`st.sp` up and test nothing. From then on `run_instance` accesses the stack, and the drivers push the
results of host calls. `CpuCapped`, `GpuCapped` and `GpuHostCapped` say that all of it stays below
`STACK_CAP`.
-/

namespace CuWasm

/-- The stack that a driver fills before its first round, with the cells it writes. -/
structure EntryStack where
  sp : Nat := 0
  stack : Nat → Slot := fun _ => 0
  log : List Access := []

/-- `stack[st.sp++] = x;` -/
def EntryStack.put (e : EntryStack) (x : Slot) : EntryStack where
  sp := e.sp + 1
  stack := Function.update e.stack e.sp x
  log := ⟨.stack, e.sp, 1⟩ :: e.log

/-- The two loops: the arguments, then a zero for every local. -/
def entryLoops (f : FuncMeta) (args : List Slot) : EntryStack :=
  (List.replicate f.nLocals 0).foldl .put (args.foldl .put {})

/-- An access to the stack stays below its capacity. -/
def Access.Capped (a : Access) : Prop := a.region = .stack → a.start + a.count ≤ STACK_CAP

/-- The instruction that the machine fetches in `s` stays below the capacity of the stack. -/
def StepCapped (m : HostModule) (s : Mach) : Prop :=
  ∀ a ∈ (Exit.final (Run.step m.cpuViews m.dev s)).log, a.Capped

section Drivers

variable {H : Type} (m : HostModule) (f : FuncMeta) (host : HostFn H) (maxSteps : Nat)
  (args : List Slot)

/-! ## `run_cpu` -/

/-- `run_cpu` accesses no stack cell beyond the capacity: neither in front of its first round, nor in
an instruction, nor with the results of a host call, nor with those it returns. -/
structure CpuCapped (h : H) : Prop where
  entry : ∀ a ∈ (entryLoops f args).log, a.Capped
  steps : ∀ s, Visits m f host maxSteps (cpuEntry m f args CPU_FUEL h) s → StepCapped m s
  pushes : ∀ c c', CpuRuns m f host maxSteps (cpuEntry m f args CPU_FUEL h) c →
    cpuResume m host maxSteps c = .inr c' → ∀ j, STACK_CAP ≤ j → c'.ar.stack j = c.ar.stack j
  results : f.nResults ≤ STACK_CAP

/-- In the run of `run_cpu` every instruction satisfies what the verifier leaves open, and the host
returns as many results as the import declares. -/
structure CpuOrderly (h : H) : Prop where
  steps : ∀ s, Visits m f host maxSteps (cpuEntry m f args CPU_FUEL h) s → StepOk m.cpuViews m s
  replies : ∀ c n results, CpuRuns m f host maxSteps (cpuEntry m f args CPU_FUEL h) c →
    c.st.status = .hostcallPending → (c.ask host).reply = .ok (n, results) → n = c.st.hostNResults

/-! ## `run_gpu` -/

/-- The kernel fetches an instruction in the state `s`. -/
def GpuVisits (g0 : GpuState H) (s : Mach) : Prop :=
  ∃ g g' k, GpuRuns f host maxSteps g0 g ∧ gpuResume host g = .inr g' ∧ g'.st.status = .running ∧
    k < maxSteps ∧ Exit.Steps (Run.step g'.m.cpuViews g'.m.dev) k g'.dev.mach s

/-- `run_gpu` accesses no stack cell beyond the capacity. -/
structure GpuCapped (h : H) (junk : Device) : Prop where
  entry : ∀ a ∈ (entryLoops f args).log, a.Capped
  steps : ∀ s, GpuVisits f host maxSteps (gpuEntry m f args CPU_FUEL h junk) s → StepCapped m s
  pushes : ∀ g g', GpuRuns f host maxSteps (gpuEntry m f args CPU_FUEL h junk) g →
    gpuResume host g = .inr g' → ∀ j, STACK_CAP ≤ j → g'.stack j = g.stack j
  results : f.nResults ≤ STACK_CAP

/-- `CpuOrderly` for `run_gpu`. -/
structure GpuOrderly (h : H) (junk : Device) : Prop where
  steps : ∀ s, GpuVisits f host maxSteps (gpuEntry m f args CPU_FUEL h junk) s →
    StepOk m.cpuViews m s
  replies : ∀ g n results, GpuRuns f host maxSteps (gpuEntry m f args CPU_FUEL h junk) g →
    g.st.status = .hostcallPending → (g.ask host).reply = .ok (n, results) → n = g.st.hostNResults

/-! ## `run_gpu_host` -/

/-- The variables of `run_gpu_host` that change during the run. -/
structure GpuHostVars where
  st : VmState
  mb : HostMailbox
  ar : Arrays
  hs : GpuHostState

/-- The `run_instance` call of a round. -/
def GpuHostVars.run (x : GpuHostVars) : GpuHostVars :=
  let (st, mb, ar) := runInstance m.cpuViews m.dev x.st m.memSize x.mb x.ar maxSteps
  ⟨st, mb, ar, x.hs⟩

/-- The loop of `run_gpu_host` gets from one round to the next. -/
def gpuHostRound (x y : GpuHostVars) : Prop :=
  (x.run m maxSteps).st.status = .hostcallPending ∧
    gpuHostCall (x.run m maxSteps).st (x.run m maxSteps).mb (x.run m maxSteps).ar x.hs =
      .inr (y.st, y.mb, y.ar, y.hs)

/-- The variables in front of the first round. -/
def gpuHostEntry (hs : GpuHostState) : GpuHostVars where
  st := entryState m f maxSteps
  mb := {}
  ar := m.entryArrays f args
  hs := hs

/-- The driver gets from one round to the next. -/
def GpuHostRuns : GpuHostVars → GpuHostVars → Prop :=
  Relation.ReflTransGen (gpuHostRound m maxSteps)

/-- The machine that `run_instance` starts with in a round. -/
def GpuHostVars.mach (x : GpuHostVars) : Mach := Mach.load x.st m.memSize x.mb x.ar

/-- The machine fetches an instruction in the state `s`. -/
def GpuHostVisits (x0 : GpuHostVars) (s : Mach) : Prop :=
  ∃ x k, GpuHostRuns m maxSteps x0 x ∧ k < maxSteps ∧
    Exit.Steps (Run.step m.cpuViews m.dev) k (x.mach m) s

/-- `run_gpu_host` accesses no stack cell beyond the capacity. Of the results it reads one. -/
structure GpuHostCapped (hs : GpuHostState) : Prop where
  entry : ∀ a ∈ (entryLoops f args).log, a.Capped
  steps : ∀ s, GpuHostVisits m maxSteps (gpuHostEntry m f maxSteps args hs) s → StepCapped m s
  pushes : ∀ x y, GpuHostRuns m maxSteps (gpuHostEntry m f maxSteps args hs) x →
    gpuHostRound m maxSteps x y → ∀ j, STACK_CAP ≤ j → y.ar.stack j = (x.run m maxSteps).ar.stack j

/-- `CpuOrderly` for `run_gpu_host`. -/
structure GpuHostOrderly (hs : GpuHostState) : Prop where
  steps : ∀ s, GpuHostVisits m maxSteps (gpuHostEntry m f maxSteps args hs) s → StepOk m.cpuViews m s
  replies : ∀ x hs' mb, GpuHostRuns m maxSteps (gpuHostEntry m f maxSteps args hs) x →
    (x.run m maxSteps).st.status = .hostcallPending →
    gpuHostDispatch x.hs (x.run m maxSteps).mb (x.run m maxSteps).ar.mem
      (x.run m maxSteps).st.memSize = some (hs', mb) →
    mb.nResults = (x.run m maxSteps).st.hostNResults

end Drivers

end CuWasm
