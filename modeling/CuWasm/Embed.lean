import CuWasm.Dispatch
import CuWasm.Lib.Exit
import CuWasm.Run

/-!
# What an embedder knows about the guest memory

The size of the guest memory is kept in four places: the machine inside `run_instance`, the `VmState`
it leaves behind, the `HostModule` that `run_cpu` updates when it returns, and the `DispatchCtx` that
an embedder fills from `cuwasm_module_memory_size` before the run. `SizeSeen` says that the last two
are right whenever somebody looks: they agree with what the guest has grown its memory to.
-/

namespace CuWasm

/-- `cuwasm_module_memory_size`. -/
def cuwasmModuleMemorySize (m : HostModule) : Nat := m.memSize

/-- The `DispatchCtx` of `run_cuwasm_profile`, at a moment when the guest memory is `mem`. -/
def HostModule.dispatchCtx {H : Type} (m : HostModule) (host : H) (mem : Nat → Byte) :
    Dispatch.DispatchCtx H where
  host := host
  mem := mem
  memSize := cuwasmModuleMemorySize m

/-- The next instruction is a `memory.grow` that makes the memory larger. -/
def Enlarges (v : Views) (m : DevModule) (s : Mach) : Prop :=
  ∃ i, m.code[s.pc]? = some i ∧ i.op = .memoryGrow ∧
    0 < (u32 (s.stack (v.stack.idx (dec32 s.sp)))).toNat ∧
    s.memSize / WASM_PAGE + (u32 (s.stack (v.stack.idx (dec32 s.sp)))).toNat ≤
      min (v.memMax / WASM_PAGE) 65536

/-- The module `m'` is what any number of `run_cpu` calls have left of `m`. -/
inductive RunsLeave (m : HostModule) : HostModule → Prop where
  | fresh : RunsLeave m m
  | run {H : Type} {m1 m2 : HostModule} {funcIdx : Nat} {args : List Slot} {maxSteps : Nat}
      {host : HostFn H} {h h' : H} {rounds : Nat} {r : RunResult} (hm : RunsLeave m m1)
      (hr : runCpu m1 funcIdx args maxSteps host h rounds = some (r, m2, h')) : RunsLeave m m2

section Driver

variable {H : Type} (m : HostModule) (f : FuncMeta) (host : HostFn H) (maxSteps : Nat)

/-- The driver gets from one round to the next. -/
def CpuRuns : CpuState H → CpuState H → Prop :=
  Relation.ReflTransGen fun c c' => cpuRound m f host maxSteps c = .inr c'

/-- The answer to a pending host call, or nothing to do: the first half of a round. -/
def cpuResume (c : CpuState H) : (RunResult × HostModule × H) ⊕ CpuState H :=
  if c.st.status = .hostcallPending then hostCall m host maxSteps c else .inr c

/-- The machine that `run_instance` starts with in a round from `c`. -/
def CpuState.mach (c : CpuState H) : Mach := Mach.load c.st m.memSize c.mb c.ar

/-- A run from `c0` with the size of the memory as the guest knows it: that of the module, and every page
that a `memory.grow` has reported since. -/
inductive GuestRuns (c0 : CpuState H) : CpuState H → Nat → Prop where
  | start : GuestRuns c0 c0 m.memSize
  | round {c c' : CpuState H} {size : Nat} (hc : GuestRuns c0 c size)
      (hr : cpuRound m f host maxSteps c = .inr c') :
      GuestRuns c0 c' (size + (c'.st.memSize - m.memSize))

/-- In a run from `c0` the embedder knows the size of the guest memory: at every host call, where it
bounds the slices that the host dispatch accepts, and on every return. -/
structure SizeSeen (c0 : CpuState H) : Prop where
  atCall : ∀ c size, GuestRuns m f host maxSteps c0 c size → c.st.status = .hostcallPending →
    cuwasmModuleMemorySize m = size
  slices : ∀ c size, GuestRuns m f host maxSteps c0 c size → c.st.status = .hostcallPending →
    ∀ pos len, (∃ bs, Dispatch.readBytes (m.dispatchCtx c.host c.ar.mem) pos len = .ok bs) ↔
      pos + len ≤ size
  atReturn : ∀ c size r, GuestRuns m f host maxSteps c0 c size →
    cpuRound m f host maxSteps c = .inl r → cuwasmModuleMemorySize r.2.1 = size

/-- In a `run_instance` call that ends with one of the statuses `out`, no `memory.grow` makes the
memory larger. -/
def NoGrowthBefore (out : List Status) (c0 : CpuState H) : Prop :=
  ∀ c c', CpuRuns m f host maxSteps c0 c → cpuResume m host maxSteps c = .inr c' →
    c'.st.status = .running → (runOnce m maxSteps c').st.status ∈ out →
    ∀ k s, k < maxSteps → Exit.Steps (Run.step m.cpuViews m.dev) k (c'.mach m) s →
      ¬ Enlarges m.cpuViews m.dev s

/-- The run comes from `c` to a host call, or it returns. -/
def Surfaces (c : CpuState H) : Prop :=
  ∃ d, CpuRuns m f host maxSteps c d ∧
    (d.st.status = .hostcallPending ∨ ∃ r, cpuRound m f host maxSteps d = .inl r)

/-- In a `run_instance` call that is interrupted, no `memory.grow` makes the memory larger: by a host
call, or by an exhausted quota behind which the run comes to a host call or returns. -/
def NoGrowthInterrupted (c0 : CpuState H) : Prop :=
  ∀ c c', CpuRuns m f host maxSteps c0 c → cpuResume m host maxSteps c = .inr c' →
    c'.st.status = .running → (runOnce m maxSteps c').st.status ∈ [.running, .hostcallPending] →
    Surfaces m f host maxSteps (runOnce m maxSteps c') →
    ∀ k s, k < maxSteps → Exit.Steps (Run.step m.cpuViews m.dev) k (c'.mach m) s →
      ¬ Enlarges m.cpuViews m.dev s

end Driver

end CuWasm
