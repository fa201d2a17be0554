import CuWasm.Host

/-!
# The CPU driver `run_cpu`

`run.cpp`: build the entry frame, then alternate between `run_instance` and the host function until
the status is final. The driver keeps one `MemView` for the whole run and hands a copy of it to every
`run_instance` call.
-/

namespace CuWasm

/-- What a host function leaves behind: the number of results and the results in the mailbox or an
error text, the guest memory, and its own state. -/
structure HostReply (H : Type) where
  reply : Except String (Nat × (Nat → Slot))
  memory : Nat → Byte
  host : H

/-- A host function, given its own state, the function number, the arguments and the guest memory. -/
abbrev HostFn (H : Type) := H → Nat → List Slot → (Nat → Byte) → HostReply H

/-- `struct RunResult`. -/
structure RunResult where
  status : Status := .unsupportedOp
  results : List Slot := []
  peakCsp : Nat := 0
  stepsBound : Nat := 0
  error : String := ""

/-- The variables of `run_cpu` that change during the run. -/
structure CpuState (H : Type) where
  st : VmState
  mb : HostMailbox
  ar : Arrays
  host : H

/-- The views `run_cpu` passes to `run_instance`. -/
def HostModule.cpuViews (m : HostModule) : Views where
  stack := { base := 0, cap := STACK_CAP }
  frames := { base := 0, cap := FRAME_CAP }
  nGlobals := m.globals.length
  memMax := m.memMax
  nData := m.dataLive.length
  blob := m.dataBlob
  dataOff := m.dataOff
  dataLen := m.dataLen

/-- The stack of the entry frame: the arguments, then zeros. -/
def entryStack (args : List Slot) : Nat → Slot := fun i => args.getD i 0

/-- The arrays at entry; globals, memory and live flags are those of the module. -/
def HostModule.entryArrays (m : HostModule) (f : FuncMeta) (args : List Slot) : Arrays where
  stack := entryStack args
  frames := fun i => if i = 0 then ⟨0, 0, 0, f.nResults⟩ else default
  globals := fun i => m.globals.getD i 0
  mem := m.memory
  live := fun i => m.dataLive.getD i 0

/-- The `VmState` at entry. -/
def entryState (m : HostModule) (f : FuncMeta) (fuel : Int) : VmState where
  pc := f.codeOff
  sp := f.nParams + f.nLocals
  fp := 0
  csp := 1
  fuel := fuel
  status := .running
  peakCsp := 1
  memSize := m.memSize

/-- The fuel `run_cpu` starts with. -/
def CPU_FUEL : Int := 1000000000000

/-- Push the host results, up to the capacity of the stack. -/
def pushResults (mb : HostMailbox) : Nat → Nat → (Nat → Slot) → Nat → Option (Nat × (Nat → Slot))
  | _, 0, stack, sp => some (sp, stack)
  | i, n + 1, stack, sp =>
    if sp ≥ STACK_CAP then none
    else pushResults mb (i + 1) n (Function.update stack sp (mb.results i)) (sp + 1)

section Cpu

variable {H : Type}

/-- The module after a run: the arrays the run worked on in place, and the recorded memory size. -/
def HostModule.withArrays (m : HostModule) (ar : Arrays) (memSize : Nat) : HostModule :=
  { m with
    globals := (List.range m.globals.length).map ar.globals
    memory := ar.mem
    dataLive := (List.range m.dataLive.length).map ar.live
    memSize := memSize }

/-- The call of the host function with the mailbox. -/
def CpuState.ask (host : HostFn H) (c : CpuState H) : HostReply H :=
  host c.host c.mb.fnId ((List.range c.mb.nArgs).map c.mb.args) c.ar.mem

/-- The reaction to a pending host call: the early return of `run_cpu`, or the state to go on with. -/
def hostCall (m : HostModule) (host : HostFn H) (maxSteps : Nat) (c : CpuState H) :
    (RunResult × HostModule × H) ⊕ CpuState H :=
  let out := c.ask host
  let ar := { c.ar with mem := out.memory }
  match out.reply with
  | .error e =>
    .inl ({ status := .unsupportedOp, error := e, peakCsp := c.st.peakCsp, stepsBound := maxSteps },
      m.withArrays ar m.memSize, out.host)
  | .ok (n, results) =>
    let mb := { c.mb with nResults := n, results := results }
    match pushResults mb 0 n ar.stack c.st.sp with
    | none => .inl ({ status := .trapStackOverflow }, m.withArrays ar m.memSize, out.host)
    | some (sp, stack) =>
      .inr { st := { c.st with sp := sp, status := .running }, mb := mb
             ar := { ar with stack := stack }, host := out.host }

/-- What `run_cpu` returns once the status is final. -/
def finalResult (m : HostModule) (f : FuncMeta) (maxSteps : Nat) (c : CpuState H) :
    RunResult × HostModule × H :=
  ({ status := c.st.status, peakCsp := c.st.peakCsp, stepsBound := maxSteps
     results := if c.st.status = .ok then (List.range f.nResults).map c.ar.stack else [] },
    m.withArrays c.ar c.st.memSize, c.host)

/-- One `run_instance` call of the driver. -/
def runOnce (m : HostModule) (maxSteps : Nat) (c : CpuState H) : CpuState H :=
  let (st, mb, ar) := runInstance m.cpuViews m.dev c.st m.memSize c.mb c.ar maxSteps
  { c with st := st, mb := mb, ar := ar }

/-- One round of `for (;;)`: the value returned, or the state of the next round. -/
def cpuRound (m : HostModule) (f : FuncMeta) (host : HostFn H) (maxSteps : Nat) (c : CpuState H) :
    (RunResult × HostModule × H) ⊕ CpuState H :=
  match if c.st.status = .hostcallPending then hostCall m host maxSteps c else .inr c with
  | .inl r => .inl r
  | .inr c =>
    if c.st.status ≠ .running then .inl (finalResult m f maxSteps c)
    else .inr (runOnce m maxSteps c)

/-- The loop of `run_cpu`, for at most the given number of rounds. -/
def cpuLoop (m : HostModule) (f : FuncMeta) (host : HostFn H) (maxSteps : Nat) :
    Nat → CpuState H → Option (RunResult × HostModule × H)
  | 0, _ => none
  | n + 1, c =>
    match cpuRound m f host maxSteps c with
    | .inl r => some r
    | .inr c => cpuLoop m f host maxSteps n c

/-- The state of the driver before its first round. -/
def cpuEntry (m : HostModule) (f : FuncMeta) (args : List Slot) (fuel : Int) (h : H) :
    CpuState H where
  st := entryState m f fuel
  mb := {}
  ar := m.entryArrays f args
  host := h

/-- `run_cpu`; `none` when it has not returned within `rounds` rounds of its loop. -/
def runCpu (m : HostModule) (funcIdx : Nat) (args : List Slot) (maxSteps : Nat) (host : HostFn H)
    (h : H) (rounds : Nat) : Option (RunResult × HostModule × H) :=
  match m.funcs[funcIdx]? with
  | none => some ({}, m, h)
  | some f =>
    if args.length ≠ f.nParams then some ({}, m, h)
    else cpuLoop m f host maxSteps rounds (cpuEntry m f args CPU_FUEL h)

end Cpu

end CuWasm
