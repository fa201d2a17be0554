import CuWasm.Bench

/-!
# The stack effect of a host call

`OP_CALL_HOST` takes its arguments off the stack and leaves `run_instance`; the driver asks the host
and pushes the results. What a caller relies on is that the two together have the effect
that the import declares, or that the run ends with an error.
-/

namespace CuWasm

/-- How a driver goes on after a host call. -/
inductive Resumption where
  | ended (status : Status)
  | resumed (sp : Nat) (stack : Nat → Slot)

/-- `run_cpu`. -/
def cpuResumption {H : Type} (m : HostModule) (host : HostFn H) (maxSteps : Nat) (c : CpuState H) :
    Resumption :=
  match hostCall m host maxSteps c with
  | .inl r => .ended r.1.status
  | .inr c => .resumed c.st.sp c.ar.stack

/-- `run_gpu_host`. -/
def gpuHostResumption (st : VmState) (mb : HostMailbox) (ar : Arrays) (hs : GpuHostState) :
    Resumption :=
  match gpuHostCall st mb ar hs with
  | .inl r => .ended r.run.status
  | .inr r => .resumed r.1.sp r.2.2.1.stack

/-- `k_batch`. -/
def batchResumption (m : HostModule) (maxSteps tid : Nat) (hs : GpuHostState) (s : Mach) :
    Resumption :=
  let t := batchExit m maxSteps tid hs .hostcallPending s
  match t.phase with
  | .inr status => .ended status
  | .inl _ => .resumed t.mach.sp t.mach.stack

/-- The number of result cells of the mailbox that a push loop reads when the host has left `n`
results and the stack pointer is `sp`. -/
def cellsRead (n cap sp : Nat) : Nat := min n (cap - sp)

/-- The effect a call with `np` parameters and `nr` results in machine `s` has to have when the host
left `n` results and `read` of them were read: the `nr` results stand in place of the arguments and
everything below is as before, or the run ends with an error. The mailbox has one result cell. -/
def CallEffect (v : Views) (s : Mach) (np nr n : Nat) (results : Nat → Slot) (read : Nat) :
    Resumption → Prop
  | .ended status => status ∉ [.ok, .running, .hostcallPending] ∧ read ≤ 1
  | .resumed sp stack =>
    n = nr ∧ sp = s.sp - np + nr ∧
      (∀ i, i < nr → stack (v.stack.idx (s.sp - np + i)) = results i) ∧
      (∀ j, j < s.sp - np → stack (v.stack.idx j) = s.stack (v.stack.idx j)) ∧ read ≤ 1

/-- The declared parameters and results of an `OP_CALL_HOST`. -/
def CuOp.declared (i : CuOp) : Nat × Nat := (i.a &&& 0xff, (i.a >>> 8) &&& 0xff)

section Drivers

variable (m : HostModule) (maxSteps : Nat) (s t : Mach) (i : CuOp)

/-- `run_cpu` gives the call `i` of machine `s`, suspended in `t`, its declared effect. -/
def CpuEffect {H : Type} (host : HostFn H) (h : H) : Prop :=
  let c : CpuState H := ⟨t.save .hostcallPending, t.mb, t.arrays, h⟩
  match (c.ask host).reply with
  | .error _ => CallEffect m.cpuViews s i.declared.1 i.declared.2 0 (fun _ => 0) 0
      (cpuResumption m host maxSteps c)
  | .ok (n, results) => CallEffect m.cpuViews s i.declared.1 i.declared.2 n results
      (cellsRead n STACK_CAP t.sp) (cpuResumption m host maxSteps c)

/-- `run_gpu_host` gives the call its declared effect. -/
def GpuHostEffect (hs : GpuHostState) : Prop :=
  let r := gpuHostResumption (t.save .hostcallPending) t.mb t.arrays hs
  match gpuHostDispatch hs t.mb t.mem t.memSize with
  | none => CallEffect m.cpuViews s i.declared.1 i.declared.2 0 (fun _ => 0) 0 r
  | some (_, mb) => CallEffect m.cpuViews s i.declared.1 i.declared.2 mb.nResults mb.results
      (cellsRead mb.nResults STACK_CAP t.sp) r

/-- Thread `tid` of `k_batch` gives the call its declared effect. -/
def BatchEffect (tid : Nat) (hs : GpuHostState) : Prop :=
  let v := m.batchViews tid
  let r := batchResumption m maxSteps tid hs t
  match gpuHostDispatch hs t.mb (fun j => t.mem (v.memory + j)) t.memSize with
  | none => CallEffect v s i.declared.1 i.declared.2 0 (fun _ => 0) 0 r
  | some (_, mb) => CallEffect v s i.declared.1 i.declared.2 mb.nResults mb.results
      (cellsRead mb.nResults BENCH_STACK_CAP t.sp) r

/-- The reply of the host that gives a call with `nr` declared results its effect in `run_cpu` when
the arguments are gone and the stack pointer is `sp`: an error, the declared number of results if
that is at most one, or more results than fit when there is room for at most one. -/
def ReplyDeclared (nr sp : Nat) : Except String (Nat × (Nat → Slot)) → Prop
  | .error _ => True
  | .ok (n, _) => if n = 0 ∨ sp + n ≤ STACK_CAP then n = nr ∧ n ≤ 1 else STACK_CAP ≤ sp + 1

end Drivers

end CuWasm
