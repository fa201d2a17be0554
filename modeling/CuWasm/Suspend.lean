import CuWasm.Embed
import CuWasm.Runner

/-!
# A run without interruptions

`run_cpu` leaves `run_instance` whenever its quota is used up or the guest calls the host, and enters
it again from the saved `VmState`. Here is the computation it stands for: one machine that executes
instruction after instruction, and that a host call only changes where the host has something to say.
-/

namespace CuWasm

variable {H : Type} (m : HostModule) (f : FuncMeta) (host : HostFn H)

/-- The machine and the state of the host. -/
structure Flat (H : Type) where
  mach : Mach
  host : H

/-- The driver's view of a machine that has left its loop with the status `st`. -/
def Flat.left (x : Flat H) (st : Status) : CpuState H where
  st := x.mach.save st
  mb := x.mach.mb
  ar := x.mach.arrays
  host := x.host

/-- The machine after the host has answered: the results are pushed, the guest memory and the mailbox
are as the host has left them, and every other part is untouched. -/
def Flat.answered (x : Flat H) (c : CpuState H) : Flat H where
  mach := { x.mach with sp := c.st.sp, stack := c.ar.stack, mem := c.ar.mem, mb := c.mb }
  host := c.host

/-- One instruction, with the host call it may ask for. -/
def flatStep (x : Flat H) : (RunResult × HostModule × H) ⊕ Flat H :=
  match Run.step m.cpuViews m.dev x.mach with
  | .ok _ s => .inr { x with mach := s }
  | .error .hostcallPending s =>
    match hostCall m host 0 (Flat.left ⟨s, x.host⟩ .hostcallPending) with
    | .inl r => .inl r
    | .inr c => .inr (Flat.answered ⟨s, x.host⟩ c)
  | .error st s => .inl (finalResult m f 0 (Flat.left ⟨s, x.host⟩ st))

/-- The first `k` instructions, or what the run returns before. -/
def flatLoop : Nat → Flat H → Option (RunResult × HostModule × H)
  | 0, _ => none
  | k + 1, x =>
    match flatStep m f host x with
    | .inl r => some r
    | .inr x => flatLoop k x

/-- The machine in front of the first instruction of `f`. -/
def flatEntry (args : List Slot) (h : H) : Flat H where
  mach := (cpuEntry m f args CPU_FUEL h).mach m
  host := h

/-- Wherever `run_instance` has been left in the run from `c0` and the computation is not over, the
registers that the next call starts with are those that the last one was left with. -/
def Seamless (maxSteps : Nat) (c0 : CpuState H) : Prop :=
  ∀ c, CpuRuns m f host maxSteps c0 c → c.st.status ∈ [.running, .hostcallPending] →
    c.mach m = Mach.load c.st c.st.memSize c.mb c.ar

end CuWasm
