import CuWasm.Bodies
import CuWasm.Discipline
import CuWasm.Frames
import CuWasm.Fuel
import CuWasm.Lib.Counters

/-!
# How long a run can last

Between two charges of fuel a run can go forward in the code, call, return and make tail calls. The
frames are bounded, so without tail calls that ends: the positions of the open activations are a stack
of counters, and all of these instructions make the stack lighter.

An `OP_BR_IF_NOT` is never charged. The bound holds where none leads back, and the code in front of a
stub, which a failed pass has left there, may have one. `Confines` names a part of the code that a run
cannot leave.
-/

namespace CuWasm

/-- The part `S` of the code is never left: not by going on, not by a call. No `OP_BR_IF_NOT` in it leads
back. -/
structure Confines (m : DevModule) (S : Nat → Prop) : Prop where
  next : ∀ p i q, S p → m.code[p]? = some i → q ∈ nextPcs i p → S q
  forward : ∀ p i, S p → m.code[p]? = some i → i.op = .brIfNot → p < i.b
  call : ∀ p i g, S p → m.code[p]? = some i → i.op = .call ∨ i.op = .returnCall →
    m.funcs[i.b]? = some g → S g.codeOff
  callIndirect : ∀ p i idx g, S p → m.code[p]? = some i → i.op = .callIndirect →
    Run.indirectTarget m i.b idx = some g → S g.codeOff

/-- Every body of the module is lowered: none is replaced by a stub. -/
def Translate.EveryBodyLowers (payloads : List (Parsed Payload)) : Prop :=
  ∀ p, Makes payloads p → ∃ f, p.Yields f

/-- The position `pc` is on a path from the entry of a function with code. -/
def HostModule.Reached (m : HostModule) (pc : Nat) : Prop :=
  ∃ f ∈ m.funcs, 0 < f.codeLen ∧ PcReach m f pc

/-- The longest that a run can go on without a charge: the greatest weight of a stack of counters. -/
def DevModule.span (m : DevModule) : Nat := (m.code.length + 1) ^ (FRAME_CAP + 1)

section Rank

variable (v : Views) (m : DevModule)

/-- The machine is about to take an `OP_BR_IF_NOT` to its own position or in front of it. -/
def FreeJump (s : Mach) : Prop :=
  ∃ i, m.code[s.pc]? = some i ∧ i.op = .brIfNot ∧
    u32 (s.stack (v.stack.idx (dec32 s.sp))) = 0 ∧ i.b ≤ s.pc

/-- The activations of the machine stand in the part `S` of the code. The frame of the entry has no
caller to return to. -/
structure Mach.Inside (S : Nat → Prop) (s : Mach) : Prop where
  pc : S s.pc
  callers : ∀ k, 0 < k → k < s.csp → S (s.frames (v.frames.idx k)).retPc
  depth : s.csp ≤ FRAME_CAP

/-- The code behind the position of every open activation, the oldest first. -/
def Mach.counters (s : Mach) : List Nat :=
  ((List.range s.csp).map fun k => m.code.length - (s.frames (v.frames.idx k)).retPc) ++
    [m.code.length - s.pc]

/-- How far the machine can get without a charge. -/
def Mach.rank (s : Mach) : Nat := Counters.weight (m.code.length + 1) FRAME_CAP (s.counters v m)

/-- How far it can get without a tail call: a span for every unit of fuel, and what is left of the
current one. -/
def Mach.budget (s : Mach) : Nat := s.fuel.toNat * m.span + s.rank v m

end Rank

/-- An instruction starts the count anew: it is charged, or it is a tail call. -/
def Renews (e : Nat × CuOp) : Prop := BackEdge e ∨ Hop e ∨ e.2.op = .returnCall

instance (e : Nat × CuOp) : Decidable (Renews e) := inferInstanceAs (Decidable (_ ∨ _ ∨ _))

/-- The number of tail calls a call of `run_instance` executes. -/
def Invocation.tailCalls (x : Invocation) (m : DevModule) : Nat :=
  (x.executed m).countP fun e => decide (e.2.op = .returnCall)

end CuWasm
