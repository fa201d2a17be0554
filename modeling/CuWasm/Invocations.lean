import CuWasm.Embed
import CuWasm.Meaning
import CuWasm.Wasm.Soundness

/-!
# Invocations of one module

An embedder loads a module once and invokes its functions one after another; every run goes on with the
globals, the memory and the live flags that the last one has left. `Requests` are the calls as
`run_cpu` answers them, `Serves` says that the answers are those of the instance.
-/

namespace CuWasm

open Wasm

/-- An argument list as `run_cpu` takes it. -/
def slotsOf (args : List Nat) : List Slot := args.map (BitVec.ofNat 64)

/-- A call of the function `fi`. -/
structure Request where
  fi : Nat
  args : List Nat

section Requests

variable {H : Type}

/-- What runs leave alone: everything but the globals, the memory and the live flags, of which there are
as many as before. The memory does not shrink. -/
structure KeptModule (m m' : HostModule) : Prop where
  same : m' = { m with
    globals := m'.globals, memory := m'.memory, dataLive := m'.dataLive, memSize := m'.memSize }
  globals : m'.globals.length = m.globals.length
  dataLive : m'.dataLive.length = m.dataLive.length
  memSize : m.memSize ≤ m'.memSize

/-- Host functions answer with as many results as the type of the import says. -/
def AnswersTyped (M : Module) (m : HostModule) (host : HostFn H) : Prop :=
  ∀ fi ft h args mem n results, M.funcType fi = some ft → fi < M.imports.length →
    (host h (m.hostFnId.getD fi 0) args mem).reply = .ok (n, results) → n = ft.2.length

/-- The module `m0` has been loaded from `M`, runs have left `m` of it, and the host answers as the types
of the imports say and writes nothing behind the memory. -/
structure Hosted (M : Module) (ps : List (Parsed Payload)) (segs : List DataSegment) (m0 m : HostModule)
    (host : HostFn H) : Prop where
  translates : Translates M ps segs m0
  runs : RunsLeave m0 m
  keepsOff : KeepsOff m0 host
  answers : AnswersTyped M m0 host

/-- The call is one of a defined function with as many arguments as its type says, its frame fits on the
stack, and no `memory.grow` takes effect in a `run_instance` call that is interrupted. -/
structure ProperRequest (M : Module) (m : HostModule) (host : HostFn H) (maxSteps : Nat) (h : H)
    (c : Request) : Prop where
  defined : M.imports.length ≤ c.fi
  typed : ∃ ft, M.funcType c.fi = some ft ∧ c.args.length = ft.1.length
  fits : ∀ e, m.funcs[c.fi]? = some e → e.nParams + e.nLocals ≤ STACK_CAP
  steady : ∀ e, m.funcs[c.fi]? = some e →
    NoGrowthBefore m e host maxSteps [.running, .hostcallPending]
      (cpuEntry m e (slotsOf c.args) CPU_FUEL h)

/-- The calls `cs` on the module `m`, one after another, are answered with `rs`. -/
inductive Requests (M : Module) (host : HostFn H) (maxSteps : Nat) :
    HostModule → H → List Request → List RunResult → Prop where
  | nil {m : HostModule} {h : H} : Requests M host maxSteps m h [] []
  | cons {m m1 : HostModule} {h h1 : H} {c : Request} {cs : List Request} {r : RunResult}
      {rs : List RunResult} {rounds : Nat} (hc : ProperRequest M m host maxSteps h c)
      (hr : runCpu m c.fi (slotsOf c.args) maxSteps host h rounds = some (r, m1, h1))
      (hrest : Requests M host maxSteps m1 h1 cs rs) :
      Requests M host maxSteps m h (c :: cs) (r :: rs)

/-- The answers `rs` to the calls `cs` are those of the instance with the store `s`. Nothing is said about
the answers behind a run that has met a limit or a host that has refused. -/
inductive Serves (I : Instance H) : Store H → List Request → List RunResult → Prop where
  | nil {s : Store H} : Serves I s [] []
  | values {s s1 : Store H} {c : Request} {cs : List Request} {r : RunResult}
      {rs : List RunResult} {n : Nat} {ys : List Nat}
      (hres : (I.eval n).call c.fi c.args s = some (.values ys s1)) (hst : r.status = .ok)
      (hys : r.results = slotsOf ys) (hrest : Serves I s1 cs rs) :
      Serves I s (c :: cs) (r :: rs)
  | trap {s s1 : Store H} {c : Request} {cs : List Request} {r : RunResult}
      {rs : List RunResult} {n : Nat} {t : Fault}
      (hres : (I.eval n).call c.fi c.args s = some (.trap t s1))
      (hst : r.status = faultStatus t) (hrest : Serves I s1 cs rs) : Serves I s (c :: cs) (r :: rs)
  | refused {s s1 : Store H} {c : Request} {cs : List Request} {r : RunResult}
      {rs : List RunResult} {n : Nat} (hres : (I.eval n).call c.fi c.args s = some (.refused s1))
      (hst : r.status = .unsupportedOp) : Serves I s (c :: cs) (r :: rs)
  | limit {s : Store H} {c : Request} {cs : List Request} {r : RunResult} {rs : List RunResult}
      (hst : r.status.isLimit = true) : Serves I s (c :: cs) (r :: rs)

end Requests

end CuWasm
