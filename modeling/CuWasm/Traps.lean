import CuWasm.Embed
import CuWasm.Wasm.Module

/-!
# Where an unreachable trap comes from

A function that `lower_operators` cannot lower is replaced by a stub, so `OP_UNREACHABLE` stands in a
translated module for two things: an `unreachable` of the source program, and a function that is not
supported. `Reported` says that a run never shows the second as the first.
-/

namespace CuWasm

open Wasm

namespace Wasm.Module

variable (M : Module)

/-- The environment in which the translator lowers the function `c` of type `ft`. -/
def entryEnv (s : Translate.TState) (ft : FuncType) (c : Func) : LowerEnv :=
  lowerEnv s.lowerModule c.body.function (ft.1.length % 2 ^ 16) (ft.2.length % 2 ^ 16)
    (c.locals.map (·.1)).sum

/-- The state in which that pass begins. -/
def entryStart (s : Translate.TState) (ft : FuncType) : LState where
  code := s.code
  consts := s.consts
  h := 0
  dead := false
  ctrl := [funcCtrl s.code.length (ft.2.length % 2 ^ 16)]

/-- The code entry `k` with its type, and the state of the translator in front of it. -/
structure EntryAt (k : Nat) (c : Func) (ft : FuncType) (s : Translate.TState) : Prop where
  code : M.code[k]? = some c
  type : M.codeType k = some ft
  before : M.before k = .ok s

/-- The instruction at `p` was lowered from an `unreachable` of the module: there stood the end of the
code when the pass came to it. -/
def FromSource (p : Nat) : Prop :=
  ∃ k c ft s pre post st, M.EntryAt k c ft s ∧ c.body.function = pre ++ .unreachable :: post ∧
    Lower.operators (entryEnv s ft c) pre (entryStart s ft) = .ok () st ∧ p = st.code.length

/-- `lower_operators` fails on the code entry `k` and leaves `code` behind. -/
def FailsWith (k : Nat) (code : List CuOp) : Prop :=
  ∃ c ft s e consts, M.EntryAt k c ft s ∧
    lowerOperators s.lowerModule c.body.function (ft.1.length % 2 ^ 16) (ft.2.length % 2 ^ 16)
      (c.locals.map (·.1)).sum s.code s.consts = (.error e, code, consts)

/-- The position `p` of `m` is the entry of a function that could not be lowered. -/
def FailedEntry (m : HostModule) (p : Nat) : Prop :=
  ∃ k code g, M.FailsWith k code ∧ m.funcs[M.imports.length + k]? = some g ∧ g.codeOff = p

/-- The position `p` of `m` is the entry of a function with an operator that `lower_operators` has no
case for. -/
def UnsupportedEntry (m : HostModule) (p : Nat) : Prop :=
  ∃ k c g, M.code[k]? = some c ∧ (∃ o ∈ c.body.function, o.supported = false) ∧
    m.funcs[M.imports.length + k]? = some g ∧ g.codeOff = p

end Wasm.Module

section Runs

variable {H : Type} (m : HostModule) (f : FuncMeta) (host : HostFn H) (maxSteps : Nat)

/-- In the run of the driver from `c0`, the machine fetches an instruction in the state `s`. -/
def Visits (c0 : CpuState H) (s : Mach) : Prop :=
  ∃ c c' k, CpuRuns m f host maxSteps c0 c ∧ cpuResume m host maxSteps c = .inr c' ∧
    c'.st.status = .running ∧ k < maxSteps ∧ Exit.Steps (Run.step m.cpuViews m.dev) k (c'.mach m) s

/-- The run from `c0` ends with the status `st`. -/
def EndsWith (c0 : CpuState H) (st : Status) : Prop :=
  ∃ rounds r, cpuLoop m f host maxSteps rounds c0 = some r ∧ r.1.status = st

/-- In the run from `c0`, code that is not supported is reported as such, and an unreachable trap is
one of the source program. -/
structure Reported (M : Module) (c0 : CpuState H) : Prop where
  unsupported : ∀ s, Visits m f host maxSteps c0 s → M.UnsupportedEntry m s.pc →
    EndsWith m f host maxSteps c0 .unsupportedOp
  unreachable : EndsWith m f host maxSteps c0 .trapUnreachable →
    ∃ s i, Visits m f host maxSteps c0 s ∧ m.code[s.pc]? = some i ∧ i.op = .unreachable ∧
      M.FromSource s.pc

end Runs

end CuWasm
