import CuWasm.Jumps
import CuWasm.PanicFree

/-!
# The bodies of a module

`translate_wasm` calls `lower_operators` once for every entry of the code section it comes to, whatever
the other sections are. A `Pass` holds the arguments of such a call.
-/

namespace CuWasm

open Wasm

namespace Translate

/-- The arguments of a call of `lower_operators`: the state of the translator, the type of the
function, its number of declared locals and its operators. -/
structure Pass where
  state : TState
  type : FuncType
  nLocals : Nat
  ops : List Operator

namespace Pass

variable (p : Pass)

/-- The environment of the pass. -/
def env : LowerEnv :=
  lowerEnv p.state.lowerModule p.ops (p.type.1.length % 2 ^ 16) (p.type.2.length % 2 ^ 16) p.nLocals

/-- The state in which the pass begins. -/
def start : LState where
  code := p.state.code
  consts := p.state.consts
  h := 0
  dead := false
  ctrl := [funcCtrl p.state.code.length (p.type.2.length % 2 ^ 16)]

/-- What `lower_operators` returns, with the code and the constants it leaves. -/
def result : Except String FuncMeta × List CuOp × List Slot :=
  lowerOperators p.state.lowerModule p.ops (p.type.1.length % 2 ^ 16) (p.type.2.length % 2 ^ 16)
    p.nLocals p.state.code p.state.consts

/-- The pass succeeds and yields the function `f`. -/
def Yields (f : FuncMeta) : Prop := p.result.1 = .ok f

end Pass

/-- `translate_wasm` makes the call `p` in the course of the translation. -/
def Makes (payloads : List (Parsed Payload)) (p : Pass) : Prop :=
  ∃ pre body post, payloads = pre ++ .ok (.codeSectionEntry body) :: post ∧
    each "parse" payload pre {} = .ok p.state ∧
    Checked.bodyArgs p.state body = .ok (p.type, p.nLocals, p.ops)

end Translate

end CuWasm
