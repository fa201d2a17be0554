import CuWasm.Wasm.Semantics

/-!
# Tail calls written as calls

The sequence `call fi; return` does what `return_call fi` does, but keeps its frame. `Untailed` relates a
body to the bodies that arise when some of its tail calls are written so.
-/

namespace CuWasm.Wasm

/-- The second body is the first one, where some tail calls are calls with a return behind them. -/
inductive Untailed : Body → Body → Prop where
  | nil : Untailed .nil .nil
  | op {o : Operator} {b b' : Body} (h : Untailed b b') : Untailed (.op o b) (.op o b')
  | tail {fi : Nat} {b b' : Body} (h : Untailed b b') :
      Untailed (.op (.returnCall fi) b) (.op (.call fi) (.op .return_ b'))
  | block {bt : BlockType} {i i' b b' : Body} (hi : Untailed i i') (h : Untailed b b') :
      Untailed (.block bt i b) (.block bt i' b')
  | loop {bt : BlockType} {i i' b b' : Body} (hi : Untailed i i') (h : Untailed b b') :
      Untailed (.loop bt i b) (.loop bt i' b')
  | ifThen {bt : BlockType} {i i' b b' : Body} (hi : Untailed i i') (h : Untailed b b') :
      Untailed (.ifThen bt i b) (.ifThen bt i' b')
  | ifElse {bt : BlockType} {i i' e e' b b' : Body} (hi : Untailed i i') (he : Untailed e e')
      (h : Untailed b b') : Untailed (.ifElse bt i e b) (.ifElse bt i' e' b')

/-- The same of functions. -/
structure Func.Untailed (c c' : Func) : Prop where
  locals : c'.locals = c.locals
  body : Wasm.Untailed c.body c'.body

/-- The same of modules: nothing but the code differs. -/
structure Module.Untailed (M M' : Module) : Prop where
  same : M' = { M with code := M'.code }
  code : List.Forall₂ Func.Untailed M.code M'.code

section Execution

variable {H : Type}

/-- The outcomes that end a function, calls aside. -/
def Outcome.ends : Outcome H → Bool
  | .ret .. | .trap .. | .refused _ | .wrong => true
  | _ => false

/-- The instance with other code. -/
def Instance.withCode (I : Instance H) (code : List Func) : Instance H := { I with code := code }

/-- An outcome `o'` of a body in which tail calls are calls is that of the body, or it is what comes of a
tail call of the body. -/
def Instance.Matches (I : Instance H) (call : Nat → List Nat → Store H → Option (Result H)) (nr : Nat)
    (o o' : Option (Outcome H)) : Prop :=
  ∀ w, o' = some w → o = some .wrong ∨ o = some w ∨ w.ends = true ∧ ∃ fi xs s,
    o = some (.tail fi xs s) ∧ (I.finish call nr (.tail fi xs s) = some .wrong ∨
      I.finish call nr (.tail fi xs s) = I.finish call nr w)

end Execution

end CuWasm.Wasm
