import CuWasm.Wasm.Semantics

/-!
# What a valid module cannot do

In an instance of a valid module a rule applies at every step: no outcome is wrong. A value is the
number of its bits, so that all that counts of the types is how many operands, locals and globals there
are.
-/

namespace CuWasm.Wasm

/-- The operators that the semantics has a rule for. -/
def Operator.hasRule : Operator → Bool
  | .refFunc _ | .refNull | .other _ => false
  | _ => true

/-- Every operator of the sequence has a rule. -/
def Body.hasRules : Body → Bool
  | .nil => true
  | .op o rest => o.hasRule && rest.hasRules
  | .block _ b rest | .loop _ b rest | .ifThen _ b rest => b.hasRules && rest.hasRules
  | .ifElse _ b els rest => b.hasRules && els.hasRules && rest.hasRules

section Fits

variable {H : Type}

/-- There is a value for every local and every global. -/
def Ctx.Holds (C : Ctx) (ls : List Nat) (s : Store H) : Prop :=
  ls.length = C.locals.length ∧ s.globals.length = C.globals.length

/-- The outcome of a sequence with `nr` results under the labels `L`. -/
def Outcome.Fits (C : Ctx) (L : List (List ValType)) (nr : Nat) : Outcome H → Prop
  | .next xs ls s => xs.length = nr ∧ C.Holds ls s
  | .br k xs ls s => ∃ lt, L[k]? = some lt ∧ lt.length ≤ xs.length ∧ C.Holds ls s
  | .ret xs s => C.results.length ≤ xs.length ∧ s.globals.length = C.globals.length
  | .tail fi xs s => ∃ ti ft, C.funcs[fi]? = some ti ∧ C.types[ti]? = some ft ∧
      ft.2 = C.results ∧ ft.1.length ≤ xs.length ∧ s.globals.length = C.globals.length
  | .trap _ s | .refused s => s.globals.length = C.globals.length
  | .wrong => False

/-- The result of a call in a module with `ng` globals, of a function with `nr` results. -/
def Result.Fits (ng nr : Nat) : Result H → Prop
  | .values ys s => ys.length = nr ∧ s.globals.length = ng
  | .trap _ s | .refused s => s.globals.length = ng
  | .wrong => False

/-- `I` is an instance of the module `M`, whose functions are valid and consist of operators with a rule.
The host answers with as many values as the type of an import says. -/
structure Instance.Instantiates (I : Instance H) (M : Module) : Prop where
  types : I.types = M.funcTypes
  funcs : I.funcs = M.funcTypeidx
  datas : I.datas.length = M.datas.length
  host : ∀ fi ft h args mem ys, I.funcType fi = some ft → fi < I.nImports →
    (I.host h fi args mem).results = some ys → ys.length = ft.2.length
  func : ∀ fi ft, I.nImports ≤ fi → I.funcType fi = some ft →
    ∃ c, I.code[fi - I.nImports]? = some c ∧ c.body.Valid (M.ctx ft c) ∧ c.body.hasRules = true

/-- Every call with the right number of arguments has a fitting result. -/
def Instance.CallsFit (I : Instance H) (ng : Nat)
    (call : Nat → List Nat → Store H → Option (Result H)) : Prop :=
  ∀ ⦃fi ft args s res⦄, I.funcType fi = some ft → args.length = ft.1.length → s.globals.length = ng →
    call fi args s = some res → res.Fits ng ft.2.length

/-- Every valid sequence with the right number of operands has a fitting outcome. -/
def Instance.BodiesFit (M : Module) (run : Body → List Nat → List Nat → Store H → Option (Outcome H)) :
    Prop :=
  ∀ ⦃ft c L r ts b us xs ls s o⦄, Typed (M.ctx ft c) L r ts b us → b.hasRules = true →
    xs.length = ts.length → (M.ctx ft c).Holds ls s → run b xs ls s = some o →
    o.Fits (M.ctx ft c) L us.length

end Fits

end CuWasm.Wasm
