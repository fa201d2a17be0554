import CuWasm.Proofs.LowerProofs
import CuWasm.Translate

/-!
# Which functions `translate_wasm` lowers

A valid supported function is lowered, and not replaced by the trapping stub, exactly when the
branches in the else arms of its dead `if`s fit the height that is counted anew there.
-/

namespace CuWasm

open Wasm Structured

namespace Translate

/-- `lower_operators` succeeds on the body, and the function it returns is the one that is added. -/
def Lowered (s : TState) (ft : FuncType) (nLocals : Nat) (ops : List Operator) : Prop :=
  ∃ f code consts,
    lowerOperators s.lowerModule ops (ft.1.length % 2 ^ 16) (ft.2.length % 2 ^ 16) nLocals s.code
      s.consts = (.ok f, code, consts) ∧
    lowerBody s ft nLocals ops = { s with code := code, consts := consts, funcs := s.funcs ++ [f] }

/-- The sections read so far are those of the validation context of a function of type `ft`. -/
structure Reads (s : TState) (C : Ctx) (ft : FuncType) : Prop where
  types : s.funcTypes = C.types
  funcs : s.funcTypeidx = C.funcs
  func : ft ∈ C.types
  results : C.results = ft.2
  small : ∀ ft ∈ C.types, ft.1.length < 2 ^ 16 ∧ ft.2.length < 2 ^ 16

theorem Reads.describes {s : TState} {C : Ctx} {ft : FuncType} (h : Reads s C ft)
    (ops : List Operator) (nLocals : Nat) :
    Describes (lowerEnv s.lowerModule ops (ft.1.length % 2 ^ 16) (ft.2.length % 2 ^ 16) nLocals) C where
  types := h.types
  funcs := h.funcs
  results := by
    rw [h.results]
    exact Nat.mod_eq_of_lt (h.small ft h.func).2
  hostIds := rfl
  small := h.small

theorem lowered_iff_function {s : TState} {ft : FuncType} {nLocals : Nat} {b : Body} (hb : b.Plain) :
    Lowered s ft nLocals b.function ↔
      ∃ is consts, function (lowerEnv s.lowerModule b.function (ft.1.length % 2 ^ 16)
        (ft.2.length % 2 ^ 16) nLocals) s.code.length s.consts b = some (is, consts) := by
  have h := lowerOperators_function s.lowerModule b hb (ft.1.length % 2 ^ 16) (ft.2.length % 2 ^ 16)
    nLocals s.code s.consts
  cases hf : function (lowerEnv s.lowerModule b.function (ft.1.length % 2 ^ 16)
      (ft.2.length % 2 ^ 16) nLocals) s.code.length s.consts b with
  | none =>
    rw [hf] at h
    obtain ⟨e, code', consts', he⟩ := h
    refine ⟨?_, fun ⟨_, _, h⟩ => by cases h⟩
    rintro ⟨f, code, consts, hok, -⟩
    rw [he] at hok
    cases hok
  | some p =>
    rw [hf] at h
    refine ⟨fun _ => ⟨p.1, p.2, rfl⟩, fun _ => ⟨_, _, _, h, ?_⟩⟩
    unfold lowerBody
    simp only [h]

/-- A valid supported function is lowered if and only if its body is `Contained`. -/
theorem lowered_iff_contained {s : TState} {C : Ctx} {ft : FuncType} {nLocals : Nat} {b : Body}
    (hr : Reads s C ft) (hv : b.Valid C) (hs : b.Supported s.hostFnIds.length)
    (hm : C.memories ≤ 1) (ht : C.tables ≤ 1) :
    Lowered s ft nLocals b.function ↔ b.Contained C [ft.2.length] false (some 0) := by
  rw [lowered_iff_function (typed_plain hv)]
  set env := lowerEnv s.lowerModule b.function (ft.1.length % 2 ^ 16) (ft.2.length % 2 ^ 16) nLocals
    with henv
  have hres : env.nResults = ft.2.length := Nat.mod_eq_of_lt (hr.small ft hr.func).2
  have hscr : ∀ o ∈ b.flatten, o.isBrTable = true → env.scratch.isSome = true := by
    intro o ho hbt
    have hany : b.function.any Operator.isBrTable = true :=
      List.any_eq_true.mpr ⟨o, List.mem_append_left _ ho, hbt⟩
    simp only [henv, lowerEnv, scratchIndex, hany, if_true, Option.isSome_some]
  have hiff : (∃ is st', body env [⟨none, 0, ft.2.length⟩] false ⟨s.code.length, s.consts, 0, false⟩ b =
      some (is, st')) ↔ b.Contained C ([⟨none, 0, ft.2.length⟩].map Label.need) false (some 0) :=
    body_some_iff (hr.describes b.function nLocals) hm ht b hv hs hscr
      ⟨by simp [hr.results], fun _ => rfl⟩ (fun _ _ l hl => by rw [List.mem_singleton.mp hl])
  rw [List.map_singleton, Label.need, Nat.zero_add] at hiff
  rw [← hiff]
  unfold function
  rw [hres]
  constructor
  · rintro ⟨is, consts, h⟩
    obtain ⟨p, hp, -⟩ := Option.map_eq_some_iff.mp h
    exact ⟨p.1, p.2, hp⟩
  · rintro ⟨is, st', h⟩
    rw [h]
    exact ⟨_, _, rfl⟩

/-- The context of a module with one function, of type `[] → []`, and nothing else. -/
def soleCtx : Ctx where
  types := [([], [])]
  funcs := [0]
  globals := []
  locals := []
  memories := 0
  tables := 0
  datas := 0
  results := []

/-- The translator in front of that function's body. -/
def soleState : TState := { funcTypes := [([], [])], funcTypeidx := [0] }

theorem soleState_reads : Reads soleState soleCtx ([], []) :=
  ⟨rfl, rfl, List.mem_singleton_self _, rfl, by simp [soleCtx]⟩

/-- A dead `if` whose else arm branches to its own end. -/
def tameArm : Body :=
  .block .empty (.op (.br 0) (.ifElse .empty .nil (.op (.br 0) .nil) .nil)) .nil

theorem tameArm_valid : tameArm.Valid soleCtx := by
  have h0 : ([[], []] : List (List ValType))[0]? = some [] := rfl
  have h1 : ([[], [], []] : List (List ValType))[0]? = some [] := rfl
  have hft : BlockType.expand soleCtx.types .empty = some ([], []) := rfl
  have hels : Typed soleCtx [[], [], []] false [] (.op (.br 0) .nil) [] := .br h1 .nil
  have hif : Typed soleCtx [[], []] false [.i32] (.ifElse .empty .nil (.op (.br 0) .nil) .nil) [] :=
    .ifElse hft .nil hels .nil
  have hbr : Typed soleCtx [[], []] true []
      (.op (.br 0) (.ifElse .empty .nil (.op (.br 0) .nil) .nil)) [] := .br h0 hif
  exact .block hft hbr .nil

theorem tameArm_lowered : Lowered soleState ([], []) 0 tameArm.function :=
  (lowered_iff_contained soleState_reads tameArm_valid
    (by simp [tameArm, Body.Supported, Operator.supported, BlockType.supported])
    (by decide) (by decide)).mpr
    (by simp [tameArm, Body.Contained, Operator.height, Operator.transfers, BlockType.arity, below,
      BlockType.expand, Operator.targets, Operator.condition])

/-- A dead `if` whose else arm branches to a block that stands above an operand: tracking has
restarted from zero there, below the block. -/
def wildArm : Body :=
  .op (.const (.i32 7))
    (.block .empty (.op .unreachable (.ifElse .empty .nil (.op (.br 1) .nil) .nil)) (.op .drop .nil))

theorem wildArm_valid : wildArm.Valid soleCtx := by
  have h1 : ([[], [], []] : List (List ValType))[1]? = some [] := rfl
  have hft : BlockType.expand soleCtx.types .empty = some ([], []) := rfl
  have hels : Typed soleCtx [[], [], []] false [] (.op (.br 1) .nil) [] := .br h1 .nil
  have hif : Typed soleCtx [[], []] false [.i32] (.ifElse .empty .nil (.op (.br 1) .nil) .nil) [] :=
    .ifElse hft .nil hels .nil
  have hin : Typed soleCtx [[], []] true []
      (.op .unreachable (.ifElse .empty .nil (.op (.br 1) .nil) .nil)) [] := .unreachable hif
  have hdrop : Typed soleCtx [[]] true [.i32] (.op .drop .nil) [] := .op (.drop .i32) .nil
  exact .op (.const (.i32 7)) (.block hft hin hdrop)

/-- Valid supported functions that are replaced by the stub exist. -/
theorem wildArm_not_lowered :
    ¬ ∀ (s : TState) (C : Ctx) (ft : FuncType) (nLocals : Nat) (b : Body), Reads s C ft → b.Valid C →
      b.Supported s.hostFnIds.length → C.memories ≤ 1 → C.tables ≤ 1 → nLocals ≤ 65534 →
      Lowered s ft nLocals b.function := by
  intro h
  have hlow := h soleState soleCtx ([], []) 0 wildArm soleState_reads wildArm_valid
    (by simp [wildArm, Body.Supported, Operator.supported, BlockType.supported]) (by decide)
    (by decide) (by decide)
  obtain ⟨is, consts, hsome⟩ := (lowered_iff_function (typed_plain wildArm_valid)).mp hlow
  have hnone : function (lowerEnv soleState.lowerModule wildArm.function 0 0 0) 0 [] wildArm = none :=
    rfl
  cases hnone.symm.trans hsome

end Translate

end CuWasm
