import CuWasm.Structured
import CuWasm.Wasm.Module

/-!
# Operand types by position

Validation gives every point of a body a stack type. `Structured.sites` lists these types next to the
program counters at which the lowered code of the points starts. Points behind an unconditional branch
are left out: validation gives them any type, and nothing reaches them.
-/

namespace CuWasm

open Wasm

namespace Wasm

/-- The types of the values an operator pushes, top first; an operand that is passed on counts as not
taken. -/
def Operator.pushes (C : Ctx) : Operator → List ValType
  | .const c => [c.type]
  | .num o => o.pushes
  | .globalGet i => (C.globals[i]?).toList.map (·.1)
  | .localGet i | .localTee i => (C.locals[i]?).toList
  | .call fi => ((C.funcType fi).map fun ft => ft.2.reverse).getD []
  | .callIndirect ti _ => ((C.types[ti]?).map fun ft => ft.2.reverse).getD []
  | .load o _ => [o.type]
  | .memorySize _ | .memoryGrow _ => [.i32]
  | .reinterpret r => [r.type.2]
  | _ => []

/-- The result types of a block, top first. -/
def BlockType.results (types : List FuncType) (bt : BlockType) : List ValType :=
  ((bt.expand types).map fun ft => ft.2.reverse).getD []

/-- The operand types behind an operator, for those in front of it. -/
def Operator.behind (C : Ctx) (ts : List ValType) (o : Operator) : List ValType :=
  match o with
  | .select | .typedSelect _ => ts.drop 2
  | o => o.pushes C ++ ts.drop (o.arity C).1

end Wasm

namespace Structured

/-- The positions of a sequence with the types of all operands of the function there, top first. The
pass reaches the sequence in the state `st` with the operand types `ts`. -/
def sites (env : LowerEnv) (C : Ctx) :
    List Label → State → List ValType → Body → List (Nat × List ValType)
  | _, st, ts, .nil => [(st.pc, ts)]
  | L, st, ts, .op o rest =>
    (st.pc, ts) ::
      match operator env L false o st with
      | some (_, st') => if st'.dead then [] else sites env C L st' (o.behind C ts) rest
      | none => []
  | L, st, ts, .block bt b rest =>
    let a := bt.arity C.types
    let base := st.h - a.1
    let L' := ⟨none, base, a.2⟩ :: L
    match body env L' false st b with
    | some (_, stb) =>
      sites env C L' st ts b ++
        sites env C L (st.leave base a.2 stb) (bt.results C.types ++ ts.drop a.1) rest
    | none => []
  | L, st, ts, .loop bt b rest =>
    let a := bt.arity C.types
    let base := st.h - a.1
    let L' := ⟨some st.pc, base, a.1⟩ :: L
    match body env L' false st b with
    | some (_, stb) =>
      sites env C L' st ts b ++
        sites env C L (st.leave base a.2 stb) (bt.results C.types ++ ts.drop a.1) rest
    | none => []
  | L, st, ts, .ifThen bt b rest =>
    let a := bt.arity C.types
    let base := st.h - 1 - a.1
    let L' := ⟨none, base, a.2⟩ :: L
    let st0 : State := { st with pc := st.pc + 1, h := st.h - 1 }
    match body env L' false st0 b with
    | some (_, stb) =>
      (st.pc, ts) :: (sites env C L' st0 (ts.drop 1) b ++
        sites env C L (st.leave base a.2 stb) (bt.results C.types ++ ts.drop (1 + a.1)) rest)
    | none => []
  | L, st, ts, .ifElse bt b els rest =>
    let a := bt.arity C.types
    let base := st.h - 1 - a.1
    let L' := ⟨none, base, a.2⟩ :: L
    let st0 : State := { st with pc := st.pc + 1, h := st.h - 1 }
    match body env L' false st0 b with
    | some (_, stb) =>
      let st1 : State := { stb with pc := stb.pc + 1, h := base + a.1, dead := false }
      match body env L' false st1 els with
      | some (_, ste) =>
        (st.pc, ts) :: (sites env C L' st0 (ts.drop 1) b ++ (sites env C L' st1 (ts.drop 1) els ++
          sites env C L (st.leave base a.2 ste) (bt.results C.types ++ ts.drop (1 + a.1)) rest))
      | none => []
    | none => []

end Structured

/-- The environment in which the code entry `c` of type `ft` is lowered. -/
def bodyEnv (s : Translate.TState) (ft : FuncType) (c : Func) : LowerEnv :=
  lowerEnv s.lowerModule c.body.function ft.1.length ft.2.length (c.locals.map (·.1)).sum

/-- The positions in the code of the function that the code entry `k` defines, with the types of the
operands there; nothing if the function is not lowered. -/
def Wasm.Module.operandTypes (M : Module) (k : Nat) : List (Nat × List ValType) :=
  match M.before k, M.codeType k, M.code[k]? with
  | .ok s, some ft, some c =>
    match Structured.function (bodyEnv s ft c) s.code.length s.consts c.body with
    | some (is, _) =>
      Structured.sites (bodyEnv s ft c) (M.ctx ft c) [⟨none, 0, ft.2.length⟩]
          ⟨s.code.length, s.consts, 0, false⟩ [] c.body ++
        [(s.code.length + (is.length - 1), ft.2.reverse)]
    | none => []
  | _, _, _ => []

end CuWasm
