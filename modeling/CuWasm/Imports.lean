import CuWasm.Frames
import CuWasm.Traps

/-!
# The ways to an import

An imported function has an index like every other function but no code: its `FuncMeta` is a
placeholder with the offset 0 and the length 0. `call` is rewritten to `OP_CALL_HOST` when the index
is that of an import. The other ways to a function are a tail call, a slot of the table, and an export
that is handed to `run_cpu`.
-/

namespace CuWasm

open Wasm

/-- How a function is invoked. -/
inductive Way where
  | call | returnCall | callIndirect | entry
  deriving DecidableEq, Repr

namespace Wasm.Module

variable (M : Module)

/-- The type of the function `i`. -/
def funcType (i : Nat) : Option FuncType := M.funcTypeidx[i]?.bind fun t => M.funcTypes[t]?

/-- The pass over the code entry `k` comes to the operator `o` when the code ends at `p`. -/
def ComesTo (k : Nat) (o : Operator) (p : Nat) : Prop :=
  ∃ c ft s pre post st, M.EntryAt k c ft s ∧ c.body.function = pre ++ o :: post ∧
    Lower.operators (entryEnv s ft c) pre (entryStart s ft) = .ok () st ∧ p = st.code.length

/-- `lower_operators` succeeds on the code entry `k`. -/
def Lowers (k : Nat) : Prop :=
  ∃ c ft s f code consts, M.EntryAt k c ft s ∧
    lowerOperators s.lowerModule c.body.function (ft.1.length % 2 ^ 16) (ft.2.length % 2 ^ 16)
      (c.locals.map (·.1)).sum s.code s.consts = (.ok f, code, consts)

end Wasm.Module

section Invoked

variable (v : Views) (m : HostModule)

/-- The next instruction is an `OP_CALL_INDIRECT`, and the slot it reads holds the function `fi`, of
the type that is asked for. -/
def Selects (s : Mach) (fi : Nat) : Prop :=
  ∃ i want tidx, m.code[s.pc]? = some i ∧ i.op = .callIndirect ∧
    m.table[(u32 (s.stack (v.stack.idx (dec32 s.sp)))).toNat]? = some fi ∧
    m.typeFp[i.b]? = some want ∧ m.funcTypeidx[fi]? = some tidx ∧ m.typeFp[tidx]? = some want

/-- The next instruction does not call an import through the table. -/
def OffImports (s : Mach) : Prop := ∀ fi, Selects v m s fi → m.nHostImports ≤ fi

/-- The machine gets to `s` from the entry of a defined function without having called an import
through the table. -/
def Reaches (s : Mach) : Prop :=
  ∃ k e args fuel, m.nHostImports ≤ k ∧ m.funcs[k]? = some e ∧
    Runs m.cpuViews m (OffImports m.cpuViews m) ((cpuEntry m e args fuel ()).mach m) s

/-- The `n` slots below `top`. -/
def argsBelow (s : Mach) (top n : Nat) : List Slot :=
  (List.range n).map fun j => s.stack (v.stack.idx (top - n + j))

/-- The function `i` of type `ft` is invoked with `args`, and what the machine makes of it. Because of
a tail call to an import its function is replaced by a stub, which stands where the pass has come to.
`run_cpu` makes a frame for the function it is given and goes on as running. -/
inductive Invoked (M : Module) (i : Nat) (ft : FuncType) :
    Way → List Slot → EStateM.Result Status Mach Unit → Prop where
  | call {k : Nat} {s : Mach} (hs : Reaches m s) (hk : M.Lowers k) (hp : M.ComesTo k (.call i) s.pc) :
      Invoked M i ft .call (argsBelow m.cpuViews s s.sp ft.1.length) (Run.step m.cpuViews m.dev s)
  | returnCall {k : Nat} {s : Mach} (hs : Reaches m s) (hp : M.ComesTo k (.returnCall i) s.pc) :
      Invoked M i ft .returnCall (argsBelow m.cpuViews s s.sp ft.1.length)
        (Run.step m.cpuViews m.dev s)
  | callIndirect {s : Mach} (hs : Reaches m s) (hp : Selects m.cpuViews m s i) :
      Invoked M i ft .callIndirect (argsBelow m.cpuViews s (s.sp - 1) ft.1.length)
        (Run.step m.cpuViews m.dev s)
  | entry {f : FuncMeta} {args : List Slot} {fuel : Int} (hf : m.funcs[i]? = some f)
      (hargs : args.length = f.nParams) :
      Invoked M i ft .entry args (.ok () ((cpuEntry m f args fuel ()).mach m))

/-- The machine suspends with the call of the import `i` in the mailbox, or stops with
`ST_UNSUPPORTED_OP`. -/
def AsHostCall (i : Nat) (args : List Slot) (r : EStateM.Result Status Mach Unit) : Prop :=
  (∃ t, r = .error .hostcallPending t ∧ m.hostFnId[i]? = some t.mb.fnId ∧
    (List.range t.mb.nArgs).map t.mb.args = args) ∨
  ∃ t, r = .error .unsupportedOp t

end Invoked

end CuWasm
