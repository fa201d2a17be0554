import CuWasm.Verify
import Mathlib.Order.Bounds.Basic

/-!
# The height discipline

What `verify_cuop` is meant to decide, said without a worklist: the instructions of a function that
are reachable from its first one can be given operand heights so that every instruction finds its
operands and all paths agree. Positions are program counters of the whole code here.

`Round`, `Rounds` and `Outcome` are the worklist with its order left open. `Decides` puts the two
together, and `NoOverflow` says when the C++ `int` does not get in the way.
-/

namespace CuWasm

/-- The program counters that can follow the instruction `i` at `pc`. -/
def nextPcs (i : CuOp) (pc : Nat) : List Nat :=
  match i.op with
  | .br => [i.b]
  | .brIfNot => [i.b, pc + 1]
  | .ret | .endFunc | .returnCall | .unreachable => []
  | _ => [pc + 1]

/-- The program counters that paths from the entry of `f` get to. -/
inductive PcReach (m : HostModule) (f : FuncMeta) : Nat → Prop where
  | entry : PcReach m f f.codeOff
  | step {pc pc' : Nat} {i : CuOp} (h : PcReach m f pc) (hi : m.code[pc]? = some i)
      (hn : pc' ∈ nextPcs i pc) : PcReach m f pc'

/-- The instruction `i` of `f` finds its operands at height `h` and leaves the height `h'`. -/
inductive Permits (m : HostModule) (f : FuncMeta) (i : CuOp) (h : Nat) : Nat → Prop where
  | plain {p q : Nat} (he : effect i = some (p, q)) (hp : p ≤ h) : Permits m f i h (h - p + q)
  | unwind {d : Nat} (hop : i.op = .unwind) (hb : i.b % 2 ^ 32 = f.nParams + f.nLocals + d)
      (hd : d ≤ h) : Permits m f i h d
  | br (hop : i.op = .br) : Permits m f i h h
  | brIfNot (hop : i.op = .brIfNot) (hp : 1 ≤ h) : Permits m f i h (h - 1)
  | call {g : FuncMeta} (hop : i.op = .call) (hg : m.funcs[i.b]? = some g) (hp : g.nParams ≤ h) :
      Permits m f i h (h - g.nParams + g.nResults)
  | returnCall {g : FuncMeta} (hop : i.op = .returnCall) (hg : m.funcs[i.b]? = some g)
      (hp : g.nParams ≤ h) : Permits m f i h h
  | leave (hop : i.op = .ret ∨ i.op = .endFunc) (hp : f.nResults ≤ h) : Permits m f i h h
  | unreachable (hop : i.op = .unreachable) : Permits m f i h h
  | callHost (hop : i.op = .callHost) (hp : i.a &&& 0xff ≤ h) :
      Permits m f i h (h - (i.a &&& 0xff) + ((i.a >>> 8) &&& 0xff))
  | callIndirect {fpv : Nat} (hop : i.op = .callIndirect) (hfp : m.typeFp[i.b]? = some fpv)
      (hp : 1 + (fpv &&& 0xff) ≤ h) :
      Permits m f i h (h - (1 + (fpv &&& 0xff)) + ((fpv >>> 8) &&& 0xff))

/-- The index of a local or a constant is in bounds. -/
def IndexBound (m : HostModule) (f : FuncMeta) (i : CuOp) : Prop :=
  match i.op with
  | .localGet | .localSet => i.a < f.nParams + f.nLocals
  | .i64Const => i.b < m.consts.length
  | _ => True

/-- The heights `G` obey the discipline at every reachable program counter of `f`. -/
structure HeightsObey (m : HostModule) (f : FuncMeta) (G : Nat → Nat) : Prop where
  entry : G f.codeOff = 0
  inside : ∀ pc, PcReach m f pc → f.codeOff ≤ pc ∧ pc < f.codeOff + f.codeLen
  permits : ∀ pc i, PcReach m f pc → m.code[pc]? = some i →
    ∃ h', Permits m f i (G pc) h' ∧ ∀ pc' ∈ nextPcs i pc, G pc' = h'
  index : ∀ pc i, PcReach m f pc → m.code[pc]? = some i → IndexBound m f i
  fits : ∀ pc, PcReach m f pc → f.nParams + f.nLocals + G pc ≤ 65535

namespace Verify

section Order

variable (int : Int → Int) (m : HostModule) (f : FuncMeta)

/-- A round of the worklist that takes any of the queued positions. -/
def Round (st : VState) (r : Except String VState) : Prop :=
  ∃ rel ∈ st.work, visit int m f rel { st with work := st.work.erase rel } = r

/-- `n` rounds from `st` that succeed, in some order. -/
inductive Rounds (st : VState) : Nat → VState → Prop where
  | zero : Rounds st 0 st
  | succ {n : Nat} {t u : VState} (h : Rounds st n t) (ht : Round int m f t (.ok u)) :
      Rounds st (n + 1) u

/-- What the worklist comes to from `st` in some order. -/
inductive Outcome (st : VState) : Except String VState → Prop where
  | done {n : Nat} {t : VState} (h : Rounds int m f st n t) (hw : t.work = []) : Outcome st (.ok t)
  | fail {n : Nat} {t : VState} {e : String} (h : Rounds int m f st n t)
      (ht : Round int m f t (.error e)) : Outcome st (.error e)

end Order

/-- Two outcomes of the worklist are failures, or agree in the heights they know and the greatest of
them. -/
def SameVerdict : Except String VState → Except String VState → Prop
  | .ok st, .ok st' => st'.maxH = st.maxH ∧
      ∀ rel, 0 ≤ st.height rel ∨ 0 ≤ st'.height rel → st'.height rel = st.height rel
  | .error _, .error _ => True
  | _, _ => False

/-- The pass over the function `f` of index `fi` decides the height discipline, in whatever order it
takes its positions, and what it finds is the solution. -/
structure Decides (int : Int → Int) (m : HostModule) (f : FuncMeta) (fi : Nat) : Prop where
  accepts : (∃ f', func int m fi f = .ok f') ↔ ∃ G, HeightsObey m f G
  outcome : Outcome int m f initial (analyse int m f)
  terminates : ∀ n st, Rounds int m f initial n st → n ≤ f.codeLen
  verdict : ∀ r, Outcome int m f initial r → SameVerdict (analyse int m f) r
  unique : ∀ G G', HeightsObey m f G → HeightsObey m f G' → ∀ pc, PcReach m f pc → G pc = G' pc
  found : ∀ G f', HeightsObey m f G → func int m fi f = .ok f' →
    ∃ st, analyse int m f = .ok st ∧ (∀ rel, 0 ≤ st.height rel ↔ PcReach m f (f.codeOff + rel)) ∧
      (∀ rel, PcReach m f (f.codeOff + rel) → st.height rel = G (f.codeOff + rel)) ∧
      f' = { f with maxStack := f'.maxStack } ∧
      IsGreatest {n | ∃ pc, PcReach m f pc ∧ n = f.nParams + f.nLocals + G pc} f'.maxStack

/-- No sum of the pass over `f` is too large for an `int`: the frame is not, at any height that an
instruction leaves behind, in whatever order the positions are taken. -/
def NoOverflow (m : HostModule) (f : FuncMeta) : Prop :=
  f.nParams + f.nLocals < 2 ^ 31 ∧
    ∀ n st rel fl, Rounds id m f initial n st → rel ∈ st.work →
      flow id m f (instrAt m f rel) (st.height rel) = .ok fl →
        f.nParams + f.nLocals + fl.nextH < 2 ^ 31

/-- No function's pass overflows. -/
def IntExact (m : HostModule) : Prop := ∀ f ∈ m.funcs, 0 < f.codeLen → NoOverflow m f

end Verify

end CuWasm
