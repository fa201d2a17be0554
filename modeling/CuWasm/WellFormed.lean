import CuWasm.Bodies

/-!
# Well-formed modules

The C side frees and indexes the arrays of a module by counts and offsets that it takes from other
arrays. `WellFormed` says that they fit together, and `Coherent` which sequences of payloads give such
a module: `translate_wasm` does not compare the sections, and no validator runs in front of it.
-/

namespace CuWasm

open Wasm Translate

/-- The instruction at `p` belongs to the function. -/
def FuncMeta.Owns (f : FuncMeta) (p : Nat) : Prop := f.codeOff ≤ p ∧ p < f.codeOff + f.codeLen

/-- The jump `i` at `q` of the function `f` has been patched, and its target is in the function. -/
structure Translate.Pass.Patched (p : Pass) (f : FuncMeta) (q : Nat) (i : CuOp) : Prop where
  target : f.Owns i.b
  patched : ¬ Lower.Forgotten p.env p.ops p.start q

/-- The arrays of the module `m` fit together. `memory` is an array of `memMax` bytes: nothing is ever
written behind them. -/
structure WellFormed (payloads : List (Parsed Payload)) (m : HostModule) : Prop where
  typeidx : m.funcTypeidx.length = m.funcs.length
  range : ∀ f ∈ m.funcs, f.codeOff + f.codeLen ≤ m.code.length
  disjoint : ∀ (j k : Nat) f g, m.funcs[j]? = some f → m.funcs[k]? = some g → j ≠ k →
    ∀ p, f.Owns p → ¬ g.Owns p
  jumps : ∀ p f, Makes payloads p → p.Yields f → ∀ q i, f.Owns q → m.code[q]? = some i →
    i.IsJump → p.Patched f q i
  exports : ∀ e ∈ m.exports, e.2 < m.funcs.length
  dataOff : m.dataOff.length = m.dataLive.length
  dataLen : m.dataLen.length = m.dataLive.length
  slices : ∀ (k : Nat) off len, m.dataOff[k]? = some off → m.dataLen[k]? = some len →
    off + len ≤ m.dataBlob.length
  memory : ∀ a, m.memMax ≤ a → m.memory a = 0
  memSize : m.memSize ≤ m.memMax

/-! ## What the payloads say -/

/-- The index of a function export. -/
def exportIndex : Parsed Export → Option Nat
  | .ok ex => if ex.isFunc then some ex.index else none
  | .error _ => none

/-- The indices of the function exports in a payload. -/
def payloadExportIndices : Parsed Payload → List Nat
  | .ok (.exportSection exs) => exs.filterMap exportIndex
  | _ => []

/-- The indices of all function exports. -/
def exportIndices (payloads : List (Parsed Payload)) : List Nat :=
  payloads.flatMap payloadExportIndices

/-- The number of functions a payload adds to the index space: imports and bodies. -/
def payloadFunctions : Parsed Payload → Nat
  | .ok (.importSection imps) => imps.length
  | .ok (.codeSectionEntry _) => 1
  | _ => 0

/-- The number of functions that are imported or have a body. -/
def functions (payloads : List (Parsed Payload)) : Nat := (payloads.map payloadFunctions).sum

/-- As many functions are declared as have a body, the exported ones exist, and every body that is
lowered is settled. -/
structure Coherent (payloads : List (Parsed Payload)) : Prop where
  counts : Checked.declared payloads = Checked.defined payloads
  exports : ∀ k ∈ exportIndices payloads, k < functions payloads
  bodies : ∀ p f, Makes payloads p → p.Yields f → Settled p.ops

end CuWasm
