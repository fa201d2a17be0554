import CuWasm.Proofs.TranslateProofs

/-!
# Invariants of the translator

Whatever the payloads are, valid or not, `translate_wasm` changes its functions and its code in two
places only: an import adds a placeholder, a code entry adds what `lower_operators` has made of it. A
property of the translator's state that survives both holds of every translated module.
-/

namespace CuWasm

open Wasm

namespace Translate

/-- The property `P` of the translator's state survives every change of types, functions and code. -/
structure Survives (P : TState → Prop) : Prop where
  same : ∀ s s', SameFuncs s s' → P s → P s'
  types : ∀ (s : TState) fts, P s → P { s with funcTypes := s.funcTypes ++ fts }
  typeidx : ∀ (s : TState) i, P s → P { s with funcTypeidx := s.funcTypeidx ++ [i] }
  imports : ∀ s s' imp, P s → addImport s imp = .ok s' → P s'
  code : ∀ (s : TState) ft n ops, ft ∈ s.funcTypes → n ≤ 2 ^ 16 - 1 → P s →
    P (lowerBody s ft n ops)

section Survives

variable {P : TState → Prop} (hP : Survives P)

include hP

theorem Survives.addCode {s s' : TState} {body : FunctionBody} (hs : P s)
    (h : addCode s body = .ok s') : P s' := by
  unfold Translate.addCode at h
  split at h
  · cases h
  · split at h
    · cases h
    · rename_i ft hft
      obtain ⟨locals, -, h⟩ := Verify.bind_eq_ok h
      obtain ⟨n, -, h⟩ := Verify.bind_eq_ok h
      split_ifs at h with hbig
      · cases h
      · obtain ⟨ops, -, h⟩ := Verify.bind_eq_ok h
        obtain ⟨ops', -, h⟩ := Verify.bind_eq_ok h
        cases h
        exact hP.code s ft n ops' (List.mem_of_getElem? hft) (Nat.le_of_not_lt hbig) hs

theorem Survives.payload {s s' : TState} {p : Payload} (hs : P s) (h : payload s p = .ok s') :
    P s' := by
  cases p with
  | typeSection recs =>
    refine each_invariant (fun a tys b ha hb => ?_) hs h
    rw [addTypes_ok hb]
    exact hP.types a _ ha
  | functionSection idxs =>
    refine each_invariant (fun a i b ha hb => ?_) hs h
    cases hb
    exact hP.typeidx a i ha
  | importSection imps => exact each_invariant (fun a imp b ha hb => hP.imports a b imp ha hb) hs h
  | memorySection mems => exact hP.same s s' (each_sameFuncs (fun _ _ _ => addMemory_same) h) hs
  | tableSection tabs => exact hP.same s s' (each_sameFuncs (fun _ _ _ => addTable_same) h) hs
  | elementSection els => exact hP.same s s' (each_sameFuncs (fun _ _ _ => addElement_same) h) hs
  | dataSection segs => exact hP.same s s' (each_sameFuncs (fun _ _ _ => addData_same) h) hs
  | globalSection gs => exact hP.same s s' (each_sameFuncs (fun _ _ _ => addGlobal_same) h) hs
  | exportSection exs => exact hP.same s s' (each_sameFuncs (fun _ _ _ => addExport_same) h) hs
  | codeSectionEntry body => exact hP.addCode hs h
  | startSection => cases h
  | dataCountSection =>
    cases h
    exact hs
  | other =>
    cases h
    exact hs

/-- The state in which the payloads have been read has the property. -/
theorem Survives.loaded (h0 : P {}) {ps : List (Parsed Payload)} {m : HostModule}
    (h : loadWasm ps = .ok m) : ∃ s m', P s ∧ finish s = .ok m' ∧
      m = { m' with funcTypeidx := m'.funcTypeidx.take m'.funcs.length } := by
  unfold loadWasm translateWasm at h
  obtain ⟨m0, hm0, h⟩ := Verify.bind_eq_ok h
  obtain ⟨s, hs, hfin⟩ := Verify.bind_eq_ok hm0
  cases h
  exact ⟨s, m0, each_invariant (fun _ _ _ ha hb => hP.payload ha hb) h0 hs, hfin, rfl⟩

end Survives

/-- Every function has the counts of one of the types. -/
def Signed (s : TState) : Prop :=
  ∀ f ∈ s.funcs, ∃ ft ∈ s.funcTypes, f.nParams = ft.1.length % 2 ^ 16 ∧
    f.nResults = ft.2.length % 2 ^ 16

theorem Placed.counts {lm : LowerModule} {ft : FuncType} {n : Nat} {ops : List Operator}
    {code code' : List CuOp} {consts consts' : List Slot} {f : FuncMeta}
    (h : Placed lm ft n ops code consts f code' consts') :
    f.nParams = ft.1.length % 2 ^ 16 ∧ f.nResults = ft.2.length % 2 ^ 16 := by
  cases h with
  | lowered h =>
    rw [lowerOperators_meta h]
    exact ⟨rfl, rfl⟩
  | stub h hf hc =>
    rw [hf]
    exact ⟨rfl, rfl⟩

theorem signed_survives : Survives Signed where
  same := by
    intro s s' hsame hs f hf
    rw [hsame.funcs] at hf
    rw [hsame.funcTypes]
    exact hs f hf
  types := by
    intro s fts hs f hf
    obtain ⟨ft, hft, hc⟩ := hs f hf
    exact ⟨ft, List.mem_append_left _ hft, hc⟩
  typeidx := fun s i hs => hs
  imports := by
    intro s s' imp hs h f hf
    obtain ⟨t, ft, fnId, -, hft, -, htypes, -, -, -, -, hfuncs⟩ := addImport_ok h
    rw [htypes]
    rw [hfuncs] at hf
    rcases List.mem_append.mp hf with hf | hf
    · exact hs f hf
    · rw [List.mem_singleton.mp hf]
      exact ⟨ft, List.mem_of_getElem? hft, rfl, rfl⟩
  code := by
    intro s ft n ops hft _ hs f hf
    obtain ⟨g, code', consts', heq, hplaced⟩ := lowerBody_placed s ft n ops
    rw [heq] at hf ⊢
    rcases List.mem_append.mp hf with hf | hf
    · exact hs f hf
    · rw [List.mem_singleton.mp hf]
      exact ⟨ft, hft, hplaced.counts⟩

/-- The functions of a translated module have at most eight parameters and eight results. -/
theorem loaded_counts {ps : List (Parsed Payload)} {m : HostModule} (h : loadWasm ps = .ok m)
    {f : FuncMeta} (hf : f ∈ m.funcs) : f.nParams ≤ 8 ∧ f.nResults ≤ 8 := by
  obtain ⟨s, m', hs, hfin, rfl⟩ := signed_survives.loaded (fun f hf => by cases hf) h
  obtain ⟨hfp, -, -, hfuncs, -⟩ := finish_ok hfin
  obtain ⟨ft, hft, hp, hr⟩ := hs f (hfuncs ▸ hf)
  obtain ⟨k, hk⟩ := List.mem_iff_getElem?.mp hft
  obtain ⟨fp, -, hok⟩ := (fingerprints_ok hfp).2 k ft hk
  obtain ⟨h1, h2, -, -⟩ := typeFingerprint_ok hok
  have := Nat.mod_le ft.1.length (2 ^ 16)
  have := Nat.mod_le ft.2.length (2 ^ 16)
  omega

end Translate

end CuWasm
