import CuWasm.Proofs.HeightProofs
import CuWasm.Proofs.PassProofs
import CuWasm.Wasm.Module

/-!
# What `translate_wasm` makes of a module

The loop over the payloads is followed section by section: the sections in front of the code fill the
index spaces, every code entry adds one function whose code stays in place from then on, and the
sections behind it leave functions and code alone.
-/

namespace CuWasm

open Wasm

namespace Translate

/-! ## Readers -/

section Each

variable {σ α : Type} {what : String} {f : σ → α → Except String σ}

theorem each_cons_ok (a : α) (xs : List (Parsed α)) (s : σ) :
    each what f (.ok a :: xs) s = (f s a).bind fun s' => each what f xs s' := rfl

theorem each_append (xs ys : List (Parsed α)) (s : σ) :
    each what f (xs ++ ys) s = (each what f xs s).bind fun s' => each what f ys s' := by
  induction xs generalizing s with
  | nil => rfl
  | cons x xs ih =>
    cases x with
    | error e => rfl
    | ok a =>
      rw [List.cons_append, each_cons_ok, each_cons_ok]
      cases f s a with
      | error e => rfl
      | ok s' => exact ih s'

/-- A property that every item preserves holds behind the reader. -/
theorem each_invariant {P : σ → Prop} (hstep : ∀ s a s', P s → f s a = .ok s' → P s')
    {xs : List (Parsed α)} {s s' : σ} (hs : P s) (h : each what f xs s = .ok s') : P s' := by
  induction xs generalizing s with
  | nil =>
    cases h
    exact hs
  | cons x xs ih =>
    cases x with
    | error e => cases h
    | ok a =>
      obtain ⟨t, ht, h⟩ := Verify.bind_eq_ok h
      exact ih (hstep s a t hs ht) h

end Each

theorem collect_map_ok {α : Type} (what : String) (xs : List α) :
    collect what (xs.map .ok) = .ok xs := by
  have h : ∀ (ys acc : List α),
      each what (fun acc x => .ok (acc ++ [x])) (ys.map .ok) acc = .ok (acc ++ ys) := by
    intro ys
    induction ys with
    | nil => intro acc; rw [List.append_nil]; rfl
    | cons y ys ih =>
      intro acc
      rw [List.map_cons, each_cons_ok]
      refine (ih (acc ++ [y])).trans ?_
      rw [List.append_assoc]
      rfl
  exact h xs []

theorem countLocals_ok {groups : List (Nat × ValType)} {n : Nat}
    (h : countLocals (groups.map .ok) = .ok n) : n = (groups.map (·.1)).sum := by
  unfold countLocals at h
  suffices hacc : ∀ k, each "local" _ (groups.map .ok) k = .ok n → n = k + (groups.map (·.1)).sum by
    simpa using hacc 0 h
  clear h
  induction groups with
  | nil =>
    intro k h
    cases h
    simp
  | cons g groups ih =>
    intro k h
    rw [List.map_cons] at h
    obtain ⟨k', hk, h⟩ := Verify.bind_eq_ok h
    have hsum := ih k' h
    have hk' : k' = k + g.1 := by
      obtain ⟨cnt, ty⟩ := g
      cases ty <;> simp only at hk <;> first | (split at hk <;> cases hk; rfl) | cases hk
    rw [hsum, hk', List.map_cons, List.sum_cons, Nat.add_assoc]

/-! ## Payloads without content -/

theorem payload_trivial {p : Payload} (h : trivialPayload (.ok p) = true) (s : TState) :
    payload s p = .ok s := by
  unfold trivialPayload at h
  split at h <;> first | (cases h; done) | skip
  all_goals rename_i heq; cases heq; rfl

theorem each_filter (ps : List (Parsed Payload)) (s : TState) :
    each "parse" payload (ps.filter fun p => !trivialPayload p) s = each "parse" payload ps s := by
  induction ps generalizing s with
  | nil => rfl
  | cons p ps ih =>
    cases p with
    | error e => rfl
    | ok p =>
      cases hp : trivialPayload (.ok p) with
      | true =>
        rw [List.filter_cons_of_neg (by simp [hp]), each_cons_ok, payload_trivial hp]
        exact ih s
      | false =>
        rw [List.filter_cons_of_pos (by simp [hp]), each_cons_ok, each_cons_ok]
        simp only [ih]

/-- The translator sees only the payloads of the module. -/
theorem each_encodes {M : Module} {ps : List (Parsed Payload)} (h : Encodes M ps) (s : TState) :
    each "parse" payload ps s = each "parse" payload M.payloads s := by
  rw [← each_filter ps, ← each_filter M.payloads, h]

/-! ## The sections -/

/-- What the sections that describe neither types nor functions leave alone. -/
structure SameFuncs (s s' : TState) : Prop where
  funcTypes : s'.funcTypes = s.funcTypes
  funcTypeidx : s'.funcTypeidx = s.funcTypeidx
  hostFnIds : s'.hostFnIds = s.hostFnIds
  code : s'.code = s.code
  consts : s'.consts = s.consts
  funcs : s'.funcs = s.funcs

theorem SameFuncs.refl (s : TState) : SameFuncs s s := ⟨rfl, rfl, rfl, rfl, rfl, rfl⟩

theorem SameFuncs.trans {a b c : TState} (h : SameFuncs a b) (h' : SameFuncs b c) : SameFuncs a c :=
  ⟨h'.1.trans h.1, h'.2.trans h.2, h'.3.trans h.3, h'.4.trans h.4, h'.5.trans h.5, h'.6.trans h.6⟩

section Sections

variable {s s' : TState}

theorem each_sameFuncs {α : Type} {what : String} {f : TState → α → Except String TState}
    (hf : ∀ s a s', f s a = .ok s' → SameFuncs s s') {xs : List (Parsed α)}
    (h : each what f xs s = .ok s') : SameFuncs s s' :=
  each_invariant (P := SameFuncs s) (fun t a t' ht h => ht.trans (hf t a t' h)) (SameFuncs.refl s) h

/-! ### What one entry of a section changes -/

theorem addMemory_ok {mt : MemoryType} (h : addMemory s mt = .ok s') :
    s' = { s with memMin := mt.initial, memMaxPages := mt.maximum, hasMemory := true } := by
  unfold addMemory at h
  split_ifs at h
  cases h
  rfl

theorem addTable_ok {t : TableEntry} (h : addTable s t = .ok s') :
    s' = { s with table := List.replicate t.initial TABLE_NULL } := by
  unfold addTable at h
  split_ifs at h
  cases h
  rfl

theorem addElement_ok {el : Element} (h : addElement s el = .ok s') :
    ∃ e, s' = { s with pendingElem := s.pendingElem ++ [e] } := by
  unfold addElement at h
  dsimp only at h
  split at h
  · split_ifs at h
    · cases h
    · obtain ⟨off, -, h⟩ := Verify.bind_eq_ok h
      obtain ⟨idxs, -, h⟩ := Verify.bind_eq_ok h
      cases h
      exact ⟨_, rfl⟩
  · cases h
  · cases h

theorem addData_ok {d : Data} (h : addData s d = .ok s') :
    ∃ e, s' = { s with pendingData := s.pendingData ++ [e] } := by
  unfold addData at h
  split at h
  · split_ifs at h
    obtain ⟨off, -, h⟩ := Verify.bind_eq_ok h
    cases h
    exact ⟨_, rfl⟩
  · cases h
    exact ⟨_, rfl⟩

theorem addGlobal_ok {g : GlobalEntry} (h : addGlobal s g = .ok s') :
    ∃ x, s' = { s with globals := s.globals ++ [x] } := by
  unfold addGlobal at h
  split at h
  all_goals
    first
      | (obtain ⟨x, -, h⟩ := Verify.bind_eq_ok h
         cases h
         exact ⟨x, rfl⟩)
      | cases h

theorem addExport_ok {ex : Export} (h : addExport s ex = .ok s') :
    s' = { s with exports := s.exports ++ if ex.isFunc then [(ex.name, ex.index)] else [] } := by
  unfold addExport at h
  split_ifs at h with hfunc
  · cases h
    rw [if_pos hfunc]
  · cases h
    rw [if_neg hfunc, List.append_nil]

theorem addMemory_same {mt : MemoryType} (h : addMemory s mt = .ok s') : SameFuncs s s' := by
  rw [addMemory_ok h]
  exact ⟨rfl, rfl, rfl, rfl, rfl, rfl⟩

theorem addTable_same {t : TableEntry} (h : addTable s t = .ok s') : SameFuncs s s' := by
  rw [addTable_ok h]
  exact ⟨rfl, rfl, rfl, rfl, rfl, rfl⟩

theorem addElement_same {el : Element} (h : addElement s el = .ok s') : SameFuncs s s' := by
  obtain ⟨e, rfl⟩ := addElement_ok h
  exact ⟨rfl, rfl, rfl, rfl, rfl, rfl⟩

theorem addData_same {d : Data} (h : addData s d = .ok s') : SameFuncs s s' := by
  obtain ⟨e, rfl⟩ := addData_ok h
  exact ⟨rfl, rfl, rfl, rfl, rfl, rfl⟩

theorem addGlobal_same {g : GlobalEntry} (h : addGlobal s g = .ok s') : SameFuncs s s' := by
  obtain ⟨x, rfl⟩ := addGlobal_ok h
  exact ⟨rfl, rfl, rfl, rfl, rfl, rfl⟩

theorem addExport_same {ex : Export} (h : addExport s ex = .ok s') : SameFuncs s s' := by
  rw [addExport_ok h]
  exact ⟨rfl, rfl, rfl, rfl, rfl, rfl⟩

theorem addTypes_ok {tys : List CompositeType} (h : addTypes tys s = .ok s') :
    s' = { s with funcTypes := s.funcTypes ++ tys.filterMap functionType } := by
  induction tys generalizing s with
  | nil =>
    cases h
    rw [List.filterMap_nil, List.append_nil]
  | cons ty tys ih =>
    cases ty with
    | other => cases h
    | func ft =>
      obtain ⟨-, -, h⟩ := Verify.bind_eq_ok h
      obtain ⟨-, -, h⟩ := Verify.bind_eq_ok h
      have hft : functionType (.func ft) = some ft := rfl
      rw [ih h, List.filterMap_cons_some hft, List.append_assoc]
      rfl

theorem typeSection_ok {recs : List (List CompositeType)}
    (h : payload s (.typeSection (recs.map .ok)) = .ok s') :
    s' = { s with funcTypes := s.funcTypes ++ recs.flatten.filterMap functionType } := by
  unfold payload at h
  induction recs generalizing s with
  | nil =>
    cases h
    rw [List.flatten_nil, List.filterMap_nil, List.append_nil]
  | cons tys recs ih =>
    rw [List.map_cons] at h
    obtain ⟨t, ht, h⟩ := Verify.bind_eq_ok h
    rw [ih h, addTypes_ok ht, List.flatten_cons, List.filterMap_append, List.append_assoc]

theorem functionSection_ok {idxs : List Nat}
    (h : payload s (.functionSection (idxs.map .ok)) = .ok s') :
    s' = { s with funcTypeidx := s.funcTypeidx ++ idxs } := by
  unfold payload at h
  induction idxs generalizing s with
  | nil =>
    cases h
    rw [List.append_nil]
  | cons i idxs ih =>
    rw [List.map_cons] at h
    obtain ⟨t, ht, h⟩ := Verify.bind_eq_ok h
    cases ht
    rw [ih h, List.append_assoc]
    rfl

/-- The placeholder of an imported function. -/
def importMeta (ft : FuncType) : FuncMeta where
  codeOff := 0
  codeLen := 0
  nParams := ft.1.length % 2 ^ 16
  nResults := ft.2.length % 2 ^ 16
  nLocals := 0

theorem addImport_ok {imp : Import} (h : addImport s imp = .ok s') :
    ∃ t ft fnId, importType imp = some t ∧ s.funcTypes[t]? = some ft ∧
      EnvFnId.lookup imp.module imp.name = .ok fnId ∧
      s'.funcTypes = s.funcTypes ∧ s'.funcTypeidx = s.funcTypeidx ++ [t] ∧
      s'.hostFnIds = s.hostFnIds ++ [fnId] ∧ s'.code = s.code ∧ s'.consts = s.consts ∧
      s'.funcs = s.funcs ++ [importMeta ft] := by
  unfold addImport at h
  cases hty : imp.ty with
  | other text =>
    rw [hty] at h
    cases h
  | func t =>
    rw [hty] at h
    simp only at h
    have himp : importType imp = some t := by
      unfold importType
      rw [hty]
    cases hft : s.funcTypes[t]? with
    | none =>
      rw [hft] at h
      cases h
    | some ft =>
      rw [hft] at h
      obtain ⟨-, -, h⟩ := Verify.bind_eq_ok h
      obtain ⟨-, -, h⟩ := Verify.bind_eq_ok h
      obtain ⟨fnId, hid, h⟩ := Verify.bind_eq_ok h
      cases h
      exact ⟨t, ft, fnId, himp, hft, hid, rfl, rfl, rfl, rfl, rfl, rfl⟩

/-- The translator behind the import section: one placeholder for each import. -/
structure Imported (imps : List Import) (s s' : TState) : Prop where
  funcTypes : s'.funcTypes = s.funcTypes
  funcTypeidx : s'.funcTypeidx = s.funcTypeidx ++ imps.filterMap importType
  length : (imps.filterMap importType).length = imps.length
  code : s'.code = s.code
  consts : s'.consts = s.consts
  hostFnIds : ∃ ids, s'.hostFnIds = s.hostFnIds ++ ids ∧
    List.Forall₂ (fun imp fnId => EnvFnId.lookup imp.module imp.name = .ok fnId) imps ids
  funcs : ∃ fs, s'.funcs = s.funcs ++ fs ∧ fs.length = imps.length ∧
    ∀ (k : Nat) f, fs[k]? = some f → ∃ t ft, (imps.filterMap importType)[k]? = some t ∧
      s.funcTypes[t]? = some ft ∧ f = importMeta ft

theorem importSection_ok {imps : List Import} (h : payload s (.importSection (imps.map .ok)) = .ok s') :
    Imported imps s s' := by
  unfold payload at h
  induction imps generalizing s with
  | nil =>
    cases h
    exact ⟨rfl, (List.append_nil _).symm, rfl, rfl, rfl, ⟨[], (List.append_nil _).symm, .nil⟩,
      ⟨[], (List.append_nil _).symm, rfl, fun k f hf => by simp at hf⟩⟩
  | cons imp imps ih =>
    rw [List.map_cons] at h
    obtain ⟨t, ht, h⟩ := Verify.bind_eq_ok h
    obtain ⟨ti, ft, fnId, hty, hft, hid, h1, h2, h3, h4, h5, h6⟩ := addImport_ok ht
    have hrest := ih h
    obtain ⟨ids, hids, hlookup⟩ := hrest.hostFnIds
    obtain ⟨fs, hfs, hfsl, hk⟩ := hrest.funcs
    refine ⟨hrest.funcTypes.trans h1, ?_, ?_, hrest.code.trans h4, hrest.consts.trans h5, ?_, ?_⟩
    · rw [hrest.funcTypeidx, h2, List.filterMap_cons_some hty, List.append_assoc]
      rfl
    · rw [List.filterMap_cons_some hty, List.length_cons, List.length_cons, hrest.length]
    · refine ⟨fnId :: ids, ?_, .cons hid hlookup⟩
      rw [hids, h3, List.append_assoc]
      rfl
    · refine ⟨importMeta ft :: fs, ?_, by rw [List.length_cons, hfsl, List.length_cons], ?_⟩
      · rw [hfs, h6, List.append_assoc]
        rfl
      · intro k f hf
        rw [List.filterMap_cons_some hty]
        cases k with
        | zero =>
          cases hf
          exact ⟨ti, ft, rfl, hft, rfl⟩
        | succ k =>
          obtain ⟨t', ft', h7, h8, h9⟩ := hk k f hf
          exact ⟨t', ft', h7, h1 ▸ h8, h9⟩

end Sections

/-! ## The code section -/

/-- The index spaces of the module are read, and only imports have become functions. -/
structure Headed (M : Module) (s : TState) : Prop where
  funcTypes : s.funcTypes = M.funcTypes
  funcTypeidx : s.funcTypeidx = M.funcTypeidx
  imports : (M.imports.filterMap importType).length = M.imports.length
  hostFnIds : List.Forall₂ (fun imp fnId => EnvFnId.lookup imp.module imp.name = .ok fnId) M.imports
    s.hostFnIds
  code : s.code = []
  consts : s.consts = []
  length : s.funcs.length = M.imports.length
  funcs : ∀ (k : Nat) f, s.funcs[k]? = some f → ∃ t ft, M.funcTypeidx[k]? = some t ∧
    M.funcTypes[t]? = some ft ∧ f = importMeta ft

theorem header_ok {M : Module} {s : TState} (h : each "parse" payload M.header {} = .ok s) :
    Headed M s := by
  unfold Module.header at h
  rw [List.append_assoc, each_append] at h
  obtain ⟨s7, h7, h⟩ := Verify.bind_eq_ok h
  obtain ⟨s1, h1, h7⟩ := Verify.bind_eq_ok h7
  obtain ⟨s2, h2, h7⟩ := Verify.bind_eq_ok h7
  obtain ⟨s3, h3, h7⟩ := Verify.bind_eq_ok h7
  obtain ⟨s4, h4, h7⟩ := Verify.bind_eq_ok h7
  obtain ⟨s5, h5, h7⟩ := Verify.bind_eq_ok h7
  obtain ⟨s6, h6, h7⟩ := Verify.bind_eq_ok h7
  obtain ⟨s8, h8, h7⟩ := Verify.bind_eq_ok h7
  cases h7
  have hstart : M.start = false := by
    cases hs : M.start with
    | false => rfl
    | true =>
      rw [hs] at h
      cases h
  rw [hstart] at h
  obtain ⟨s9, h9, h⟩ := Verify.bind_eq_ok h
  cases h
  have e1 := typeSection_ok h1
  have e2 := importSection_ok h2
  have e3 := functionSection_ok h3
  have hsame : SameFuncs s3 s :=
    ((((each_sameFuncs (fun _ _ _ => addTable_same) h4).trans
      (each_sameFuncs (fun _ _ _ => addMemory_same) h5)).trans
      (each_sameFuncs (fun _ _ _ => addGlobal_same) h6)).trans
      (each_sameFuncs (fun _ _ _ => addExport_same) h8)).trans
      (each_sameFuncs (fun _ _ _ => addElement_same) h9)
  subst e1
  subst e3
  obtain ⟨ids, hids, hlookup⟩ := e2.hostFnIds
  obtain ⟨fs, hfs, hfsl, hk⟩ := e2.funcs
  refine ⟨hsame.funcTypes.trans e2.funcTypes, ?_, e2.length, ?_, hsame.code.trans e2.code,
    hsame.consts.trans e2.consts, ?_, fun k f hf => ?_⟩
  · rw [hsame.funcTypeidx, e2.funcTypeidx]
    rfl
  · rw [hsame.hostFnIds, hids]
    exact hlookup
  · rw [hsame.funcs, hfs]
    exact hfsl
  · rw [hsame.funcs, hfs] at hf
    obtain ⟨t, ft, h7, h8, h9⟩ := hk k f hf
    refine ⟨t, ft, ?_, h8, h9⟩
    unfold Module.funcTypeidx
    rw [List.getElem?_append_left (List.getElem?_eq_some_iff.mp h7).1]
    exact h7

/-- How the translator turns the operators `ops` into the function `f` when `code` and `consts` stand
in front of it: by lowering them, or by the stub. -/
inductive Placed (lm : LowerModule) (ft : FuncType) (nLocals : Nat) (ops : List Operator)
    (code : List CuOp) (consts : List Slot) (f : FuncMeta) (code' : List CuOp) (consts' : List Slot) :
    Prop where
  | lowered (h : lowerOperators lm ops (ft.1.length % 2 ^ 16) (ft.2.length % 2 ^ 16) nLocals code
      consts = (.ok f, code', consts'))
  | stub {e : String} {code1 : List CuOp}
      (h : lowerOperators lm ops (ft.1.length % 2 ^ 16) (ft.2.length % 2 ^ 16) nLocals code consts =
        (.error e, code1, consts'))
      (hf : f = stub code1.length (ft.1.length % 2 ^ 16) (ft.2.length % 2 ^ 16))
      (hc : code' = code1 ++ [{ op := .unreachable }, { op := .endFunc, a := ft.2.length % 2 ^ 16 }])

theorem Placed.grows {lm : LowerModule} {ft : FuncType} {nLocals : Nat} {ops : List Operator}
    {code code' : List CuOp} {consts consts' : List Slot} {f : FuncMeta}
    (h : Placed lm ft nLocals ops code consts f code' consts') :
    code <+: code' ∧ consts <+: consts' := by
  cases h with
  | lowered h => exact lowerOperators_grows h
  | stub h hf hc =>
    obtain ⟨h1, h2⟩ := lowerOperators_grows h
    exact ⟨hc ▸ h1.trans (List.prefix_append ..), h2⟩

/-- The code of the function is what was appended. -/
theorem Placed.range {lm : LowerModule} {ft : FuncType} {nLocals : Nat} {ops : List Operator}
    {code code' : List CuOp} {consts consts' : List Slot} {f : FuncMeta}
    (h : Placed lm ft nLocals ops code consts f code' consts') :
    code.length ≤ f.codeOff ∧ f.codeOff + f.codeLen ≤ code'.length := by
  cases h with
  | lowered h =>
    have := (lowerOperators_grows h).1.length_le
    rw [lowerOperators_meta h]
    simp only
    omega
  | stub h hf hc =>
    have := (lowerOperators_grows h).1.length_le
    rw [hf, hc, List.length_append]
    simp only [Translate.stub, List.length_cons, List.length_nil]
    omega

theorem lowerBody_placed (s : TState) (ft : FuncType) (nLocals : Nat) (ops : List Operator) :
    ∃ f code' consts', lowerBody s ft nLocals ops =
        { s with code := code', consts := consts', funcs := s.funcs ++ [f] } ∧
      Placed s.lowerModule ft nLocals ops s.code s.consts f code' consts' := by
  unfold lowerBody
  dsimp only
  split
  · rename_i f code consts h
    exact ⟨f, code, consts, rfl, .lowered h⟩
  · rename_i e code consts h
    exact ⟨_, _, _, rfl, .stub h rfl rfl⟩

theorem addCode_ok {s s' : TState} {c : Func}
    (h : each "parse" payload [Module.codeEntry c] s = .ok s') :
    ∃ tidx ft, s.funcTypeidx[s.funcs.length]? = some tidx ∧ s.funcTypes[tidx]? = some ft ∧
      (c.locals.map (·.1)).sum ≤ 2 ^ 16 - 1 ∧
      s' = lowerBody s ft (c.locals.map (·.1)).sum c.body.function := by
  obtain ⟨t, h, ht⟩ := Verify.bind_eq_ok h
  cases ht
  simp only [payload, addCode] at h
  split at h
  · cases h
  · rename_i tidx htidx
    split at h
    · cases h
    · rename_i ft hft
      obtain ⟨locals, hl, h⟩ := Verify.bind_eq_ok h
      cases hl
      obtain ⟨n, hn, h⟩ := Verify.bind_eq_ok h
      rw [countLocals_ok hn] at h
      split_ifs at h with hbig
      · cases h
      · obtain ⟨ops, ho, h⟩ := Verify.bind_eq_ok h
        cases ho
        rw [collect_map_ok] at h
        cases h
        exact ⟨tidx, ft, htidx, hft, by omega, rfl⟩

/-- The state behind a run of code entries: each has added the function it describes. -/
structure Coded (cs : List Func) (s s' : TState) : Prop where
  funcTypes : s'.funcTypes = s.funcTypes
  funcTypeidx : s'.funcTypeidx = s.funcTypeidx
  hostFnIds : s'.hostFnIds = s.hostFnIds
  code : s.code <+: s'.code
  consts : s.consts <+: s'.consts
  funcs : ∃ fs, s'.funcs = s.funcs ++ fs ∧ fs.length = cs.length
  fresh : ∀ (k : Nat) f, s'.funcs[s.funcs.length + k]? = some f →
    s.code.length ≤ f.codeOff ∧ f.codeOff + f.codeLen ≤ s'.code.length
  ordered : ∀ (j k : Nat) f g, j < k → s'.funcs[s.funcs.length + j]? = some f →
    s'.funcs[s.funcs.length + k]? = some g → f.codeOff + f.codeLen ≤ g.codeOff
  entry : ∀ (k : Nat) c, cs[k]? = some c → ∃ t tidx ft f code' consts',
    each "parse" payload ((cs.take k).map Module.codeEntry) s = .ok t ∧
    t.lowerModule = s.lowerModule ∧
    s.funcTypeidx[s.funcs.length + k]? = some tidx ∧ s.funcTypes[tidx]? = some ft ∧
    (c.locals.map (·.1)).sum ≤ 2 ^ 16 - 1 ∧
    Placed s.lowerModule ft (c.locals.map (·.1)).sum c.body.function t.code t.consts f code' consts' ∧
    s'.funcs[s.funcs.length + k]? = some f ∧ code' <+: s'.code ∧ consts' <+: s'.consts

theorem code_ok {cs : List Func} {s s' : TState}
    (h : each "parse" payload (cs.map Module.codeEntry) s = .ok s') : Coded cs s s' := by
  induction cs generalizing s with
  | nil =>
    cases h
    exact ⟨rfl, rfl, rfl, List.prefix_refl _, List.prefix_refl _, ⟨[], (List.append_nil _).symm, rfl⟩,
      fun k f hf => by simp at hf, fun j k f g _ hf => by simp at hf, fun k c hc => by simp at hc⟩
  | cons c cs ih =>
    have hsplit : (c :: cs).map Module.codeEntry = [Module.codeEntry c] ++ cs.map Module.codeEntry := rfl
    rw [hsplit, each_append] at h
    obtain ⟨s1, h1, h⟩ := Verify.bind_eq_ok h
    obtain ⟨tidx, ft, htidx, hft, hn, rfl⟩ := addCode_ok h1
    obtain ⟨f, code1, consts1, heq, hplaced⟩ :=
      lowerBody_placed s ft (c.locals.map (·.1)).sum c.body.function
    rw [heq] at h h1
    have hrest := ih h
    obtain ⟨fs, hfs, hfsl⟩ := hrest.funcs
    have hpre := hplaced.grows
    have hrange := hplaced.range
    have hmore := hrest.code.length_le
    have hgrow := hpre.1.length_le
    have hhead : s'.funcs[s.funcs.length]? = some f := by
      rw [hfs, List.append_assoc, List.getElem?_append_right le_rfl, Nat.sub_self]
      rfl
    have hlen (k : Nat) : (s.funcs ++ [f]).length + k = s.funcs.length + (k + 1) := by
      rw [List.length_append, List.length_singleton]
      omega
    have hfresh (k : Nat) (g : FuncMeta) (hg : s'.funcs[s.funcs.length + (k + 1)]? = some g) :=
      hrest.fresh k g (by rw [hlen]; exact hg)
    dsimp only at hfresh hmore
    refine ⟨hrest.funcTypes, hrest.funcTypeidx, hrest.hostFnIds, hpre.1.trans hrest.code,
      hpre.2.trans hrest.consts, ⟨f :: fs, ?_, ?_⟩, fun k g hg => ?_, fun j k g g' hjk hg hg' => ?_,
      fun k c' hc' => ?_⟩
    · rw [hfs, List.append_assoc]
      rfl
    · rw [List.length_cons, hfsl, List.length_cons]
    · cases k with
      | zero =>
        rw [Nat.add_zero, hhead] at hg
        cases hg
        omega
      | succ k =>
        have := hfresh k g hg
        omega
    · cases k with
      | zero => omega
      | succ k =>
        cases j with
        | zero =>
          rw [Nat.add_zero, hhead] at hg
          cases hg
          have := hfresh k g' hg'
          omega
        | succ j =>
          exact hrest.ordered j k g g' (by omega) (by rw [hlen]; exact hg) (by rw [hlen]; exact hg')
    · cases k with
      | zero =>
        cases hc'
        refine ⟨s, tidx, ft, f, code1, consts1, rfl, rfl, htidx, hft, hn, hplaced, ?_, hrest.code,
          hrest.consts⟩
        exact hhead
      | succ k =>
        obtain ⟨t, tidx', ft', f', code', consts', g1, g2, g3, g4, g5, g6, g7, g8, g9⟩ :=
          hrest.entry k c' hc'
        simp only [hlen] at g3 g7
        refine ⟨t, tidx', ft', f', code', consts', ?_, g2, g3, g4, g5, g6, g7, g8, g9⟩
        rw [List.take_succ_cons, List.map_cons, ← List.singleton_append, each_append, h1]
        exact g1

/-! ## Fingerprints -/

/-- The type tags lie above the two counts. -/
theorem typeTags_low {shift : Nat} {ts : List ValType} {fp fp' : Nat} (h16 : 16 ≤ shift)
    (h : typeTags shift ts fp = .ok fp') : fp' % 2 ^ 16 = fp % 2 ^ 16 := by
  induction ts generalizing shift fp with
  | nil =>
    cases h
    rfl
  | cons t ts ih =>
    obtain ⟨tag, -, h⟩ := Verify.bind_eq_ok h
    rw [ih (by omega) h, Nat.or_mod_two_pow]
    have hzero : (tag <<< shift) % 2 ^ 16 = 0 := by
      rw [Nat.shiftLeft_eq]
      exact Nat.mod_eq_zero_of_dvd ((Nat.pow_dvd_pow 2 h16).mul_left tag)
    rw [hzero, Nat.or_zero]

theorem counts_low : ∀ p ≤ 8, ∀ r ≤ 8,
    (p ||| r <<< 8) % 2 ^ 16 % 2 ^ 8 = p ∧ (p ||| r <<< 8) % 2 ^ 16 / 2 ^ 8 = r := by
  decide

/-- A fingerprint exists for short types only and begins with the two counts. -/
theorem typeFingerprint_ok {ft : FuncType} {fp : Nat} (h : typeFingerprint ft = .ok fp) :
    ft.1.length ≤ 8 ∧ ft.2.length ≤ 8 ∧ fp &&& 0xff = ft.1.length ∧
      (fp >>> 8) &&& 0xff = ft.2.length := by
  unfold typeFingerprint at h
  split_ifs at h with hbig
  obtain ⟨fp1, h1, h⟩ := Verify.bind_eq_ok h
  have hlow : fp % 2 ^ 16 = (ft.1.length ||| ft.2.length <<< 8) % 2 ^ 16 :=
    (typeTags_low (by omega) h).trans (typeTags_low le_rfl h1)
  obtain ⟨hp, hr⟩ := counts_low ft.1.length (by omega) ft.2.length (by omega)
  rw [← hlow] at hp hr
  refine ⟨by omega, by omega, ?_, ?_⟩
  · rw [show (0xff : Nat) = 2 ^ 8 - 1 from rfl, Nat.and_two_pow_sub_one_eq_mod]
    omega
  · rw [show (0xff : Nat) = 2 ^ 8 - 1 from rfl, Nat.and_two_pow_sub_one_eq_mod,
      Nat.shiftRight_eq_div_pow]
    omega

theorem fingerprints_ok {fts : List FuncType} {fps : List Nat} (h : fingerprints fts = .ok fps) :
    fps.length = fts.length ∧ ∀ (k : Nat) ft, fts[k]? = some ft → ∃ fp, fps[k]? = some fp ∧
      typeFingerprint ft = .ok fp := by
  induction fts generalizing fps with
  | nil =>
    cases h
    exact ⟨rfl, fun k ft hk => by simp at hk⟩
  | cons ft fts ih =>
    obtain ⟨fp, hfp, h⟩ := Verify.bind_eq_ok h
    obtain ⟨fps', hfps, h⟩ := Verify.bind_eq_ok h
    cases h
    obtain ⟨hlen, hget⟩ := ih hfps
    refine ⟨by rw [List.length_cons, hlen, List.length_cons], fun k ft' hk => ?_⟩
    cases k with
    | zero =>
      cases hk
      exact ⟨fp, rfl, hfp⟩
    | succ k => exact hget k ft' hk

/-! ## Whole modules -/

/-- The translated module `m` of `M`. -/
structure Translated (M : Module) (m : HostModule) : Prop where
  length : m.funcs.length = M.imports.length + M.code.length
  imports : (M.imports.filterMap importType).length = M.imports.length
  nHostImports : m.nHostImports = M.imports.length
  typeFp : fingerprints M.funcTypes = .ok m.typeFp
  funcTypeidx : m.funcTypeidx = M.funcTypeidx.take m.funcs.length
  ordered : ∀ (j k : Nat) f g, j < k → m.funcs[M.imports.length + j]? = some f →
    m.funcs[M.imports.length + k]? = some g → f.codeOff + f.codeLen ≤ g.codeOff
  imported : ∀ (k : Nat) f, k < M.imports.length → m.funcs[k]? = some f → ∃ t ft,
    M.funcTypeidx[k]? = some t ∧ M.funcTypes[t]? = some ft ∧ f = importMeta ft
  entry : ∀ (k : Nat) c, M.code[k]? = some c → ∃ s ft f code' consts', M.before k = .ok s ∧
    s.funcTypes = M.funcTypes ∧ s.funcTypeidx = M.funcTypeidx ∧
    s.hostFnIds.length = M.imports.length ∧ M.codeType k = some ft ∧
    (c.locals.map (·.1)).sum ≤ 2 ^ 16 - 1 ∧
    Placed s.lowerModule ft (c.locals.map (·.1)).sum c.body.function s.code s.consts f code' consts' ∧
    m.funcs[M.imports.length + k]? = some f ∧ code' <+: m.code ∧ consts' <+: m.consts

/-- The size of the memory in bytes. -/
def TState.size (s : TState) : Nat := if s.hasMemory then s.memMin * WASM_PAGE else 0

/-- The module put together from the state, the fingerprints, the layout and the table. -/
def TState.assemble (s : TState) (fp : List Nat) (l : Layout) (table : List Nat) : HostModule where
  code := s.code
  consts := s.consts
  funcs := s.funcs
  exports := s.exports
  globals := s.globals
  memory := l.memory
  memMax := if s.hasMemory then min (s.memMaxPages.getD 1024) 1024 * WASM_PAGE else 0
  memSize := s.size
  dataBlob := l.dataBlob
  dataOff := l.dataOff
  dataLen := l.dataLen
  dataLive := l.dataLive
  table := table
  funcTypeidx := s.funcTypeidx
  typeFp := fp
  nHostImports := s.hostFnIds.length
  hostFnId := s.hostFnIds
  hostImportMod := s.hostImportMod
  hostImportName := s.hostImportName
  hostImportEnv := s.hostImportEnv

/-- When and with what `translate_wasm` succeeds behind the loop over the payloads. -/
theorem finish_eq_ok {s : TState} {m : HostModule} : finish s = .ok m ↔
    ∃ fp l table, fingerprints s.funcTypes = .ok fp ∧
      ¬ (s.hasMemory = true ∧ s.memMin > min (s.memMaxPages.getD 1024) 1024) ∧
      layoutData s.size s.pendingData {} = .ok l ∧ placeElems s.pendingElem s.table = .ok table ∧
      ¬ s.funcs.isEmpty = true ∧ m = s.assemble fp l table := by
  constructor
  · intro h
    unfold finish at h
    obtain ⟨fp, hfp, h⟩ := Verify.bind_eq_ok h
    dsimp only at h
    by_cases hbig : s.hasMemory = true ∧ s.memMin > min (s.memMaxPages.getD 1024) 1024
    · rw [if_pos hbig] at h
      cases h
    · rw [if_neg hbig] at h
      obtain ⟨l, hl, h⟩ := Verify.bind_eq_ok h
      obtain ⟨table, htab, h⟩ := Verify.bind_eq_ok h
      by_cases hempty : s.funcs.isEmpty = true
      · rw [if_pos hempty] at h
        cases h
      · rw [if_neg hempty] at h
        cases h
        exact ⟨fp, l, table, hfp, hbig, hl, htab, hempty, rfl⟩
  · rintro ⟨fp, l, table, hfp, hbig, hl, htab, hempty, rfl⟩
    have hl' : layoutData (if s.hasMemory = true then s.memMin * WASM_PAGE else 0) s.pendingData {} =
      .ok l := hl
    unfold finish
    rw [hfp]
    dsimp only [bind, Except.bind]
    rw [if_neg hbig, hl']
    dsimp only
    rw [htab]
    dsimp only
    rw [if_neg hempty]
    rfl

theorem finish_ok {s : TState} {m : HostModule} (h : finish s = .ok m) :
    fingerprints s.funcTypes = .ok m.typeFp ∧ m.code = s.code ∧ m.consts = s.consts ∧
      m.funcs = s.funcs ∧ m.funcTypeidx = s.funcTypeidx ∧ m.nHostImports = s.hostFnIds.length ∧
      m.hostFnId = s.hostFnIds ∧ WASM_PAGE ∣ m.memSize ∧ m.memSize ≤ m.memMax ∧
      m.memMax ≤ 1024 * WASM_PAGE := by
  obtain ⟨fp, l, table, hfp, hbig, -, -, -, rfl⟩ := finish_eq_ok.mp h
  refine ⟨hfp, rfl, rfl, rfl, rfl, rfl, rfl, ?_⟩
  unfold TState.assemble TState.size
  by_cases hmem : s.hasMemory = true
  · simp only [hmem, if_true]
    have hle : s.memMin ≤ min (s.memMaxPages.getD 1024) 1024 := by
      by_contra hgt
      exact hbig ⟨hmem, Nat.lt_of_not_le hgt⟩
    exact ⟨Nat.dvd_mul_left _ _, Nat.mul_le_mul_right _ hle,
      Nat.mul_le_mul_right _ (Nat.min_le_right _ _)⟩
  · simp only [if_neg hmem]
    exact ⟨Nat.dvd_zero _, Nat.le_refl _, Nat.zero_le _⟩

theorem loadWasm_translated {M : Module} {ps : List (Parsed Payload)} {m : HostModule}
    (he : Encodes M ps) (h : loadWasm ps = .ok m) : Translated M m := by
  unfold loadWasm translateWasm at h
  rw [each_encodes he] at h
  obtain ⟨m0, hm0, h⟩ := Verify.bind_eq_ok h
  obtain ⟨s, hs, hfin⟩ := Verify.bind_eq_ok hm0
  cases h
  obtain ⟨f1, f2, f3, f4, f5, f6, -⟩ := finish_ok hfin
  unfold Module.payloads at hs
  rw [each_append] at hs
  obtain ⟨s2, hs2, hs⟩ := Verify.bind_eq_ok hs
  rw [each_append] at hs2
  obtain ⟨s1, hs1, hs2⟩ := Verify.bind_eq_ok hs2
  obtain ⟨s3, hs3, hs⟩ := Verify.bind_eq_ok hs
  cases hs
  have hhead := header_ok hs1
  have hcode := code_ok hs2
  have hdata : SameFuncs s2 s := each_sameFuncs (fun _ _ _ => addData_same) hs3
  obtain ⟨fs, hfs, hfsl⟩ := hcode.funcs
  have htypes : s.funcTypes = M.funcTypes :=
    hdata.funcTypes.trans (hcode.funcTypes.trans hhead.funcTypes)
  have hidx : s.funcTypeidx = M.funcTypeidx :=
    hdata.funcTypeidx.trans (hcode.funcTypeidx.trans hhead.funcTypeidx)
  have hids : s.hostFnIds.length = M.imports.length := by
    rw [hdata.hostFnIds, hcode.hostFnIds, ← hhead.hostFnIds.length_eq]
  refine ⟨?_, hhead.imports, f6.trans hids, htypes ▸ f1, ?_, fun j k f g hjk hf hg => ?_,
    fun k f hk hf => ?_, fun k c hc => ?_⟩
  · rw [f4, hdata.funcs, hfs, List.length_append, hhead.length, hfsl]
  · rw [f5, hidx]
  · rw [f4, hdata.funcs, ← hhead.length] at hf hg
    exact hcode.ordered j k f g hjk hf hg
  · rw [f4, hdata.funcs, hfs, List.getElem?_append_left (by rw [hhead.length]; exact hk)] at hf
    exact hhead.funcs k f hf
  · obtain ⟨t, tidx, ft, f, code', consts', g1, g2, g3, g4, g5, g6, g7, g8, g9⟩ := hcode.entry k c hc
    refine ⟨t, ft, f, code', consts', ?_, ?_, ?_, ?_, ?_, g5, g2 ▸ g6, ?_, ?_, ?_⟩
    · unfold Module.before
      rw [each_append, hs1]
      exact g1
    · exact (congrArg LowerModule.funcTypes g2).trans hhead.funcTypes
    · exact (congrArg LowerModule.funcTypeidx g2).trans hhead.funcTypeidx
    · exact (congrArg LowerModule.nImports g2).trans hhead.hostFnIds.length_eq.symm
    · rw [hhead.length, hhead.funcTypeidx, Module.funcTypeidx,
        List.getElem?_append_right (by rw [hhead.imports]; omega), hhead.imports,
        Nat.add_sub_cancel_left] at g3
      rw [hhead.funcTypes] at g4
      unfold Module.codeType
      rw [g3]
      exact g4
    · rw [f4, hdata.funcs, ← hhead.length]
      exact g7
    · rw [f2, hdata.code]
      exact g8
    · rw [f3, hdata.consts]
      exact g9

end Translate

/-- What holds of a loaded module can be read off an evaluation of the two passes. -/
theorem loaded_eval {α : Type} {ps : List (Parsed Payload)} {F : HostModule → α} {x : α}
    (h : ((loadWasm ps).toOption.bind fun m0 => (verifyCuop m0).toOption.map F) = some x) :
    ∃ m0 m, loadWasm ps = .ok m0 ∧ verifyCuop m0 = .ok m ∧ F m = x := by
  cases hm : loadWasm ps with
  | error e =>
    rw [hm] at h
    cases h
  | ok m0 =>
    rw [hm] at h
    have h' : (verifyCuop m0).toOption.map F = some x := h
    cases hv : verifyCuop m0 with
    | error e =>
      rw [hv] at h'
      cases h'
    | ok m =>
      rw [hv] at h'
      exact ⟨m0, m, rfl, hv, Option.some.inj h'⟩

end CuWasm
