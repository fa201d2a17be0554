import CuWasm.Proofs.ReleaseProofs
import CuWasm.Proofs.SegmentProofs

/-!
# The exported function

Names of imports and error texts become strings of C without a panic: the table of host functions has
no `NUL`, and the error text is sanitised. Names of exports are taken as they are. The names and the
numbers of functions are followed through the payloads, and this gives when `cuwasm_translate_wasm`
returns.
-/

namespace CuWasm.Checked

open Wasm Exit Translate

/-! ## Strings of C -/

theorem cstring_ok {s : String} (h : NUL ∉ s.toList) : unwrap (CString.new s) = .ok ⟨s, h⟩ := by
  unfold CString.new
  rw [dif_pos h]
  rfl

theorem cstring_error {s : String} (h : ¬ NUL ∉ s.toList) :
    unwrap (CString.new s) = .error .unwrap := by
  unfold CString.new
  rw [dif_neg h]
  rfl

/-- An error text always becomes a string of C. -/
theorem cstringErr_ok (msg : String) : ∃ err, cstringErr msg = .ok err := by
  refine ⟨_, cstring_ok ?_⟩
  simp [String.toList_ofList]

/-! ## The module that is handed over -/

theorem exportArrays_ok {xs : List (String × Nat)} (h : ∀ x ∈ xs, NUL ∉ x.1.toList) :
    ∃ names idxs, exportArrays xs = .ok (names, idxs) ∧ names.length = idxs.length := by
  induction xs with
  | nil => exact ⟨[], [], rfl, rfl⟩
  | cons x xs ih =>
    obtain ⟨names, idxs, hxs, hlen⟩ := ih fun y hy => h y (.tail _ hy)
    refine ⟨⟨x.1, h x (.head _)⟩ :: names, x.2 :: idxs, ?_, ?_⟩
    · unfold exportArrays
      rw [cstring_ok (h x (.head _)), hxs]
      rfl
    · rw [List.length_cons, List.length_cons, hlen]

theorem exportArrays_error {xs : List (String × Nat)} (h : ¬ ∀ x ∈ xs, NUL ∉ x.1.toList) :
    ∃ e, exportArrays xs = .error e := by
  induction xs with
  | nil => exact absurd (fun x hx => nomatch hx) h
  | cons x xs ih =>
    unfold exportArrays
    by_cases hx : NUL ∉ x.1.toList
    · obtain ⟨e, he⟩ := ih fun hxs => h fun y hy => by
        rcases List.mem_cons.mp hy with rfl | hy
        · exact hx
        · exact hxs y hy
      rw [cstring_ok hx, he]
      exact ⟨e, rfl⟩
    · rw [cstring_error hx]
      exact ⟨.unwrap, rfl⟩

/-- A string of C at every one of the first `n` positions. -/
structure CStrings (n : Nat) (xs : List String) : Prop where
  length : xs.length = n
  noNul : ∀ x ∈ xs, NUL ∉ x.toList

theorem CStrings.at {n : Nat} {xs : List String} (h : CStrings n xs) {i : Nat} (hi : i < n) :
    ∃ c, cstringAt xs i = .ok c := by
  have hi' : i < xs.length := h.length ▸ hi
  unfold cstringAt index
  rw [List.getElem?_eq_getElem hi']
  exact ⟨_, cstring_ok (h.noNul _ (List.getElem_mem hi'))⟩

/-- What `translate_wasm` promises of the arrays that have the same length. -/
structure Handed (m : HostModule) : Prop where
  memMax : m.memMax < 2 ^ 32
  dataOff : m.dataOff.length = m.dataLive.length
  dataLen : m.dataLen.length = m.dataLive.length
  hostFnId : m.hostFnId.length = m.nHostImports
  mods : CStrings m.nHostImports m.hostImportMod
  names : CStrings m.nHostImports m.hostImportName
  envs : CStrings m.nHostImports m.hostImportEnv

theorem importArrays_ok {m : HostModule} (h : Handed m) {is : List Nat}
    (his : ∀ i ∈ is, i < m.nHostImports) :
    ∃ mods names envs, importArrays m is = .ok (mods, names, envs) ∧ mods.length = is.length ∧
      names.length = is.length ∧ envs.length = is.length := by
  induction is with
  | nil => exact ⟨[], [], [], rfl, rfl, rfl, rfl⟩
  | cons i is ih =>
    have hi := his i (.head _)
    obtain ⟨mods, names, envs, hrest, h1, h2, h3⟩ := ih fun j hj => his j (.tail _ hj)
    obtain ⟨c1, hc1⟩ := h.mods.at hi
    obtain ⟨c2, hc2⟩ := h.names.at hi
    obtain ⟨c3, hc3⟩ := h.envs.at hi
    refine ⟨c1 :: mods, c2 :: names, c3 :: envs, ?_, ?_, ?_, ?_⟩
    · unfold importArrays
      rw [hc1, hc2, hc3, hrest]
      rfl
    · rw [List.length_cons, List.length_cons, h1]
    · rw [List.length_cons, List.length_cons, h2]
    · rw [List.length_cons, List.length_cons, h3]

theorem debugAssertEq_ok {p : Profile} {x y : Nat} (h : p = .dev → x = y) :
    debugAssertEq p x y = .ok () := if_neg fun hne => hne.2 (h hne.1)

theorem debugAssertEq_error {x y : Nat} (h : x ≠ y) : debugAssertEq .dev x y = .error .assert :=
  if_pos ⟨rfl, h⟩

/-- The assertion that there is a type index for every function. -/
def CountsAgree (p : Profile) (m : HostModule) : Prop :=
  p = .dev → m.funcTypeidx.length % 2 ^ 32 = m.funcs.length % 2 ^ 32

/-- A module whose function exports have names without `NUL`. -/
theorem moduleOut_of_names {p : Profile} {m : HostModule} (h : Handed m)
    (hnames : ∀ x ∈ m.exports, NUL ∉ x.1.toList) :
    (CountsAgree p m ∧ ∃ out, moduleOut p m = .ok out ∧ out.AllSet) ∨
      (¬ CountsAgree p m ∧ ∃ e, moduleOut p m = .error e) := by
  obtain ⟨names, idxs, hexp, hlen⟩ := exportArrays_ok hnames
  have hmem : m.memMax = ((List.range m.memMax).map m.memory).length % 2 ^ 32 := by
    rw [List.length_map, List.length_range, Nat.mod_eq_of_lt h.memMax]
  unfold moduleOut vecToRaw
  dsimp only
  rw [hexp]
  dsimp only [bind, Except.bind]
  rw [debugAssertEq_ok fun _ => by rw [hlen]]
  dsimp only
  rw [debugAssertEq_ok fun _ => hmem]
  dsimp only
  rw [debugAssertEq_ok fun _ => rfl]
  dsimp only
  rw [debugAssertEq_ok fun _ => by rw [h.dataOff]]
  dsimp only
  rw [debugAssertEq_ok fun _ => by rw [h.dataLen]]
  dsimp only
  rw [debugAssertEq_ok fun _ => rfl]
  dsimp only
  by_cases hcounts : CountsAgree p m
  · left
    have hrange : ∀ i ∈ List.range (m.nHostImports % 2 ^ 32), i < m.nHostImports := fun i hi =>
      Nat.lt_of_lt_of_le (List.mem_range.mp hi) (Nat.mod_le _ _)
    obtain ⟨mods, inames, envs, himp, h1, h2, h3⟩ := importArrays_ok h hrange
    rw [List.length_range] at h1 h2 h3
    rw [debugAssertEq_ok hcounts]
    dsimp only
    rw [debugAssertEq_ok fun _ => by rw [h.hostFnId]]
    dsimp only
    rw [himp]
    dsimp only
    rw [debugAssertEq_ok fun _ => by rw [h1, Nat.mod_mod]]
    dsimp only
    rw [debugAssertEq_ok fun _ => by rw [h2, Nat.mod_mod]]
    dsimp only
    rw [debugAssertEq_ok fun _ => by rw [h3, Nat.mod_mod]]
    exact ⟨hcounts, _, rfl, by constructor <;> rfl⟩
  · right
    obtain ⟨rfl, hne⟩ : p = .dev ∧ m.funcTypeidx.length % 2 ^ 32 ≠ m.funcs.length % 2 ^ 32 := by
      by_contra hno
      exact hcounts fun hp => by_contra fun hne => hno ⟨hp, hne⟩
    rw [debugAssertEq_error hne]
    exact ⟨hcounts, _, rfl⟩

theorem moduleOut_of_nul {p : Profile} {m : HostModule}
    (hnames : ¬ ∀ x ∈ m.exports, NUL ∉ x.1.toList) : ∃ e, moduleOut p m = .error e := by
  obtain ⟨e, he⟩ := exportArrays_error hnames
  unfold moduleOut vecToRaw
  dsimp only
  rw [he]
  exact ⟨e, rfl⟩

/-! ## What the payloads make of names and counts -/

/-- The parts of the state that names and counts depend on. -/
structure Index where
  exports : List (String × Nat)
  typeidxs : Nat
  funcs : Nat
  imports : Nat
  mods : List String
  names : List String
  envs : List String

def indexOf (s : TState) : Index :=
  ⟨s.exports, s.funcTypeidx.length, s.funcs.length, s.hostFnIds.length, s.hostImportMod,
    s.hostImportName, s.hostImportEnv⟩

/-- The strings of the host imports. -/
structure ImportsOk (x : Index) : Prop where
  mods : CStrings x.imports x.mods
  names : CStrings x.imports x.names
  envs : CStrings x.imports x.envs

/-- From `s` to `t` the names `names` are exported, `decl` functions declared and `defn` defined. -/
structure Grows (names : List String) (decl defn : Nat) (s t : TState) : Prop where
  exports : (indexOf t).exports.map (·.1) = (indexOf s).exports.map (·.1) ++ names
  counts : (indexOf t).typeidxs + (indexOf s).funcs + defn =
    (indexOf t).funcs + (indexOf s).typeidxs + decl
  imports : ImportsOk (indexOf s) → ImportsOk (indexOf t)

theorem Grows.of_eq {s t : TState} (h : indexOf t = indexOf s) : Grows [] 0 0 s t where
  exports := by rw [h, List.append_nil]
  counts := by rw [h]; omega
  imports := fun hs => h ▸ hs

theorem Grows.trans {xs ys : List String} {a b c d : Nat} {s t u : TState} (h : Grows xs a b s t)
    (h' : Grows ys c d t u) : Grows (xs ++ ys) (a + c) (b + d) s u where
  exports := by rw [h'.exports, h.exports, List.append_assoc]
  counts := by
    have h1 := h.counts
    have h2 := h'.counts
    omega
  imports := fun hs => h'.imports (h.imports hs)

/-- Items that leave names and counts alone. -/
theorem each_grows {α : Type} {what : String} {f : TState → α → Except String TState}
    (hf : ∀ s a t, f s a = .ok t → Grows [] 0 0 s t) {xs : List (Parsed α)} {s t : TState}
    (h : Translate.each what f xs s = .ok t) : Grows [] 0 0 s t :=
  each_invariant (P := Grows [] 0 0 s) (fun u a v hu h => hu.trans (hf u a v h)) (.of_eq rfl) h

/-! ### Host imports -/

theorem noNul_ofList {cs : List Char} (h : NUL ∉ cs) : NUL ∉ (String.ofList cs).toList := by
  rw [String.toList_ofList]
  exact h

theorem modules_noNul : ∀ g ∈ EnvFnId.modules, NUL ∉ g.1.toList ∧
    ∀ f ∈ g.2, NUL ∉ f.1.toList ∧ NUL ∉ f.2.toList := by
  unfold EnvFnId.modules
  simp only [List.forall_mem_cons]
  -- the characters of a literal are read off it, not decoded from its bytes
  repeat' first
    | exact List.forall_mem_nil _
    | exact noNul_ofList (by decide)
    | apply And.intro

/-- The module names, field names and labels of the host functions. -/
theorem table_noNul : ∀ f ∈ EnvFnId.table,
    NUL ∉ f.1.toList ∧ NUL ∉ f.2.1.toList ∧ NUL ∉ f.2.2.toList := by
  intro f hf
  obtain ⟨g, hg, hf⟩ := List.mem_flatMap.mp hf
  obtain ⟨x, hx, rfl⟩ := List.mem_map.mp hf
  obtain ⟨h1, h2⟩ := modules_noNul g hg
  exact ⟨h1, h2 x hx⟩

theorem lookup_noNul {mod name : String} {fnId : Nat} (h : EnvFnId.lookup mod name = .ok fnId) :
    NUL ∉ mod.toList ∧ NUL ∉ name.toList := by
  unfold EnvFnId.lookup at h
  cases hfind : EnvFnId.table.findIdx? fun f => f.1 == mod && f.2.1 == name with
  | none =>
    rw [hfind] at h
    cases h
  | some i =>
    obtain ⟨hi, hmatch, -⟩ := List.findIdx?_eq_some_iff_getElem.mp hfind
    rw [Bool.and_eq_true, beq_iff_eq, beq_iff_eq] at hmatch
    have hf := table_noNul _ (List.getElem_mem hi)
    rw [hmatch.1, hmatch.2] at hf
    exact ⟨hf.1, hf.2.1⟩

theorem label_noNul (fnId : Nat) : NUL ∉ ((EnvFnId.label fnId).getD "?").toList := by
  unfold EnvFnId.label
  cases hf : EnvFnId.table[fnId]? with
  | none => decide
  | some f =>
    obtain ⟨h1, h2, h3⟩ := table_noNul f (List.mem_of_getElem? hf)
    have hsep : NUL ∉ "::".toList ∧ NUL ∉ " (".toList ∧ NUL ∉ ")".toList := by decide
    simp only [Option.map_some, Option.getD_some, String.toList_append, List.mem_append, not_or]
    exact ⟨⟨⟨⟨⟨h1, hsep.1⟩, h2⟩, hsep.2.1⟩, h3⟩, hsep.2.2⟩

theorem CStrings.push {n : Nat} {xs : List String} {x : String} (h : CStrings n xs)
    (hx : NUL ∉ x.toList) : CStrings (n + 1) (xs ++ [x]) where
  length := by rw [List.length_append, h.length, List.length_singleton]
  noNul := by
    intro y hy
    rcases List.mem_append.mp hy with hy | hy
    · exact h.noNul y hy
    · exact List.mem_singleton.mp hy ▸ hx

theorem addImport_grows {s t : TState} {imp : Import} (h : addImport s imp = .ok t) :
    Grows [] 0 0 s t := by
  unfold addImport at h
  cases hty : imp.ty with
  | other text =>
    rw [hty] at h
    cases h
  | func i =>
    rw [hty] at h
    dsimp only at h
    cases hft : s.funcTypes[i]? with
    | none =>
      rw [hft] at h
      cases h
    | some ft =>
      rw [hft] at h
      obtain ⟨-, -, h⟩ := Verify.bind_eq_ok h
      obtain ⟨-, -, h⟩ := Verify.bind_eq_ok h
      obtain ⟨fnId, hid, h⟩ := Verify.bind_eq_ok h
      cases h
      obtain ⟨hmod, hname⟩ := lookup_noNul hid
      constructor
      · rw [List.append_nil]
        rfl
      · simp only [indexOf, List.length_append, List.length_singleton]
        omega
      · intro hs
        have himports : (s.hostFnIds ++ [fnId]).length = s.hostFnIds.length + 1 := by
          rw [List.length_append, List.length_singleton]
        refine ⟨?_, ?_, ?_⟩
        · simp only [indexOf, himports]
          exact hs.mods.push hmod
        · simp only [indexOf, himports]
          exact hs.names.push hname
        · simp only [indexOf, himports]
          exact hs.envs.push (label_noNul fnId)

/-! ### The other sections -/

theorem addTypes_grows {s t : TState} {tys : List CompositeType} (h : addTypes tys s = .ok t) :
    Grows [] 0 0 s t := by
  rw [addTypes_ok h]
  exact .of_eq rfl

theorem addMemory_grows {s t : TState} {mt : MemoryType} (h : addMemory s mt = .ok t) :
    Grows [] 0 0 s t := by
  rw [addMemory_ok h]
  exact .of_eq rfl

theorem addTable_grows {s t : TState} {tab : TableEntry} (h : addTable s tab = .ok t) :
    Grows [] 0 0 s t := by
  rw [addTable_ok h]
  exact .of_eq rfl

theorem addElement_grows {s t : TState} {el : Element} (h : addElement s el = .ok t) :
    Grows [] 0 0 s t := by
  obtain ⟨e, rfl⟩ := addElement_ok h
  exact .of_eq rfl

theorem addData_grows {s t : TState} {d : Data} (h : addData s d = .ok t) : Grows [] 0 0 s t := by
  obtain ⟨e, rfl⟩ := addData_ok h
  exact .of_eq rfl

theorem addGlobal_grows {s t : TState} {g : GlobalEntry} (h : addGlobal s g = .ok t) :
    Grows [] 0 0 s t := by
  obtain ⟨x, rfl⟩ := addGlobal_ok h
  exact .of_eq rfl

theorem exportSection_grows (exs : List (Parsed Export)) :
    ∀ {s t : TState}, Translate.each "export" addExport exs s = .ok t →
      Grows (exs.filterMap functionExport) 0 0 s t := by
  induction exs with
  | nil =>
    intro s t h
    cases h
    exact .of_eq rfl
  | cons ex exs ih =>
    intro s t h
    cases ex with
    | error e => cases h
    | ok ex =>
      obtain ⟨u, hu, h⟩ := Verify.bind_eq_ok h
      have hrest := ih h
      unfold addExport at hu
      by_cases hfunc : ex.isFunc = true
      · rw [if_pos hfunc] at hu
        cases hu
        have hone : Grows [ex.name] 0 0 s
            { s with exports := s.exports ++ [(ex.name, ex.index)] } := by
          refine ⟨?_, ?_, fun hs => ⟨hs.mods, hs.names, hs.envs⟩⟩
          · simp only [indexOf, List.map_append, List.map_cons, List.map_nil]
          · simp only [indexOf]
            omega
        rw [List.filterMap_cons_some (show functionExport (.ok ex) = some ex.name from if_pos hfunc)]
        exact hone.trans hrest
      · rw [if_neg hfunc] at hu
        cases hu
        rwa [List.filterMap_cons_none (show functionExport (.ok ex) = none from if_neg hfunc)]

theorem functionSection_grows (idxs : List (Parsed Nat)) :
    ∀ {s t : TState}, Translate.payload s (.functionSection idxs) = .ok t →
      Grows [] idxs.length 0 s t := by
  induction idxs with
  | nil =>
    intro s t h
    cases h
    exact .of_eq rfl
  | cons i idxs ih =>
    intro s t h
    cases i with
    | error e => cases h
    | ok i =>
      have hrest := ih (show Translate.payload { s with funcTypeidx := s.funcTypeidx ++ [i] }
        (.functionSection idxs) = .ok t from h)
      have hone : Grows [] 1 0 s { s with funcTypeidx := s.funcTypeidx ++ [i] } := by
        refine ⟨?_, ?_, fun hs => ⟨hs.mods, hs.names, hs.envs⟩⟩
        · rw [List.append_nil]
          rfl
        · simp only [indexOf, List.length_append, List.length_singleton]
          omega
      rw [List.length_cons, Nat.add_comm]
      exact hone.trans hrest

theorem lowerBody_grows (s : TState) (ft : FuncType) (n : Nat) (ops : List Operator) :
    Grows [] 0 1 s (Translate.lowerBody s ft n ops) := by
  have hindex : indexOf (Translate.lowerBody s ft n ops) =
      { indexOf s with funcs := s.funcs.length + 1 } := by
    unfold Translate.lowerBody
    dsimp only
    split
    · simp only [indexOf, List.length_append, List.length_singleton]
    · simp only [indexOf, List.length_append, List.length_singleton]
  refine ⟨?_, ?_, fun hs => ?_⟩
  · rw [hindex, List.append_nil]
  · rw [hindex]
    simp only [indexOf]
    omega
  · rw [hindex]
    exact ⟨hs.mods, hs.names, hs.envs⟩

theorem payload_grows {s t : TState} {pl : Payload} (h : Translate.payload s pl = .ok t) :
    Grows (payloadExports (.ok pl)) (payloadDeclared (.ok pl)) (payloadDefined (.ok pl)) s t := by
  cases pl with
  | typeSection recs => exact each_grows (fun _ _ _ h => addTypes_grows h) h
  | functionSection idxs => exact functionSection_grows idxs h
  | importSection imps => exact each_grows (fun _ _ _ h => addImport_grows h) h
  | memorySection mems => exact each_grows (fun _ _ _ h => addMemory_grows h) h
  | tableSection tabs => exact each_grows (fun _ _ _ h => addTable_grows h) h
  | elementSection els => exact each_grows (fun _ _ _ h => addElement_grows h) h
  | dataSection segs => exact each_grows (fun _ _ _ h => addData_grows h) h
  | globalSection gs => exact each_grows (fun _ _ _ h => addGlobal_grows h) h
  | exportSection exs => exact exportSection_grows exs h
  | codeSectionEntry body =>
    have h' : Translate.addCode s body = .ok t := h
    rw [translate_addCode_eq] at h'
    cases ha : bodyArgs s body with
    | error e =>
      rw [ha] at h'
      cases h'
    | ok a =>
      rw [ha] at h'
      cases h'
      exact lowerBody_grows s a.1 a.2.1 a.2.2
  | startSection => cases h
  | dataCountSection | other =>
    cases h
    exact .of_eq rfl

theorem payloads_grows (payloads : List (Parsed Payload)) :
    ∀ {s t : TState}, Translate.each "parse" Translate.payload payloads s = .ok t →
      Grows (functionExports payloads) (declared payloads) (defined payloads) s t := by
  induction payloads with
  | nil =>
    intro s t h
    cases h
    exact .of_eq rfl
  | cons pl payloads ih =>
    intro s t h
    cases pl with
    | error e => cases h
    | ok pl =>
      obtain ⟨u, hu, h⟩ := Verify.bind_eq_ok h
      exact (payload_grows hu).trans (ih h)

/-! ## The module -/

theorem layoutData_lengths {memSize : Nat} (segs : List (Bool × Nat × List Byte)) :
    ∀ {l l' : Layout}, Translate.layoutData memSize segs l = .ok l' →
      l.dataOff.length = l.dataLive.length → l.dataLen.length = l.dataLive.length →
      l'.dataOff.length = l'.dataLive.length ∧ l'.dataLen.length = l'.dataLive.length := by
  induction segs with
  | nil =>
    intro l l' h h1 h2
    cases h
    exact ⟨h1, h2⟩
  | cons seg segs ih =>
    obtain ⟨active, off, bytes⟩ := seg
    intro l l' h h1 h2
    unfold Translate.layoutData at h
    by_cases hout : active = true ∧ off + bytes.length > memSize
    · rw [if_pos hout] at h
      cases h
    · rw [if_neg hout] at h
      refine ih h ?_ ?_
      · simp only [List.length_append, List.length_singleton, h1]
      · simp only [List.length_append, List.length_singleton, h2]

/-- What the arrays of an accepted module have in common. -/
theorem finish_handed {s : TState} {m : HostModule} (hs : ImportsOk (indexOf s))
    (h : Translate.finish s = .ok m) : Handed m := by
  obtain ⟨fp, l, table, -, hbig, hl, -, -, rfl⟩ := finish_eq_ok.mp h
  obtain ⟨h1, h2⟩ := layoutData_lengths s.pendingData hl rfl rfl
  refine ⟨?_, h1, h2, rfl, hs.mods, hs.names, hs.envs⟩
  have hcap : min (s.memMaxPages.getD 1024) 1024 ≤ 1024 := Nat.min_le_right _ _
  show (if s.hasMemory = true then min (s.memMaxPages.getD 1024) 1024 * WASM_PAGE else 0) < 2 ^ 32
  unfold WASM_PAGE
  split <;> omega

/-- The names and counts of an accepted module. -/
theorem translated_index {payloads : List (Parsed Payload)} {m : HostModule}
    (h : CuWasm.translateWasm payloads = .ok m) :
    Handed m ∧ m.exports.map (·.1) = functionExports payloads ∧
      m.funcTypeidx.length + defined payloads = m.funcs.length + declared payloads := by
  obtain ⟨s, hs, hm⟩ := Verify.bind_eq_ok h
  have hgrows := payloads_grows payloads hs
  have himports := hgrows.imports ⟨⟨rfl, fun x hx => nomatch hx⟩, ⟨rfl, fun x hx => nomatch hx⟩,
    ⟨rfl, fun x hx => nomatch hx⟩⟩
  have hhanded := finish_handed himports hm
  obtain ⟨fp, l, table, -, -, -, -, -, rfl⟩ := finish_eq_ok.mp hm
  refine ⟨hhanded, hgrows.exports, ?_⟩
  have hcounts := hgrows.counts
  simp only [indexOf, List.length_nil, Nat.add_zero] at hcounts
  exact hcounts

/-! ## The exported function -/

theorem translateWasm_twin (payloads : List (Parsed Payload)) :
    Twin Panicked (PayloadsFit payloads {}) (translateWasm .dev payloads)
      (translateWasm .release payloads) := by
  refine ((payloads_twin payloads {}).bind (ψ := fun _ => True) fun s _ => ?_).fits (by simp)
  rw [finish_eq, finish_eq]
  exact Twin.refl (ofErr_not_panicked _)

/-- A panic is no return. -/
theorem error_not_returned (e : Panic) : ¬ Returned (.error e) := by
  rintro ⟨out, ⟨h, -⟩ | ⟨h, -⟩⟩
  · cases h
  · cases h

/-- What the exported function makes of the result of `translate_wasm`. -/
def deliver (p : Profile) : Except Stop HostModule → Except Panic (Int × TranslateOut)
  | .ok m => (moduleOut p m).map fun out => (0, out)
  | .error (.err e) => (cstringErr e).map fun err => (-1, { err := some err })
  | .error (.panic e) => .error e

theorem cuwasm_eq {p : Profile} {parse : List Byte → List (Parsed Payload)}
    {data : Option (List Byte)} {len : Nat} (h : ¬ (data = none ∧ len ≠ 0)) :
    cuwasmTranslateWasm p parse data len =
      deliver p (translateWasm p (parse (bytesAt data len))) := by
  unfold cuwasmTranslateWasm
  rw [if_neg h]
  unfold deliver
  cases translateWasm p (parse (bytesAt data len)) with
  | ok m => rfl
  | error e => cases e <;> rfl

theorem err_returned (p : Profile) (e : String) : Returned (deliver p (.error (.err e))) := by
  obtain ⟨err, herr⟩ := cstringErr_ok e
  unfold deliver
  dsimp only
  rw [herr]
  exact ⟨_, .inr ⟨rfl, rfl⟩⟩

theorem SameButCode.handed {m m' : HostModule} (h : SameButCode m m') (h' : Handed m') :
    Handed m := by
  rw [h.rest]
  exact ⟨h'.memMax, h'.dataOff, h'.dataLen, h'.hostFnId, h'.mods, h'.names, h'.envs⟩

/-- A module that `translate_wasm` accepts is handed over if its names and counts allow it. -/
theorem module_returned_iff (p : Profile) {payloads : List (Parsed Payload)} {m m' : HostModule}
    (hm : CuWasm.translateWasm payloads = .ok m') (hsame : SameButCode m m') :
    Returned (deliver p (.ok m)) ↔ (∀ name ∈ functionExports payloads, NUL ∉ name.toList) ∧
      (p = .dev → declared payloads % 2 ^ 32 = defined payloads % 2 ^ 32) := by
  obtain ⟨hhanded, hexports, hcounts⟩ := translated_index hm
  have hexp : m.exports = m'.exports := by rw [hsame.rest]
  have hidx : m.funcTypeidx = m'.funcTypeidx := by rw [hsame.rest]
  have hnames : (∀ x ∈ m.exports, NUL ∉ x.1.toList) ↔
      ∀ name ∈ functionExports payloads, NUL ∉ name.toList := by
    rw [hexp, ← hexports]
    simp only [List.forall_mem_map]
  have hagree : CountsAgree p m ↔
      (p = .dev → declared payloads % 2 ^ 32 = defined payloads % 2 ^ 32) := by
    unfold CountsAgree
    rw [hidx, hsame.funcs]
    refine imp_congr_right fun _ => ?_
    omega
  rw [← hnames, ← hagree]
  unfold deliver
  dsimp only
  by_cases hclean : ∀ x ∈ m.exports, NUL ∉ x.1.toList
  · rcases moduleOut_of_names (hsame.handed hhanded) hclean (p := p) with
      ⟨hc, out, hout, hset⟩ | ⟨hc, e, he⟩
    · rw [hout]
      exact ⟨fun _ => ⟨hclean, hc⟩, fun _ => ⟨out, .inl ⟨rfl, hset⟩⟩⟩
    · rw [he]
      exact ⟨fun h => absurd h (error_not_returned e), fun h => absurd h.2 hc⟩
  · obtain ⟨e, he⟩ := moduleOut_of_nul hclean (p := p)
    rw [he]
    exact ⟨fun h => absurd h (error_not_returned e), fun h => absurd h.1 hclean⟩

theorem release_returned_iff (p : Profile) (payloads : List (Parsed Payload)) :
    Returned (deliver p (translateWasm .release payloads)) ↔
      (Accepted payloads → ∀ name ∈ functionExports payloads, NUL ∉ name.toList) ∧
        (p = .dev → Accepted payloads → declared payloads % 2 ^ 32 = defined payloads % 2 ^ 32) := by
  rcases release_translate payloads with ⟨m, m', hrel, hm, hsame⟩ | ⟨hno, e, hrel⟩
  · have hacc : Accepted payloads := ⟨m', hm⟩
    rw [hrel, module_returned_iff p hm hsame]
    simp only [hacc, forall_const]
  · rw [hrel]
    refine ⟨fun _ => ⟨fun h => absurd h hno, fun _ h => absurd h hno⟩, fun _ => err_returned p e⟩

/-- The exported function returns, with all arrays or with an error text, exactly for null data and
for the modules that are `Returnable`. -/
theorem translate_returns_iff (p : Profile) (parse : List Byte → List (Parsed Payload))
    (data : Option (List Byte)) (len : Nat) :
    Returned (cuwasmTranslateWasm p parse data len) ↔
      data = none ∧ len ≠ 0 ∨ Returnable p (parse (bytesAt data len)) := by
  by_cases hnull : data = none ∧ len ≠ 0
  · refine ⟨fun _ => .inl hnull, fun _ => ?_⟩
    obtain ⟨err, herr⟩ := cstringErr_ok "null data"
    unfold cuwasmTranslateWasm
    rw [if_pos hnull, herr]
    exact ⟨_, .inr ⟨rfl, rfl⟩⟩
  · simp only [hnull, false_or]
    rw [cuwasm_eq hnull]
    have hiff := release_returned_iff p (parse (bytesAt data len))
    cases p with
    | release =>
      rw [hiff]
      refine ⟨fun h => ⟨h.1, h.2, fun h => nomatch h⟩, fun h => ⟨h.names, h.counts⟩⟩
    | dev =>
      have htwin := translateWasm_twin (parse (bytesAt data len))
      by_cases hfit : PayloadsFit (parse (bytesAt data len)) {}
      · rw [htwin.same hfit, hiff]
        refine ⟨fun h => ⟨h.1, h.2, fun _ => hfit⟩, fun h => ⟨h.names, h.counts⟩⟩
      · obtain ⟨e, he⟩ := htwin.panics hfit
        rw [he]
        exact ⟨fun h => absurd h (error_not_returned e), fun h => absurd (h.fits rfl) hfit⟩

/-- The payloads of a module of 32 bytes: it defines one function without code and exports it under a
name that ends in `NUL`. -/
def nulExport : List (Parsed Payload) :=
  [.ok .other,
    .ok (.typeSection [.ok [.func ([], [])]]),
    .ok (.functionSection [.ok 0]),
    .ok (.exportSection [.ok ⟨String.ofList ['a', NUL], true, 0⟩]),
    .ok .other,
    .ok (.codeSectionEntry ⟨.ok [], .ok [.ok .end_]⟩),
    .ok .other]

def nulExportBytes : List Byte :=
  [0x00, 0x61, 0x73, 0x6d, 0x01, 0x00, 0x00, 0x00,
    0x01, 0x04, 0x01, 0x60, 0x00, 0x00,
    0x03, 0x02, 0x01, 0x00,
    0x07, 0x06, 0x01, 0x02, 0x61, 0x00, 0x00, 0x00,
    0x0a, 0x04, 0x01, 0x02, 0x00, 0x0b]

/-- The payloads of a module of 34 bytes: its function has a parameter, 65535 locals and a
`br_table`. -/
def wideBody : List (Parsed Payload) :=
  [.ok .other,
    .ok (.typeSection [.ok [.func ([.i32], [])]]),
    .ok (.functionSection [.ok 0]),
    .ok .other,
    .ok (.codeSectionEntry
      ⟨.ok [.ok (65535, .i32)], .ok [.ok (.localGet 0), .ok (.brTable [] 0), .ok .end_]⟩),
    .ok .other]

def wideBodyBytes : List Byte :=
  [0x00, 0x61, 0x73, 0x6d, 0x01, 0x00, 0x00, 0x00,
    0x01, 0x05, 0x01, 0x60, 0x01, 0x7f, 0x00,
    0x03, 0x02, 0x01, 0x00,
    0x0a, 0x0d, 0x01, 0x0b, 0x01, 0xff, 0xff, 0x03, 0x7f, 0x20, 0x00, 0x0e, 0x00, 0x00, 0x0b]

/-- The name becomes a string of C with `unwrap`; the index of the scratch local does not fit. -/
theorem translate_panics :
    ¬ Returned (cuwasmTranslateWasm .release (fun _ => nulExport) (some nulExportBytes) 32) ∧
      ¬ Returned (cuwasmTranslateWasm .dev (fun _ => wideBody) (some wideBodyBytes) 34) := by
  have hname : cuwasmTranslateWasm .release (fun _ => nulExport) (some nulExportBytes) 32 =
      .error .unwrap := rfl
  have hscratch : cuwasmTranslateWasm .dev (fun _ => wideBody) (some wideBodyBytes) 34 =
      .error .overflow := rfl
  rw [hname, hscratch]
  exact ⟨error_not_returned _, error_not_returned _⟩

end CuWasm.Checked
