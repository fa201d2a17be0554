import CuWasm.Canonical
import CuWasm.Proofs.TranslateProofs
import CuWasm.Proofs.WidthProofs

/-!
# The sections that are neither types nor functions

The globals of a loaded module are the values of the module's initialisers, and those of valid
initialisers are canonical. The memory is the one that the module declares. The code and the data
segments leave everything else as the sections in front of them have made it.
-/

namespace CuWasm

open Wasm

namespace Translate

variable {s s' u : TState} {M : Module} {ps : List (Parsed Payload)} {m m0 : HostModule}

/-! ## What does not depend on the code -/

/-- The state of the translator without code and data segments. -/
def TState.rest (s : TState) : TState :=
  { s with code := [], consts := [], funcs := [], pendingData := [] }

/-- The payloads of a list, one after another, keep what each of them keeps. -/
theorem each_keeps (hstep : ∀ p, .ok p ∈ ps → ∀ s s', payload s p = .ok s' → s'.rest = s.rest)
    (h : each "parse" payload ps s = .ok s') : s'.rest = s.rest := by
  induction ps generalizing s with
  | nil =>
    cases h
    rfl
  | cons x ps ih =>
    cases x with
    | error e => cases h
    | ok p =>
      obtain ⟨t, ht, h⟩ := Verify.bind_eq_ok h
      rw [ih (fun q hq => hstep q (List.mem_cons_of_mem _ hq)) h]
      exact hstep p (List.mem_cons_self ..) s t ht

theorem addCode_rest {body : FunctionBody} (h : addCode s body = .ok s') : s'.rest = s.rest := by
  unfold addCode at h
  split at h
  · cases h
  · split at h
    · cases h
    · rename_i ft hft
      obtain ⟨locals, -, h⟩ := Verify.bind_eq_ok h
      obtain ⟨n, -, h⟩ := Verify.bind_eq_ok h
      split_ifs at h with hbig
      · cases h
      · obtain ⟨ops, -, h⟩ := Verify.bind_eq_ok h
        obtain ⟨ops', -, h⟩ := Verify.bind_eq_ok h
        cases h
        obtain ⟨f, code', consts', heq, -⟩ := lowerBody_placed s ft n ops'
        rw [heq]
        rfl

theorem addData_rest {d : Data} (h : addData s d = .ok s') : s'.rest = s.rest := by
  unfold addData at h
  split at h
  · split_ifs at h
    obtain ⟨off, -, h⟩ := Verify.bind_eq_ok h
    cases h
    rfl
  · cases h
    rfl

/-- The code and the data segments leave the rest of the state as the sections in front of them have made
it. -/
theorem loaded_rest (he : Encodes M ps) (hm : loadWasm ps = .ok m) :
    ∃ s u m1, M.before 0 = .ok s ∧ u.rest = s.rest ∧ finish u = .ok m1 ∧
      m = { m1 with funcTypeidx := m1.funcTypeidx.take m1.funcs.length } := by
  obtain ⟨m1, hm1, hm⟩ := Verify.bind_eq_ok hm
  cases hm
  obtain ⟨u, hu, hfin⟩ := Verify.bind_eq_ok hm1
  rw [each_encodes he, Module.payloads, each_append, each_append] at hu
  obtain ⟨t, ht, hu⟩ := Verify.bind_eq_ok hu
  obtain ⟨s, hs, ht⟩ := Verify.bind_eq_ok ht
  refine ⟨s, u, m1, ?_, ?_, hfin, rfl⟩
  · rw [Module.before, List.take_zero, List.map_nil, List.append_nil]
    exact hs
  · obtain ⟨v, hv, hu⟩ := Verify.bind_eq_ok hu
    cases hu
    have hcode : t.rest = s.rest := by
      refine each_keeps (fun p hp s s' hstep => ?_) ht
      obtain ⟨c, -, hc⟩ := List.mem_map.mp hp
      cases hc
      exact addCode_rest hstep
    refine Eq.trans ?_ hcode
    exact each_invariant (P := fun v => v.rest = t.rest) (fun s d s' hs hd => (addData_rest hd).trans hs)
      rfl hv

/-! ## Globals and memories -/

/-- What the sections that describe neither memories nor globals leave alone. -/
structure SameInit (s s' : TState) : Prop where
  globals : s'.globals = s.globals
  hasMemory : s'.hasMemory = s.hasMemory
  memMin : s'.memMin = s.memMin
  memMaxPages : s'.memMaxPages = s.memMaxPages

theorem SameInit.refl (s : TState) : SameInit s s := ⟨rfl, rfl, rfl, rfl⟩

theorem SameInit.trans {a b c : TState} (h : SameInit a b) (h' : SameInit b c) : SameInit a c :=
  ⟨h'.1.trans h.1, h'.2.trans h.2, h'.3.trans h.3, h'.4.trans h.4⟩

theorem SameInit.of_rest (h : s'.rest = s.rest) : SameInit s s' := by
  simp only [TState.rest, TState.mk.injEq] at h
  obtain ⟨-, -, -, -, -, -, h1, h2, h3, h4, -⟩ := h
  exact ⟨h1, h4, h2, h3⟩

theorem each_sameInit {α : Type} {what : String} {f : TState → α → Except String TState}
    (hf : ∀ s a s', f s a = .ok s' → SameInit s s') {xs : List (Parsed α)}
    (h : each what f xs s = .ok s') : SameInit s s' :=
  each_invariant (P := SameInit s) (fun t a t' ht h => ht.trans (hf t a t' h)) (SameInit.refl s) h

theorem addTypes_sameInit {tys : List CompositeType} (h : addTypes tys s = .ok s') : SameInit s s' := by
  rw [addTypes_ok h]
  exact ⟨rfl, rfl, rfl, rfl⟩

theorem addImport_sameInit {imp : Import} (h : addImport s imp = .ok s') : SameInit s s' := by
  unfold addImport at h
  split at h
  · split at h
    · cases h
    · obtain ⟨-, -, h⟩ := Verify.bind_eq_ok h
      obtain ⟨-, -, h⟩ := Verify.bind_eq_ok h
      obtain ⟨fnId, -, h⟩ := Verify.bind_eq_ok h
      cases h
      exact ⟨rfl, rfl, rfl, rfl⟩
  · cases h

theorem addTable_sameInit {t : TableEntry} (h : addTable s t = .ok s') : SameInit s s' := by
  rw [addTable_ok h]
  exact ⟨rfl, rfl, rfl, rfl⟩

theorem addElement_sameInit {el : Element} (h : addElement s el = .ok s') : SameInit s s' := by
  obtain ⟨e, rfl⟩ := addElement_ok h
  exact ⟨rfl, rfl, rfl, rfl⟩

theorem addExport_sameInit {ex : Export} (h : addExport s ex = .ok s') : SameInit s s' := by
  rw [addExport_ok h]
  exact ⟨rfl, rfl, rfl, rfl⟩

/-- Only the memory section and the global section say anything about memories and globals. -/
theorem payload_sameInit {p : Payload} (hm : ∀ ms, p ≠ .memorySection ms)
    (hg : ∀ gs, p ≠ .globalSection gs) (h : payload s p = .ok s') : SameInit s s' := by
  cases p with
  | typeSection recs => exact each_sameInit (fun _ _ _ => addTypes_sameInit) h
  | functionSection idxs =>
    refine each_sameInit (fun t i t' ht => ?_) h
    cases ht
    exact ⟨rfl, rfl, rfl, rfl⟩
  | importSection imps => exact each_sameInit (fun _ _ _ => addImport_sameInit) h
  | memorySection mems => exact absurd rfl (hm mems)
  | tableSection tabs => exact each_sameInit (fun _ _ _ => addTable_sameInit) h
  | elementSection els => exact each_sameInit (fun _ _ _ => addElement_sameInit) h
  | dataSection segs => exact each_sameInit (fun _ _ _ h => .of_rest (addData_rest h)) h
  | globalSection gs => exact absurd rfl (hg gs)
  | exportSection exs => exact each_sameInit (fun _ _ _ => addExport_sameInit) h
  | codeSectionEntry body => exact .of_rest (addCode_rest h)
  | startSection => cases h
  | dataCountSection | other =>
    cases h
    exact .refl _

theorem payloads_sameInit (hm : ∀ ms, (.ok (.memorySection ms) : Parsed Payload) ∉ ps)
    (hg : ∀ gs, (.ok (.globalSection gs) : Parsed Payload) ∉ ps)
    (h : each "parse" payload ps s = .ok s') : SameInit s s' := by
  induction ps generalizing s with
  | nil =>
    cases h
    exact .refl _
  | cons p ps ih =>
    cases p with
    | error e => cases h
    | ok p =>
      obtain ⟨t, ht, h⟩ := Verify.bind_eq_ok h
      have hhead : SameInit s t := by
        refine payload_sameInit (fun ms hms => hm ms ?_) (fun gs hgs => hg gs ?_) ht
        · rw [hms]
          exact List.mem_cons_self ..
        · rw [hgs]
          exact List.mem_cons_self ..
      exact hhead.trans (ih (fun ms hms => hm ms (List.mem_cons_of_mem _ hms))
        (fun gs hgs => hg gs (List.mem_cons_of_mem _ hgs)) h)

/-- The global section adds the values of the initialisers. -/
theorem globalSection_ok {gs : List GlobalEntry} (h : each "global" addGlobal (gs.map .ok) s = .ok s') :
    ∃ xs, s' = { s with globals := s.globals ++ xs } ∧
      List.Forall₂ (fun g x => globalInit g.initExpr none = .ok x) gs xs := by
  induction gs generalizing s with
  | nil =>
    cases h
    exact ⟨[], by rw [List.append_nil], .nil⟩
  | cons g gs ih =>
    obtain ⟨t, ht, h⟩ := Verify.bind_eq_ok h
    obtain ⟨x, hx, rfl⟩ : ∃ x, globalInit g.initExpr none = .ok x ∧
        t = { s with globals := s.globals ++ [x] } := by
      unfold addGlobal at ht
      split at ht
      all_goals
        first
          | (obtain ⟨x, hx, ht⟩ := Verify.bind_eq_ok ht
             cases ht
             exact ⟨x, hx, rfl⟩)
          | cases ht
    obtain ⟨xs, hxs, hall⟩ := ih h
    refine ⟨x :: xs, ?_, .cons hx hall⟩
    rw [hxs, List.append_assoc, List.singleton_append]

/-- The memory that the translator has read is the one of the module. -/
def MemoryRead (mems : List MemoryType) (s : TState) : Prop :=
  mems = [] ∧ s.hasMemory = false ∨ ∃ mt, mems = [mt] ∧ s.hasMemory = true ∧ s.memMin = mt.initial ∧
    s.memMaxPages = mt.maximum

theorem MemoryRead.congr {mems : List MemoryType} (h : MemoryRead mems s) (hs : SameInit s s') :
    MemoryRead mems s' := by
  unfold MemoryRead
  rw [hs.hasMemory, hs.memMin, hs.memMaxPages]
  exact h

/-- A second memory is refused. -/
theorem memorySection_ok {mems : List MemoryType} (h0 : s.hasMemory = false)
    (h : each "memory" addMemory (mems.map .ok) s = .ok s') :
    s'.globals = s.globals ∧ MemoryRead mems s' := by
  cases mems with
  | nil =>
    cases h
    exact ⟨rfl, .inl ⟨rfl, h0⟩⟩
  | cons mt mems =>
    obtain ⟨t, ht, h⟩ := Verify.bind_eq_ok h
    obtain rfl := addMemory_ok ht
    cases mems with
    | nil =>
      cases h
      exact ⟨rfl, .inr ⟨mt, rfl, rfl, rfl, rfl⟩⟩
    | cons mt' mems =>
      obtain ⟨t, ht, -⟩ := Verify.bind_eq_ok h
      cases ht

/-- The globals and the memory behind all payloads. -/
theorem payloads_init (h : each "parse" payload M.payloads {} = .ok s) :
    List.Forall₂ (fun g x => globalInit g.1.initExpr none = .ok x) M.globals s.globals ∧
      MemoryRead M.mems s := by
  have hsplit : M.payloads =
      [.ok (.typeSection (M.types.map .ok)), .ok (.importSection (M.imports.map .ok)),
        .ok (.functionSection (M.funcs.map .ok)), .ok (.tableSection (M.tables.map .ok))] ++
      ([.ok (.memorySection (M.mems.map .ok)), .ok (.globalSection (M.globals.map fun g => .ok g.1))] ++
        (.ok (.exportSection (M.exports.map .ok)) :: ((if M.start then [.ok .startSection] else []) ++
          (.ok (.elementSection (M.elems.map .ok)) :: (M.code.map Module.codeEntry ++
            [.ok (.dataSection (M.datas.map .ok))]))))) := by
    simp [Module.payloads, Module.header]
  rw [hsplit, each_append] at h
  obtain ⟨s1, h1, h⟩ := Verify.bind_eq_ok h
  rw [each_append] at h
  obtain ⟨s3, h3, h⟩ := Verify.bind_eq_ok h
  obtain ⟨s2, h2, h3⟩ := Verify.bind_eq_ok h3
  obtain ⟨s4, h4, h3⟩ := Verify.bind_eq_ok h3
  cases h3
  have hfront : SameInit {} s1 := payloads_sameInit (fun ms hms => by simp at hms)
    (fun gs hgs => by simp at hgs) h1
  have hbehind : SameInit s3 s := by
    refine payloads_sameInit (fun ms hms => ?_) (fun gs hgs => ?_) h
    · simp [Module.codeEntry, List.mem_ite_nil_right] at hms
    · simp [Module.codeEntry, List.mem_ite_nil_right] at hgs
  obtain ⟨hglobals, hmem⟩ := memorySection_ok hfront.hasMemory h2
  have hmap : (M.globals.map fun g => (.ok g.1 : Parsed GlobalEntry)) = (M.globals.map (·.1)).map .ok := by
    rw [List.map_map]
    rfl
  have hsec : each "global" addGlobal ((M.globals.map (·.1)).map .ok) s2 = .ok s3 := hmap ▸ h4
  obtain ⟨xs, rfl, hall⟩ := globalSection_ok hsec
  have hmem' : MemoryRead M.mems { s2 with globals := s2.globals ++ xs } := hmem
  refine ⟨?_, hmem'.congr hbehind⟩
  rw [hbehind.globals, hglobals, hfront.globals]
  exact List.forall₂_map_left_iff.mp hall

/-- The globals of a loaded module. -/
theorem loaded_globals (he : Encodes M ps) (h : loadWasm ps = .ok m) :
    List.Forall₂ (fun g x => globalInit g.1.initExpr none = .ok x) M.globals m.globals := by
  unfold loadWasm translateWasm at h
  rw [each_encodes he] at h
  obtain ⟨m0, hm0, h⟩ := Verify.bind_eq_ok h
  obtain ⟨s, hs, hfin⟩ := Verify.bind_eq_ok hm0
  cases h
  obtain ⟨fp, l, table, -, -, -, -, -, rfl⟩ := finish_eq_ok.mp hfin
  exact (payloads_init hs).1

/-- The value of a valid initialiser is canonical for the last operand in front of its end. -/
theorem globalInit_canonical (b : Body) : ∀ {C : Ctx} {L : List (List ValType)} {r : Bool}
    {ts us : List ValType} {x0 : Option Slot} {x : Slot}, Typed C L r ts b us →
    globalInit (b.function.map .ok) x0 = .ok x →
    (∀ y, x0 = some y → ∃ t ts', ts = t :: ts' ∧ Canonical t y) → ∃ t us', us = t :: us' ∧ Canonical t x := by
  induction b with
  | nil =>
    intro C L r ts us x0 x ht h h0
    cases ht
    cases x0 with
    | none => cases h
    | some y =>
      cases h
      exact h0 x rfl
  | op o rest ih =>
    intro C L r ts us x0 x ht h h0
    cases o with
    | const c =>
      cases ht with
      | op ho hr =>
        cases ho
        refine ih hr h fun y hy => ?_
        cases hy
        exact ⟨_, _, rfl, Structured.constOp_canonical c⟩
    | end_ =>
      cases ht with
      | op ho hr => cases ho
    | _ => cases h
  | block bt b rest ihb ihr | loop bt b rest ihb ihr | ifThen bt b rest ihb ihr
    | ifElse bt b els rest ihb ihe ihr =>
    intro C L r ts us x0 x ht h h0
    cases h

/-- The globals of a loaded module with valid initialisers are canonical. -/
theorem loaded_canonical (he : Encodes M ps) (h : loadWasm ps = .ok m) (hinit : M.InitsValid)
    {k : Nat} {g : GlobalEntry × Bool} (hg : M.globals[k]? = some g) : Canonical g.1.contentType (m.globals.getD k 0) := by
  obtain ⟨hlen, hall⟩ := List.forall₂_iff_get.mp (loaded_globals he h)
  obtain ⟨hk, rfl⟩ := List.getElem?_eq_some_iff.mp hg
  have hx := hall k hk (hlen ▸ hk)
  simp only [List.get_eq_getElem] at hx
  obtain ⟨b, hb, hvalid⟩ := hinit _ (List.getElem_mem hk)
  rw [hb] at hx
  obtain ⟨t, us, heq, hcan⟩ := globalInit_canonical b hvalid hx nofun
  have htype : M.globals[k].1.contentType = t ∧ [] = us := List.cons.inj heq
  rw [htype.1, List.getD_eq_getElem?_getD, List.getElem?_eq_getElem (hlen ▸ hk)]
  exact hcan

end Translate

end CuWasm
