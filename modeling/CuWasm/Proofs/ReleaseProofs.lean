import CuWasm.Proofs.BodyFitProofs
import CuWasm.Proofs.TranslateProofs

/-!
# The release profile and the unbounded translator

Machine integers wrap around in the release profile, so its code can differ from the code of
`CuWasm.translateWasm`. Nothing else does: no section reads the code that was lowered before. So both
translators accept the same modules with the same errors, and every table but the code is the same.
-/

namespace CuWasm.Checked

open Wasm Exit Translate

/-! ## The translator with unbounded integers -/

/-- The state without the code of the functions. -/
def erase (s : TState) : TState :=
  { s with code := [], consts := [], funcs := List.replicate s.funcs.length (stub 0 0 0) }

theorem alike_cases {s t : TState} (h : erase s = erase t) :
    ∃ code consts funcs, funcs.length = s.funcs.length ∧
      t = { s with code := code, consts := consts, funcs := funcs } := by
  cases s
  cases t
  simp only [erase, TState.mk.injEq, true_and, List.replicate_inj] at h
  obtain ⟨rfl, rfl, rfl, ⟨hlen, -⟩, rfl, rfl, rfl, rfl, rfl, rfl, rfl, rfl, rfl, rfl, rfl⟩ := h
  exact ⟨_, _, _, hlen.symm, rfl⟩

/-- Results that differ in the code of the functions at most. -/
def Alike (x y : Except String TState) : Prop := x.map erase = y.map erase

theorem Alike.bind {x y : Except String TState} {f g : TState → Except String TState}
    (h : Alike x y) (hf : ∀ s t, erase s = erase t → Alike (f s) (g t)) :
    Alike (x >>= f) (y >>= g) := by
  cases x with
  | error e =>
    cases y with
    | error e' => exact h
    | ok t => cases h
  | ok s =>
    cases y with
    | error e' => cases h
    | ok t =>
      injection h with h
      exact hf s t h

theorem each_alike {α : Type} {what : String} {f g : TState → α → Except String TState}
    (hf : ∀ s t a, erase s = erase t → Alike (f s a) (g t a)) (xs : List (Parsed α)) :
    ∀ s t, erase s = erase t → Alike (Translate.each what f xs s) (Translate.each what g xs t) := by
  induction xs with
  | nil => exact fun s t h => congrArg Except.ok h
  | cons x xs ih =>
    intro s t h
    cases x with
    | error e => rfl
    | ok a => exact (hf s t a h).bind ih

theorem addTypes_alike (tys : List CompositeType) :
    ∀ s t, erase s = erase t → Alike (addTypes tys s) (addTypes tys t) := by
  induction tys with
  | nil => exact fun s t h => congrArg Except.ok h
  | cons ty tys ih =>
    intro s t h
    cases ty with
    | other => rfl
    | func ft =>
      unfold addTypes
      cases onlyInt ft.1 with
      | error e => rfl
      | ok _ =>
        cases onlyInt ft.2 with
        | error e => rfl
        | ok _ =>
          refine ih _ _ ?_
          obtain ⟨code, consts, funcs, hlen, rfl⟩ := alike_cases h
          simp only [erase, hlen]

theorem addImport_alike (s t : TState) (imp : Import) (h : erase s = erase t) :
    Alike (addImport s imp) (addImport t imp) := by
  obtain ⟨code, consts, funcs, hlen, rfl⟩ := alike_cases h
  unfold addImport
  cases imp.ty with
  | other text => rfl
  | func i =>
    dsimp only
    cases s.funcTypes[i]? with
    | none => rfl
    | some ft =>
      dsimp only
      cases onlyInt ft.1 with
      | error e => rfl
      | ok _ =>
        cases onlyInt ft.2 with
        | error e => rfl
        | ok _ =>
          cases EnvFnId.lookup imp.module imp.name with
          | error e => rfl
          | ok fnId =>
            refine congrArg Except.ok ?_
            simp only [erase, List.length_append, hlen]

theorem addMemory_alike (s t : TState) (mt : MemoryType) (h : erase s = erase t) :
    Alike (addMemory s mt) (addMemory t mt) := by
  obtain ⟨code, consts, funcs, hlen, rfl⟩ := alike_cases h
  unfold addMemory
  dsimp only
  split_ifs <;> first | rfl | exact congrArg Except.ok (by simp only [erase, hlen])

theorem addTable_alike (s t : TState) (tab : TableEntry) (h : erase s = erase t) :
    Alike (addTable s tab) (addTable t tab) := by
  obtain ⟨code, consts, funcs, hlen, rfl⟩ := alike_cases h
  unfold addTable
  dsimp only
  split_ifs <;> first | rfl | exact congrArg Except.ok (by simp only [erase, hlen])

theorem addElement_alike (s t : TState) (el : Element) (h : erase s = erase t) :
    Alike (addElement s el) (addElement t el) := by
  obtain ⟨code, consts, funcs, hlen, rfl⟩ := alike_cases h
  have hput (off : Nat) : Alike
      (elemItems el.items >>= fun idxs =>
        Except.ok { s with pendingElem := s.pendingElem ++ [(off, idxs)] })
      (elemItems el.items >>= fun idxs =>
        Except.ok { s with
          code := code, consts := consts, funcs := funcs
          pendingElem := s.pendingElem ++ [(off, idxs)] }) := by
    cases elemItems el.items with
    | error e => rfl
    | ok idxs => exact congrArg Except.ok (by simp only [erase, hlen])
  unfold addElement
  cases el.kind with
  | passive => rfl
  | declared => rfl
  | active tableIndex offset =>
    dsimp only
    split_ifs
    · rfl
    · cases evalI32Expr offset with
      | error e => rfl
      | ok off => exact hput off

theorem addData_alike (s t : TState) (d : Data) (h : erase s = erase t) :
    Alike (addData s d) (addData t d) := by
  obtain ⟨code, consts, funcs, hlen, rfl⟩ := alike_cases h
  unfold addData
  cases d.kind with
  | passive => exact congrArg Except.ok (by simp only [erase, hlen])
  | active memoryIndex offset =>
    dsimp only
    split_ifs
    · rfl
    · cases evalI32Expr offset with
      | error e => rfl
      | ok off => exact congrArg Except.ok (by simp only [erase, hlen])

theorem addGlobal_alike (s t : TState) (g : GlobalEntry) (h : erase s = erase t) :
    Alike (addGlobal s g) (addGlobal t g) := by
  obtain ⟨code, consts, funcs, hlen, rfl⟩ := alike_cases h
  have hput : Alike (globalInit g.initExpr none >>= fun x =>
        Except.ok { s with globals := s.globals ++ [x] })
      (globalInit g.initExpr none >>= fun x =>
        Except.ok { s with
          code := code, consts := consts, funcs := funcs
          globals := s.globals ++ [x] }) := by
    cases globalInit g.initExpr none with
    | error e => rfl
    | ok x => exact congrArg Except.ok (by simp only [erase, hlen])
  unfold addGlobal
  cases g.contentType
  case i32 | i64 | f32 | f64 => exact hput
  all_goals rfl

theorem addExport_alike (s t : TState) (ex : Export) (h : erase s = erase t) :
    Alike (addExport s ex) (addExport t ex) := by
  obtain ⟨code, consts, funcs, hlen, rfl⟩ := alike_cases h
  unfold addExport
  split_ifs
  · exact congrArg Except.ok (by simp only [erase, hlen])
  · exact congrArg Except.ok h

/-- The sections that do not read the code. -/
theorem payload_alike {pl : Payload} (hcode : ∀ body, pl ≠ .codeSectionEntry body) (s t : TState)
    (h : erase s = erase t) : Alike (Translate.payload s pl) (Translate.payload t pl) := by
  cases pl with
  | typeSection recs => exact each_alike (fun s t tys h => addTypes_alike tys s t h) recs s t h
  | functionSection idxs =>
    refine each_alike (fun s t i h => ?_) idxs s t h
    obtain ⟨code, consts, funcs, hlen, rfl⟩ := alike_cases h
    exact congrArg Except.ok (by simp only [erase, hlen])
  | importSection imps => exact each_alike addImport_alike imps s t h
  | memorySection mems => exact each_alike addMemory_alike mems s t h
  | tableSection tabs => exact each_alike addTable_alike tabs s t h
  | elementSection els => exact each_alike addElement_alike els s t h
  | dataSection segs => exact each_alike addData_alike segs s t h
  | globalSection gs => exact each_alike addGlobal_alike gs s t h
  | exportSection exs => exact each_alike addExport_alike exs s t h
  | codeSectionEntry body => exact absurd rfl (hcode body)
  | startSection => rfl
  | dataCountSection | other => exact congrArg Except.ok h

/-- The state behind one more function, up to its code. -/
def grown (s : TState) : TState := erase { s with funcs := s.funcs ++ [stub 0 0 0] }

theorem erase_push (s : TState) (code : List CuOp) (consts : List Slot) (f : FuncMeta) :
    erase { s with code := code, consts := consts, funcs := s.funcs ++ [f] } = grown s := by
  simp only [grown, erase, List.length_append, List.length_singleton]

theorem pushBody_erase {s u : TState} {nParams nResults : Nat}
    {r : Except Stop FuncMeta × List CuOp × List Slot} (h : pushBody s nParams nResults r = .ok u) :
    erase u = grown s := by
  obtain ⟨r, code, consts⟩ := r
  rcases r with (e | e) | f
  · cases h
    exact erase_push s _ _ _
  · cases h
  · cases h
    exact erase_push s _ _ _

theorem pushBody_error {s : TState} {nParams nResults : Nat}
    {r : Except Stop FuncMeta × List CuOp × List Slot} {e : Stop}
    (h : pushBody s nParams nResults r = .error e) : ∃ q, e = .panic q := by
  obtain ⟨r, code, consts⟩ := r
  rcases r with (e' | e') | f
  · cases h
  · cases h
    exact ⟨e', rfl⟩
  · cases h

theorem lowerBody_erase (s : TState) (ft : FuncType) (n : Nat) (ops : List Operator) :
    erase (Translate.lowerBody s ft n ops) = grown s := by
  unfold Translate.lowerBody
  dsimp only
  split
  · exact erase_push s _ _ _
  · exact erase_push s _ _ _

theorem translate_addCode_eq (s : TState) (body : FunctionBody) :
    Translate.addCode s body =
      (bodyArgs s body).map fun a => Translate.lowerBody s a.1 a.2.1 a.2.2 := by
  unfold Translate.addCode bodyArgs
  cases s.funcTypeidx[s.funcs.length]? with
  | none => rfl
  | some tidx =>
    dsimp only
    cases s.funcTypes[tidx]? with
    | none => rfl
    | some ft =>
      dsimp only [bind, Except.bind]
      cases body.locals.mapError ("locals: " ++ ·) with
      | error e => rfl
      | ok locals =>
        dsimp only
        cases countLocals locals with
        | error e => rfl
        | ok n =>
          dsimp only
          split_ifs
          · rfl
          · cases body.ops.mapError ("ops: " ++ ·) with
            | error e => rfl
            | ok ops =>
              dsimp only
              cases collect "op" ops with
              | error e => rfl
              | ok ops' => rfl

theorem bodyArgs_congr {s t : TState} (h : erase s = erase t) (body : FunctionBody) :
    bodyArgs s body = bodyArgs t body := by
  obtain ⟨code, consts, funcs, hlen, rfl⟩ := alike_cases h
  unfold bodyArgs
  dsimp only
  rw [hlen]

/-- The release profile and the unbounded translator make the same of a payload, up to code. -/
theorem release_payload (s t : TState) (h : erase s = erase t) (pl : Payload) :
    (payload .release s pl).map erase = ofErr ((Translate.payload t pl).map erase) := by
  by_cases hcode : ∃ body, pl = .codeSectionEntry body
  · obtain ⟨body, rfl⟩ := hcode
    show (addCode .release s body).map erase = ofErr ((Translate.addCode t body).map erase)
    rw [addCode_eq, translate_addCode_eq, bodyArgs_congr h body]
    cases ha : bodyArgs t body with
    | error e => rfl
    | ok a =>
      show (lowerBody .release s a.1 a.2.1 a.2.2).map erase = _
      have hquiet := (lowerBody_twin s a.1 (bodyArgs_locals ha) a.2.2).quiet
      cases hlow : lowerBody .release s a.1 a.2.1 a.2.2 with
      | error e =>
        obtain ⟨q, rfl⟩ := pushBody_error hlow
        exact absurd ⟨q, hlow⟩ hquiet
      | ok u =>
        show Except.ok (erase u) = Except.ok (erase (Translate.lowerBody t a.1 a.2.1 a.2.2))
        rw [pushBody_erase hlow, lowerBody_erase]
        obtain ⟨code, consts, funcs, hlen, rfl⟩ := alike_cases h
        simp only [grown, erase, List.length_append, hlen]
  · have hself : payload .release s pl = ofErr (Translate.payload s pl) := by
      cases pl with
      | codeSectionEntry body => exact absurd ⟨body, rfl⟩ hcode
      | _ => rfl
    have halike := payload_alike (fun body hb => hcode ⟨body, hb⟩) s t h
    unfold Alike at halike
    rw [hself, ← halike]
    cases Translate.payload s pl <;> rfl

/-- The loop over the payloads. -/
theorem release_payloads (payloads : List (Parsed Payload)) :
    ∀ s t, erase s = erase t →
      (each "parse" (payload .release) payloads s).map erase =
        ofErr ((Translate.each "parse" Translate.payload payloads t).map erase) := by
  induction payloads with
  | nil => exact fun s t h => congrArg Except.ok h
  | cons pl payloads ih =>
    intro s t h
    cases pl with
    | error e => rfl
    | ok pl =>
      have hpl := release_payload s t h pl
      show (payload .release s pl >>= each "parse" (payload .release) payloads).map erase =
        ofErr ((Translate.payload t pl >>=
          Translate.each "parse" Translate.payload payloads).map erase)
      cases hs : payload .release s pl with
      | error e =>
        cases ht : Translate.payload t pl with
        | error e' =>
          rw [hs, ht] at hpl
          injection hpl with hpl
          subst hpl
          rfl
        | ok u =>
          rw [hs, ht] at hpl
          cases hpl
      | ok s' =>
        cases ht : Translate.payload t pl with
        | error e' =>
          rw [hs, ht] at hpl
          cases hpl
        | ok t' =>
          rw [hs, ht] at hpl
          injection hpl with hpl
          exact ih s' t' hpl

/-! ## The module -/

/-- Modules that differ in the code of the functions at most. -/
structure SameButCode (m m' : HostModule) : Prop where
  funcs : m.funcs.length = m'.funcs.length
  rest : m = { m' with code := m.code, consts := m.consts, funcs := m.funcs }

theorem finish_alike {s t : TState} (h : erase s = erase t) {m : HostModule}
    (hm : Translate.finish s = .ok m) : ∃ m', Translate.finish t = .ok m' ∧ SameButCode m m' := by
  obtain ⟨code, consts, funcs, hlen, rfl⟩ := alike_cases h
  obtain ⟨fp, l, table, hfp, hbig, hl, htab, hempty, rfl⟩ := finish_eq_ok.mp hm
  refine ⟨_, finish_eq_ok.mpr ⟨fp, l, table, hfp, hbig, hl, htab, ?_, rfl⟩, hlen.symm, rfl⟩
  rw [List.isEmpty_iff_length_eq_zero] at hempty ⊢
  rwa [hlen]

/-- The state behind the payloads, in the release profile and with unbounded integers. -/
theorem release_state (payloads : List (Parsed Payload)) :
    (∃ s t, each "parse" (payload .release) payloads {} = .ok s ∧
        Translate.each "parse" Translate.payload payloads {} = .ok t ∧ erase s = erase t) ∨
      ∃ e, each "parse" (payload .release) payloads {} = .error (.err e) ∧
        Translate.each "parse" Translate.payload payloads {} = .error e := by
  have h := release_payloads payloads {} {} rfl
  cases hs : each "parse" (payload .release) payloads {} with
  | error e =>
    cases ht : Translate.each "parse" Translate.payload payloads {} with
    | error e' =>
      rw [hs, ht] at h
      injection h with h
      subst h
      exact .inr ⟨e', rfl, rfl⟩
    | ok t =>
      rw [hs, ht] at h
      cases h
  | ok s =>
    cases ht : Translate.each "parse" Translate.payload payloads {} with
    | error e' =>
      rw [hs, ht] at h
      cases h
    | ok t =>
      rw [hs, ht] at h
      injection h with h
      exact .inl ⟨s, t, rfl, rfl, h⟩

/-- The module of the release profile, if `translate_wasm` accepts; otherwise the error. -/
theorem release_translate (payloads : List (Parsed Payload)) :
    (∃ m m', translateWasm .release payloads = .ok m ∧
        CuWasm.translateWasm payloads = .ok m' ∧ SameButCode m m') ∨
      (¬ Accepted payloads ∧ ∃ e, translateWasm .release payloads = .error (.err e)) := by
  unfold translateWasm Accepted CuWasm.translateWasm
  rcases release_state payloads with ⟨s, t, hs, ht, hst⟩ | ⟨e, hs, ht⟩
  · rw [hs, ht]
    show (∃ m m', finish .release s = .ok m ∧ Translate.finish t = .ok m' ∧ SameButCode m m') ∨
      (¬ ∃ m', Translate.finish t = .ok m') ∧ ∃ e, finish .release s = .error (.err e)
    rw [finish_eq]
    cases hm : Translate.finish s with
    | ok m =>
      obtain ⟨m', hm', hsame⟩ := finish_alike hst hm
      exact .inl ⟨m, m', rfl, hm', hsame⟩
    | error e =>
      refine .inr ⟨?_, e, rfl⟩
      rintro ⟨m', hm'⟩
      obtain ⟨m, hm'', -⟩ := finish_alike hst.symm hm'
      rw [hm] at hm''
      cases hm''
  · rw [hs, ht]
    refine .inr ⟨?_, e, rfl⟩
    rintro ⟨m', hm'⟩
    cases hm'

end CuWasm.Checked
