import CuWasm.PanicFree
import CuWasm.Proofs.OverflowProofs
import CuWasm.Proofs.VerifyProofs

/-!
# Bodies and payloads in both profiles

The two profiles are carried from the operators of a body to the loop over the payloads. What follows
the loop does not panic in either of them: fingerprints shift by less than 64 bits, and segments are
copied into memory only after their bounds are checked.
-/

namespace CuWasm.Checked

open Wasm Exit Translate

/-! ## Two results -/

/-- The result `x` is a panic where `φ` does not hold, and the result `y`, which is none, where it
does. -/
structure Twin {γ : Type} (Panics : γ → Prop) (φ : Prop) (x y : γ) : Prop where
  same : φ → x = y
  panics : ¬ φ → Panics x
  quiet : ¬ Panics y

theorem Twin.refl {γ : Type} {Panics : γ → Prop} {x : γ} (h : ¬ Panics x) : Twin Panics True x x :=
  ⟨fun _ => rfl, fun h => absurd trivial h, h⟩

theorem Twin.fits {γ : Type} {Panics : γ → Prop} {φ ψ : Prop} {x y : γ} (h : Twin Panics φ x y)
    (hφ : φ ↔ ψ) : Twin Panics ψ x y :=
  ⟨fun h' => h.same (hφ.mpr h'), fun h' => h.panics fun h'' => h' (hφ.mp h''), h.quiet⟩

theorem Twin.map {γ δ : Type} {Panics : γ → Prop} {Panics' : δ → Prop} {φ : Prop} {x y : γ}
    (h : Twin Panics φ x y) {f : γ → δ} (hf : ∀ z, Panics' (f z) ↔ Panics z) :
    Twin Panics' φ (f x) (f y) :=
  ⟨fun h' => congrArg f (h.same h'), fun h' => (hf x).mpr (h.panics h'),
    fun h' => h.quiet ((hf y).mp h')⟩

/-- The result is a panic. -/
def Panicked {α : Type} (r : Except Stop α) : Prop := ∃ e, r = .error (.panic e)

theorem ok_not_panicked {α : Type} (a : α) : ¬ Panicked (.ok a : Except Stop α) := by
  rintro ⟨e, h⟩
  cases h

theorem err_not_panicked {α : Type} (e : String) : ¬ Panicked (.error (.err e) : Except Stop α) := by
  rintro ⟨e, h⟩
  cases h

theorem ofErr_not_panicked {α : Type} (x : Except String α) : ¬ Panicked (ofErr x) := by
  cases x with
  | ok a => exact ok_not_panicked a
  | error e => exact err_not_panicked e

theorem ofErr_eq_ok {α : Type} {x : Except String α} {a : α} : ofErr x = .ok a ↔ x = .ok a := by
  cases x with
  | ok b => exact Iff.of_eq (by simp only [ofErr, Except.mapError, Except.ok.injEq])
  | error e => exact ⟨fun h => (by cases h), fun h => (by cases h)⟩

/-- A result that is used. -/
theorem Twin.bind {α β : Type} {φ : Prop} {ψ : α → Prop} {x y : Except Stop α}
    {f g : α → Except Stop β} (h : Twin Panicked φ x y)
    (hf : ∀ a, y = .ok a → Twin Panicked (ψ a) (f a) (g a)) :
    Twin Panicked (φ ∧ ∀ a, y = .ok a → ψ a) (x >>= f) (y >>= g) := by
  cases hy : y with
  | error e =>
    refine ⟨fun h' => ?_, fun h' => ?_, fun h' => ?_⟩
    · rw [h.same h'.1, hy]
      rfl
    · have hφ : ¬ φ := fun hφ => h' ⟨hφ, fun a ha => nomatch ha⟩
      obtain ⟨p, hp⟩ := h.panics hφ
      exact ⟨p, by rw [hp]; rfl⟩
    · obtain ⟨p, hp⟩ := h'
      cases hp
      exact h.quiet ⟨p, hy⟩
  | ok a =>
    have hfa := hf a hy
    refine ⟨fun h' => ?_, fun h' => ?_, hfa.quiet⟩
    · rw [h.same h'.1, hy]
      exact hfa.same (h'.2 a rfl)
    · by_cases hφ : φ
      · rw [h.same hφ, hy]
        refine hfa.panics fun hψ => h' ⟨hφ, fun b hb => ?_⟩
        cases hb
        exact hψ
      · obtain ⟨p, hp⟩ := h.panics hφ
        exact ⟨p, by rw [hp]; rfl⟩

/-! ## One body -/

theorem initState_tracked (code : List CuOp) (consts : List Slot) {nResults : Nat}
    (h : nResults < 2 ^ 16) : Tracked [] (initState code consts nResults) := by
  constructor
  · show FitsI32 0
    unfold FitsI32
    decide
  · intro c hc
    obtain rfl := List.mem_singleton.mp hc
    constructor
    · dsimp only
      decide
    · dsimp only
      decide
    · exact h
    · exact fun q hq => nomatch hq
    · exact fun q hq => nomatch hq
    · exact fun q hq => nomatch hq
  · exact fun q hq => nomatch hq

theorem passEnd_twin (env : LowerEnv) {codeOff : Nat} (hoff : codeOff < 2 ^ 32) (s : LState) :
    Twin Panicked (s.ctrl = [] → codeOff ≤ s.code.length % 2 ^ 32) (passEnd .dev env codeOff s)
      (passEnd .release env codeOff s) := by
  unfold passEnd
  by_cases hctrl : s.ctrl = []
  · have hwrap : wrapU32 ((s.code.length % 2 ^ 32 : Nat) - codeOff) =
        ((s.code.length % 2 ^ 32 : Nat) - codeOff : Int) ↔ codeOff ≤ s.code.length % 2 ^ 32 := by
      rw [wrapU32_eq_iff]
      omega
    simp only [hctrl, ne_eq, not_true, if_false, forall_const, arith]
    constructor
    · intro h
      rw [if_pos (hwrap.mpr h), hwrap.mpr h]
    · intro h
      rw [if_neg fun h' => h (hwrap.mp h')]
      exact ⟨_, rfl⟩
    · exact ok_not_panicked _
  · rw [if_pos hctrl, if_pos hctrl]
    exact (Twin.refl (err_not_panicked _)).fits (by simp [hctrl])

/-- A pass with code and constants panicked. -/
def PassPanicked (r : Except Stop FuncMeta × List CuOp × List Slot) : Prop := Panicked r.1

/-- The loop and what follows it. -/
theorem runPass_twin {env : LowerEnv} (henv : EnvOk env) (ops : List Operator) (code : List CuOp)
    (consts : List Slot) :
    Twin PassPanicked
      (OperatorsFit env ops (initState code consts env.nResults) ∧
        ∀ t, Lower.operators .release env ops (initState code consts env.nResults) = .ok () t →
          t.ctrl = [] → code.length % 2 ^ 32 ≤ t.code.length % 2 ^ 32)
      (runPass .dev env ops code consts) (runPass .release env ops code consts) := by
  have hdiff := Lower.operators_differ (X := []) henv ops
  have hinit := initState_tracked code consts henv.nResults
  have hoff : code.length % 2 ^ 32 < 2 ^ 32 := Nat.mod_lt _ (by decide)
  unfold runPass
  by_cases hfit : OperatorsFit env ops (initState code consts env.nResults)
  · rw [hdiff.same _ hinit hfit]
    cases hrun : Lower.operators .release env ops (initState code consts env.nResults) with
    | error e t =>
      have he := (hdiff.spec _ hinit).2 e t hrun
      refine (Twin.refl ?_).fits (by simp [hfit])
      rintro ⟨q, hq⟩
      cases hq
      exact he ⟨q, rfl⟩
    | ok _ t =>
      have htwin := passEnd_twin env hoff t
      refine Twin.fits (htwin.map (f := fun r => (r, t.code, t.consts)) fun _ => Iff.rfl) ?_
      simp [hfit]
  · obtain ⟨e, t, hrun, q, rfl⟩ := hdiff.bad _ hinit hfit
    refine ⟨fun h => absurd h.1 hfit, fun _ => ?_, ?_⟩
    · rw [hrun]
      exact ⟨q, rfl⟩
    · cases hrun' : Lower.operators .release env ops (initState code consts env.nResults) with
      | error e t =>
        have he := (hdiff.spec _ hinit).2 e t hrun'
        rintro ⟨q, hq⟩
        cases hq
        exact he ⟨q, rfl⟩
      | ok _ t => exact (passEnd_twin env hoff t).quiet

theorem arith_fits {wrap : Int → Int} {x : Int} (h : wrap x = x) (p : Profile) :
    arith p wrap x = .ok x := by
  cases p <;> simp only [arith, h, if_true]

theorem arith_overflow {wrap : Int → Int} {x : Int} (h : wrap x ≠ x) :
    arith .dev wrap x = .error .overflow := if_neg h

theorem scratchIndex_release (ops : List Operator) (nParams nLocals : Nat) :
    scratchIndex .release ops nParams nLocals = .ok (CuWasm.scratchIndex ops nParams nLocals) := by
  unfold scratchIndex CuWasm.scratchIndex
  by_cases h : ops.any Operator.isBrTable = true
  · rw [if_pos h, if_pos h]
    simp only [arith, bind, Except.bind, pure, Except.pure, wrapU16, Except.ok.injEq,
      Option.some.injEq]
    omega
  · rw [if_neg h, if_neg h]

/-- The index of the scratch local is computed without overflow. -/
theorem scratchIndex_fits {ops : List Operator} {nParams nLocals : Nat} (hpos : 0 < nLocals)
    (h : nParams + nLocals < 2 ^ 16) (p : Profile) :
    scratchIndex p ops nParams nLocals = .ok (CuWasm.scratchIndex ops nParams nLocals) := by
  have h1 : wrapU16 (nParams + nLocals) = nParams + nLocals := by
    rw [wrapU16_eq_iff]
    omega
  have h2 : wrapU16 ((nParams + nLocals : Int) - 1) = (nParams + nLocals : Int) - 1 := by
    rw [wrapU16_eq_iff]
    omega
  rw [← scratchIndex_release]
  unfold scratchIndex
  rw [arith_fits h1 p, arith_fits h1 .release]
  simp only [bind, Except.bind, arith_fits h2 p, arith_fits h2 .release]

theorem scratchIndex_overflow {ops : List Operator} {nParams nLocals : Nat}
    (hany : ops.any Operator.isBrTable = true) (h : ¬ nParams + nLocals < 2 ^ 16) :
    scratchIndex .dev ops nParams nLocals = .error .overflow := by
  have h1 : wrapU16 (nParams + nLocals) ≠ nParams + nLocals := by
    rw [Ne, wrapU16_eq_iff]
    omega
  unfold scratchIndex
  rw [if_pos hany, arith_overflow h1]
  rfl

/-- The environment of a pass over a body that `translate_wasm` lowers. -/
theorem lowerEnv_ok {lm : LowerModule} (hlm : lm.nImports = lm.hostFnIds.length)
    (ops : List Operator) {nParams nResults nLocals : Nat} (hP : nParams < 2 ^ 16)
    (hR : nResults < 2 ^ 16) (hL : nLocals < 2 ^ 16) :
    EnvOk (lowerEnv lm ops nParams nResults nLocals) where
  nParams := hP
  nLocals := by
    show scratchLocals ops nLocals < 2 ^ 16
    unfold scratchLocals
    split <;> omega
  nResults := hR
  imports := hlm

theorem lowerOperators_twin {lm : LowerModule} (hlm : lm.nImports = lm.hostFnIds.length)
    (ops : List Operator) {nParams nResults nLocals : Nat} (hP : nParams < 2 ^ 16)
    (hR : nResults < 2 ^ 16) (hL : nLocals < 2 ^ 16) (code : List CuOp) (consts : List Slot) :
    Twin PassPanicked (BodyFits (lowerEnv lm ops nParams nResults nLocals) ops code consts)
      (lowerOperators .dev lm ops nParams nResults nLocals code consts)
      (lowerOperators .release lm ops nParams nResults nLocals code consts) := by
  have hpass := runPass_twin (lowerEnv_ok hlm ops hP hR hL) ops code consts
  have hrel : lowerOperators .release lm ops nParams nResults nLocals code consts =
      runPass .release (lowerEnv lm ops nParams nResults nLocals) ops code consts := by
    unfold lowerOperators
    dsimp only
    rw [scratchIndex_release]
    rfl
  rw [hrel]
  by_cases hscratch : ops.any Operator.isBrTable = true →
      nParams + scratchLocals ops nLocals < 2 ^ 16
  · have hdev : lowerOperators .dev lm ops nParams nResults nLocals code consts =
        runPass .dev (lowerEnv lm ops nParams nResults nLocals) ops code consts := by
      have hidx : scratchIndex .dev ops nParams (scratchLocals ops nLocals) =
          .ok (CuWasm.scratchIndex ops nParams (scratchLocals ops nLocals)) := by
        by_cases hany : ops.any Operator.isBrTable = true
        · refine scratchIndex_fits ?_ (hscratch hany) .dev
          unfold scratchLocals
          rw [if_pos hany]
          omega
        · unfold scratchIndex CuWasm.scratchIndex
          rw [if_neg hany, if_neg hany]
      unfold lowerOperators
      dsimp only
      rw [hidx]
      rfl
    rw [hdev]
    refine hpass.fits ⟨fun h => ⟨hscratch, h.1, h.2⟩, fun h => ⟨h.heights, h.codeLen⟩⟩
  · refine ⟨fun h => absurd h.scratch hscratch, fun _ => ?_, hpass.quiet⟩
    have hany : ops.any Operator.isBrTable = true := by
      by_contra hno
      exact hscratch fun hany => absurd hany hno
    unfold lowerOperators
    dsimp only
    rw [scratchIndex_overflow hany fun h => hscratch fun _ => h]
    exact ⟨.overflow, rfl⟩

/-! ## The payloads -/

theorem pushBody_panicked (s : TState) (nParams nResults : Nat)
    (r : Except Stop FuncMeta × List CuOp × List Slot) :
    Panicked (pushBody s nParams nResults r) ↔ PassPanicked r := by
  obtain ⟨r, code, consts⟩ := r
  rcases r with (e | e) | f
  · exact ⟨fun h => absurd h (ok_not_panicked _), fun h => absurd h (err_not_panicked e)⟩
  · exact ⟨fun _ => ⟨e, rfl⟩, fun _ => ⟨e, rfl⟩⟩
  · exact ⟨fun h => absurd h (ok_not_panicked _), fun h => absurd h (ok_not_panicked f)⟩

theorem lowerBody_twin (s : TState) (ft : FuncType) {nLocals : Nat} (hL : nLocals < 2 ^ 16)
    (ops : List Operator) :
    Twin Panicked
      (BodyFits (lowerEnv s.lowerModule ops (ft.1.length % 2 ^ 16) (ft.2.length % 2 ^ 16) nLocals)
        ops s.code s.consts)
      (lowerBody .dev s ft nLocals ops) (lowerBody .release s ft nLocals ops) :=
  (lowerOperators_twin rfl ops (Nat.mod_lt _ (by decide)) (Nat.mod_lt _ (by decide)) hL s.code
    s.consts).map (pushBody_panicked s _ _)

/-- What the code section does with a body before it is lowered. -/
theorem addCode_eq (p : Profile) (s : TState) (body : FunctionBody) :
    addCode p s body = (ofErr (bodyArgs s body)).bind fun a => lowerBody p s a.1 a.2.1 a.2.2 := by
  unfold addCode bodyArgs
  cases s.funcTypeidx[s.funcs.length]? with
  | none => rfl
  | some tidx =>
    dsimp only
    cases s.funcTypes[tidx]? with
    | none => rfl
    | some ft =>
      dsimp only
      cases body.locals.mapError ("locals: " ++ ·) with
      | error e => rfl
      | ok locals =>
        dsimp only [bind, Except.bind, ofErr, Except.mapError]
        cases countLocals locals with
        | error e => rfl
        | ok n =>
          dsimp only
          split_ifs
          · rfl
          · cases body.ops with
            | error e => rfl
            | ok ops =>
              dsimp only
              cases collect "op" ops with
              | error e => rfl
              | ok ops' => rfl

theorem bodyArgs_locals {s : TState} {body : FunctionBody} {ft : FuncType} {n : Nat}
    {ops : List Operator} (h : bodyArgs s body = .ok (ft, n, ops)) : n < 2 ^ 16 := by
  unfold bodyArgs at h
  split at h
  · cases h
  · split at h
    · cases h
    · obtain ⟨locals, -, h⟩ := Verify.bind_eq_ok h
      obtain ⟨m, -, h⟩ := Verify.bind_eq_ok h
      dsimp only at h
      split_ifs at h with hm
      · cases h
      · obtain ⟨ops', -, h⟩ := Verify.bind_eq_ok h
        obtain ⟨ops'', -, h⟩ := Verify.bind_eq_ok h
        cases h
        omega

theorem payload_twin (s : TState) (pl : Payload) :
    Twin Panicked (PayloadFits s pl) (payload .dev s pl) (payload .release s pl) := by
  have hother (pl : Payload) (h : PayloadFits s pl = True) :
      Twin Panicked (PayloadFits s pl) (ofErr (Translate.payload s pl))
        (ofErr (Translate.payload s pl)) := by
    rw [h]
    exact Twin.refl (ofErr_not_panicked _)
  cases pl with
  | codeSectionEntry body =>
    show Twin Panicked _ (addCode .dev s body) (addCode .release s body)
    rw [addCode_eq, addCode_eq]
    refine ((Twin.refl (ofErr_not_panicked (bodyArgs s body))).bind
      (ψ := fun a => BodyFits (lowerEnv s.lowerModule a.2.2 (a.1.1.length % 2 ^ 16)
        (a.1.2.length % 2 ^ 16) a.2.1) a.2.2 s.code s.consts) fun a ha => ?_).fits ?_
    · exact lowerBody_twin s a.1 (bodyArgs_locals (ofErr_eq_ok.mp ha)) a.2.2
    · simp only [true_and, ofErr_eq_ok, Prod.forall, PayloadFits]
  | _ => exact hother _ rfl

theorem payloads_twin (payloads : List (Parsed Payload)) (s : TState) :
    Twin Panicked (PayloadsFit payloads s) (each "parse" (payload .dev) payloads s)
      (each "parse" (payload .release) payloads s) := by
  induction payloads generalizing s with
  | nil =>
    show Twin Panicked True (.ok s) (.ok s)
    exact Twin.refl (ok_not_panicked s)
  | cons pl payloads ih =>
    cases pl with
    | error e =>
      show Twin Panicked True (.error (.err _)) (.error (.err _))
      exact Twin.refl (err_not_panicked _)
    | ok pl => exact (payload_twin s pl).bind fun t _ => ih t

theorem ofErr_bind {α β : Type} (x : Except String α) (f : α → Except String β) :
    ofErr (x >>= f) = ofErr x >>= fun a => ofErr (f a) := by
  cases x <;> rfl

/-! ## What does not panic -/

/-- A shift that loses no bits. -/
theorem shl_fits (p : Profile) {x n k : Nat} (hx : x < 2 ^ k) (hn : n + k ≤ 64) (hk : 0 < k) :
    shl p x n = .ok (x <<< n) := by
  have hlt : x <<< n < 2 ^ 64 := by
    rw [Nat.shiftLeft_eq]
    calc x * 2 ^ n < 2 ^ k * 2 ^ n := (Nat.mul_lt_mul_right (Nat.two_pow_pos n)).mpr hx
      _ = 2 ^ (n + k) := by rw [Nat.add_comm, Nat.pow_add]
      _ ≤ 2 ^ 64 := Nat.pow_le_pow_right (by decide) hn
  have hn' : n < 64 := by omega
  cases p with
  | release => simp only [shl, Nat.mod_eq_of_lt hn', Nat.mod_eq_of_lt hlt]
  | dev => simp only [shl, if_pos hn', Nat.mod_eq_of_lt hlt]

theorem typeTag_lt {t : ValType} {tag : Nat} (h : typeTag t = .ok tag) : tag < 2 ^ 2 := by
  unfold typeTag at h
  split at h <;> cases h <;> decide

theorem typeTags_eq (p : Profile) (ts : List ValType) :
    ∀ shift fp, shift + 2 * ts.length ≤ 64 →
      typeTags p shift ts fp = ofErr (CuWasm.typeTags shift ts fp) := by
  induction ts with
  | nil => exact fun _ _ _ => rfl
  | cons t ts ih =>
    intro shift fp hlen
    rw [List.length_cons] at hlen
    unfold typeTags CuWasm.typeTags
    rw [ofErr_bind]
    cases htag : typeTag t with
    | error e => rfl
    | ok tag =>
      show (ofPanic (shl p tag shift) >>= fun x => typeTags p (shift + 2) ts (fp ||| x)) =
        ofErr (CuWasm.typeTags (shift + 2) ts (fp ||| tag <<< shift))
      rw [shl_fits p (typeTag_lt htag) (by omega) (by decide)]
      exact ih (shift + 2) (fp ||| tag <<< shift) (by omega)

theorem typeFingerprint_eq (p : Profile) (ft : FuncType) :
    typeFingerprint p ft = ofErr (CuWasm.typeFingerprint ft) := by
  unfold typeFingerprint CuWasm.typeFingerprint
  by_cases h : ft.1.length > 8 ∨ ft.2.length > 8
  · rw [if_pos h, if_pos h]
    rfl
  · rw [if_neg h, if_neg h, ofErr_bind]
    rw [shl_fits (k := 4) p (show ft.2.length < 2 ^ 4 by omega) (by decide) (by decide)]
    show (typeTags p 16 ft.1 (ft.1.length ||| ft.2.length <<< 8) >>= fun fp =>
      typeTags p 32 ft.2 fp) = _
    rw [typeTags_eq p ft.1 _ _ (by omega)]
    congr 1
    funext fp
    exact typeTags_eq p ft.2 _ _ (by omega)

theorem fingerprints_eq (p : Profile) (fts : List FuncType) :
    fingerprints p fts = ofErr (Translate.fingerprints fts) := by
  induction fts with
  | nil => rfl
  | cons ft fts ih =>
    unfold fingerprints Translate.fingerprints
    rw [typeFingerprint_eq, ih, ofErr_bind]
    congr 1
    funext fp
    rw [ofErr_bind]
    rfl

theorem layoutData_eq {memSize memMax : Nat} (h : memSize ≤ memMax)
    (segs : List (Bool × Nat × List Byte)) :
    ∀ l, layoutData memSize memMax segs l = ofErr (Translate.layoutData memSize segs l) := by
  induction segs with
  | nil => exact fun _ => rfl
  | cons seg segs ih =>
    obtain ⟨active, off, bytes⟩ := seg
    intro l
    unfold layoutData Translate.layoutData
    by_cases hout : active = true ∧ off + bytes.length > memSize
    · rw [if_pos hout, if_pos hout]
      rfl
    · have hslice : ¬ (active = true ∧ bytes ≠ [] ∧ off + bytes.length > memMax) := by
        rintro ⟨hactive, -, hlen⟩
        exact hout ⟨hactive, by omega⟩
      rw [if_neg hout, if_neg hout, if_neg hslice]
      exact ih _

/-- Behind the loop over the payloads nothing panics. -/
theorem finish_eq (p : Profile) (s : TState) : finish p s = ofErr (Translate.finish s) := by
  unfold finish Translate.finish
  rw [fingerprints_eq, ofErr_bind]
  congr 1
  funext typeFp
  dsimp only
  by_cases hbig : s.hasMemory = true ∧ s.memMin > min (s.memMaxPages.getD 1024) 1024
  · rw [if_pos hbig, if_pos hbig]
    rfl
  · rw [if_neg hbig, if_neg hbig]
    have hsize : (if s.hasMemory = true then s.memMin * WASM_PAGE else 0) ≤
        if s.hasMemory = true then min (s.memMaxPages.getD 1024) 1024 * WASM_PAGE else 0 := by
      by_cases hmem : s.hasMemory = true
      · rw [if_pos hmem, if_pos hmem]
        exact Nat.mul_le_mul_right _ (Nat.le_of_not_lt fun hlt => hbig ⟨hmem, hlt⟩)
      · rw [if_neg hmem, if_neg hmem]
    rw [layoutData_eq hsize, ofErr_bind]
    congr 1
    funext l
    rw [ofErr_bind]
    congr 1
    funext table
    split <;> rfl

end CuWasm.Checked
