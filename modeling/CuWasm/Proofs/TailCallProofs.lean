import CuWasm.Proofs.BudgetProofs
import CuWasm.Wasm.TailCalls

/-!
# Tail calls are calls with a return

Along a body and the body with calls for its tail calls the outcomes match. A tail call leaves all blocks
before its function is called, with the budget of the caller; the call inside the blocks may have less,
and then says nothing.
-/

namespace CuWasm.Wasm

variable {H : Type} {I : Instance H} {call call' : Nat → List Nat → Store H → Option (Result H)}
  {again again' : Eval H} {code : List Func} {nr n : Nat} {b b' : Body} {xs ls args : List Nat} {s : Store H}
  {r r' : Option (Outcome H)} {res : Result H} {fi : Nat}

section Matches

theorem matches_refl (r : Option (Outcome H)) : I.Matches call nr r r := fun _ hw => .inr (.inl hw)

theorem matches_wrong (r' : Option (Outcome H)) : I.Matches call nr (some .wrong) r' :=
  fun _ _ => .inl rfl

theorem finish_ends {w : Outcome H} (hw : w.ends = true) :
    I.finish call nr w = I.finish call' nr w ∧ ∃ q, I.finish call nr w = some q := by
  cases w with
  | next | br | tail => cases hw
  | ret | trap | refused | wrong => exact ⟨rfl, _, rfl⟩

/-- With a larger budget for the tail calls. -/
theorem Instance.Matches.mono (h : I.Matches call nr r r')
    (hle : ∀ {fi args s res}, call fi args s = some res → call' fi args s = some res) :
    I.Matches call' nr r r' := by
  intro w hw
  obtain h | h | ⟨hends, fi, xs, s, hr, hfin⟩ := h w hw
  · exact .inl h
  · exact .inr (.inl h)
  · refine .inr (.inr ⟨hends, fi, xs, s, hr, hfin.imp (finish_mono hle) fun heq => ?_⟩)
    obtain ⟨hsame, q, hq⟩ := finish_ends (I := I) hends
    rw [← hsame, hq]
    exact finish_mono hle (heq.trans hq)

theorem Instance.Matches.andThen {f f' : List Nat → List Nat → Store H → Option (Outcome H)}
    (h : I.Matches call nr r r') (hf : ∀ xs ls s, I.Matches call nr (f xs ls s) (f' xs ls s)) :
    I.Matches call nr (Outcome.andThen r f) (Outcome.andThen r' f') := by
  cases r' with
  | none => exact fun w hw => nomatch hw
  | some v =>
    obtain hr | hr | ⟨hends, fi, xs, s, hr, hfin⟩ := h v rfl
    · rw [hr]
      exact matches_wrong _
    · rw [hr]
      cases v with
      | next xs ls s => exact hf xs ls s
      | br | ret | tail | trap | refused | wrong => exact matches_refl _
    · rw [hr]
      intro w hw
      have hv : w = v := by
        cases v with
        | next | br | tail => cases hends
        | ret | trap | refused | wrong => exact (Option.some.inj hw).symm
      rw [hv]
      exact .inr (.inr ⟨hends, fi, xs, s, rfl, hfin⟩)

theorem Instance.Matches.map {g : Outcome H → Outcome H} (h : I.Matches call nr r r')
    (hends : ∀ w : Outcome H, w.ends = true → g w = w)
    (htail : ∀ fi xs s, g (.tail fi xs s) = .tail fi xs s) :
    I.Matches call nr (r.map g) (r'.map g) := by
  intro w hw
  obtain ⟨v, rfl, rfl⟩ := Option.map_eq_some_iff.mp hw
  obtain hr | hr | ⟨hv, fi, xs, s, hr, hfin⟩ := h v rfl
  · left
    rw [hr, Option.map_some, hends _ rfl]
  · right; left
    rw [hr, Option.map_some]
  · right; right
    rw [hr, Option.map_some, htail, hends v hv]
    exact ⟨hv, fi, xs, s, rfl, hfin⟩

theorem leave_ends {np : Nat} {low : List Nat} (w : Outcome H) (hw : w.ends = true) :
    w.leave np low = w := by
  cases w with
  | next | br | tail => cases hw
  | ret | trap | refused | wrong => rfl

theorem above_ends {low : List Nat} (w : Outcome H) (hw : w.ends = true) : w.above low = w := by
  cases w with
  | next | br | tail => cases hw
  | ret | trap | refused | wrong => rfl

theorem matches_inBlock {bt : BlockType}
    {run run' : (np nr : Nat) → (args low : List Nat) → Option (Outcome H)}
    (h : ∀ np k args low, I.Matches call nr (run np k args low) (run' np k args low)) :
    I.Matches call nr (I.inBlock bt xs run) ((I.withCode code).inBlock bt xs run') := by
  show I.Matches call nr (I.inBlock bt xs run) (I.inBlock bt xs run')
  unfold Instance.inBlock
  split
  · exact matches_wrong _
  · split_ifs
    · exact matches_wrong _
    · exact h _ _ _ _

end Matches

/-- Calls in the two modules: the first one goes wrong, or the second one has no other result. -/
def CallsMatch (call call' : Nat → List Nat → Store H → Option (Result H)) : Prop :=
  ∀ {fi args s res}, call' fi args s = some res →
    call fi args s = some .wrong ∨ call fi args s = some res

theorem callTop_matches (hcall : CallsMatch call call') {ft : FuncType} :
    I.Matches call nr (Instance.callTop call fi ft xs ls s) (Instance.callTop call' fi ft xs ls s) := by
  unfold Instance.callTop
  split_ifs
  · exact matches_wrong _
  · intro w hw
    obtain ⟨res, hres, rfl⟩ := Option.map_eq_some_iff.mp hw
    obtain h | h := hcall hres
    · exact .inl (by rw [h]; rfl)
    · exact .inr (.inl (by rw [h]; rfl))

theorem operator_matches (hcall : CallsMatch call call') (o : Operator) :
    I.Matches call nr (I.operator call o xs ls s) ((I.withCode code).operator call' o xs ls s) := by
  cases o with
  | call fi =>
    show I.Matches call nr (I.operator call (.call fi) xs ls s) (I.operator call' (.call fi) xs ls s)
    simp only [Instance.operator]
    split
    · exact callTop_matches hcall
    · exact matches_wrong _
  | callIndirect ti tab =>
    show I.Matches call nr (I.operator call (.callIndirect ti tab) xs ls s)
      (I.operator call' (.callIndirect ti tab) xs ls s)
    cases xs with
    | nil => exact matches_wrong _
    | cons x xs =>
      simp only [Instance.operator]
      split
      · split_ifs
        · exact callTop_matches hcall
        · exact matches_refl _
      · exact matches_refl _
      · exact matches_refl _
  | brIf | brTable => cases xs <;> exact matches_refl _
  | _ => exact matches_refl _

theorem take_results {ys low : List Nat} (h : ys.length = nr) :
    ((ys.reverse ++ low).take nr).reverse = ys := by
  rw [List.take_left' (by rw [List.length_reverse, h]), List.reverse_reverse]

/-- A call with a return behind it ends as the tail call does. -/
theorem tail_matches (hcall : CallsMatch call call')
    (hlen : ∀ {fi ft args s ys s'}, I.funcType fi = some ft → call' fi args s = some (.values ys s') →
      ys.length = ft.2.length) {f : List Nat → List Nat → Store H → Option (Outcome H)} :
    I.Matches call nr (some (.tail fi xs s))
      (Outcome.andThen ((I.withCode code).operator call' (.call fi) xs ls s) fun ys _ s =>
        Outcome.andThen (some (.ret ys s)) f) := by
  show I.Matches call nr _
    (Outcome.andThen (I.operator call' (.call fi) xs ls s) fun ys _ s => some (.ret ys s))
  intro w hw
  refine .inr (.inr ?_)
  simp only [Instance.operator, Instance.callTop] at hw
  simp only [Instance.finish]
  cases hft : I.funcType fi with
  | none =>
    rw [hft] at hw
    cases hw
    exact ⟨rfl, fi, xs, s, rfl, .inl (by rw [hft])⟩
  | some ft =>
    simp only [hft] at hw
    by_cases hle : xs.length < ft.1.length
    · rw [if_pos hle] at hw
      cases hw
      exact ⟨rfl, fi, xs, s, rfl, .inl (by simp only [hft]; rw [if_pos (.inl hle)])⟩
    · rw [if_neg hle] at hw
      cases hres : call' fi (xs.take ft.1.length).reverse s with
      | none =>
        rw [hres] at hw
        cases hw
      | some res =>
        rw [hres] at hw
        have hgo := hcall hres
        by_cases hne : ft.2.length = nr
        · have hfin : (if xs.length < ft.1.length ∨ ft.2.length ≠ nr then some Result.wrong
              else call fi (xs.take ft.1.length).reverse s) = call fi (xs.take ft.1.length).reverse s :=
            if_neg (by omega)
          cases res with
          | values ys s1 =>
            cases hw
            refine ⟨rfl, fi, xs, s, rfl, ?_⟩
            simp only [hft, hfin]
            have hys := hlen hft hres
            rw [if_pos (by rw [List.length_append, List.length_reverse]; omega),
              take_results (hys.trans hne)]
            exact hgo
          | trap | refused | wrong =>
            cases hw
            refine ⟨rfl, fi, xs, s, rfl, ?_⟩
            simp only [hft, hfin]
            exact hgo
        · have hfin : (if xs.length < ft.1.length ∨ ft.2.length ≠ nr then some Result.wrong
              else call fi (xs.take ft.1.length).reverse s) = some .wrong := if_pos (.inr hne)
          cases res with
          | values | trap | refused | wrong =>
            cases hw
            refine ⟨rfl, fi, xs, s, rfl, .inl ?_⟩
            simp only [hft, hfin]

/-! ## Sequences, functions and calls -/

theorem body_matches (hcall : CallsMatch again.call again'.call)
    (hlen : ∀ {fi ft args s ys s'}, I.funcType fi = some ft →
      again'.call fi args s = some (.values ys s') → ys.length = ft.2.length)
    (hbodies : ∀ {b b' xs ls s}, Untailed b b' →
      I.Matches again.call nr (again.body b xs ls s) (again'.body b' xs ls s))
    (h : Untailed b b') : ∀ xs ls s,
      I.Matches again.call nr (I.body again b xs ls s) ((I.withCode code).body again' b' xs ls s) := by
  have hleave {np : Nat} {low : List Nat} {r r' : Option (Outcome H)} (hm : I.Matches again.call nr r r') :
      I.Matches again.call nr (r.map (Outcome.leave np low)) (r'.map (Outcome.leave np low)) :=
    hm.map leave_ends fun _ _ _ => rfl
  induction h with
  | nil => exact fun xs ls s => matches_refl _
  | op h ih => exact fun xs ls s => (operator_matches hcall _).andThen ih
  | tail h ih =>
    intro xs ls s
    exact tail_matches hcall hlen
  | block hi h ihi ih =>
    intro xs ls s
    refine Instance.Matches.andThen ?_ ih
    exact matches_inBlock fun np k args low => hleave (ihi args ls s)
  | @loop bt i i' b b' hi h ihi ih =>
    intro xs ls s
    refine Instance.Matches.andThen ?_ ih
    refine matches_inBlock fun np k args low => ?_
    have hbody := ihi args ls s
    intro w hw
    cases hr' : (I.withCode code).body again' i' args ls s with
    | none =>
      rw [hr'] at hw
      cases hw
    | some v =>
      obtain hr | hr | ⟨hends, fi, zs, s1, hr, hfin⟩ := hbody v hr'
      · rw [hr]
        exact .inl rfl
      · rw [hr'] at hw
        rw [hr]
        revert w
        show I.Matches again.call nr _ _
        split
        · split_ifs
          · exact (hbodies (.loop hi .nil)).map above_ends fun _ _ _ => rfl
          · exact matches_refl _
        · exact matches_refl _
      · rw [hr'] at hw
        have hv : w = v := by
          cases v with
          | next | br | tail => cases hends
          | ret | trap | refused | wrong => exact (Option.some.inj hw).symm
        rw [hv, hr]
        exact .inr (.inr ⟨hends, fi, zs, s1, rfl, hfin⟩)
  | ifThen hi h ihi ih =>
    intro xs ls s
    cases xs with
    | nil => exact matches_wrong _
    | cons x xs =>
      refine Instance.Matches.andThen ?_ ih
      refine matches_inBlock fun np k args low => hleave ?_
      split_ifs
      · exact ihi args ls s
      · exact matches_refl _
  | ifElse hi he h ihi ihe ih =>
    intro xs ls s
    cases xs with
    | nil => exact matches_wrong _
    | cons x xs =>
      refine Instance.Matches.andThen ?_ ih
      refine matches_inBlock fun np k args low => hleave ?_
      split_ifs
      · exact ihi args ls s
      · exact ihe args ls s

/-- At the end of a function the outcomes are those of its calls. -/
theorem finish_matches (hcall : CallsMatch call call') (h : I.Matches call nr r r')
    (hres : r'.bind ((I.withCode code).finish call' nr) = some res) :
    r.bind (I.finish call nr) = some .wrong ∨ r.bind (I.finish call nr) = some res := by
  obtain ⟨w, rfl, hw⟩ := Option.bind_eq_some_iff.mp hres
  change I.finish call' nr w = some res at hw
  obtain hr | hr | ⟨hends, fi, xs, s, hr, hfin⟩ := h w rfl
  · rw [hr]
    exact .inl rfl
  · rw [hr, Option.bind_some]
    cases w with
    | tail fi xs s =>
      simp only [Instance.finish] at hw ⊢
      split at hw
      · split_ifs at hw ⊢
        · exact .inr hw
        · exact hcall hw
      · exact .inr hw
    | br j => cases j <;> exact .inr hw
    | next | ret | trap | refused | wrong => exact .inr hw
  · rw [hr, Option.bind_some]
    refine hfin.imp id fun heq => ?_
    rw [heq, (finish_ends hends).1]
    exact hw

theorem forall₂_getElem? {α β : Type} {R : α → β → Prop} {as : List α} {bs : List β}
    (h : List.Forall₂ R as bs) {k : Nat} {x : β} (hx : bs[k]? = some x) : ∃ a, as[k]? = some a ∧ R a x := by
  induction h generalizing k with
  | nil => cases hx
  | cons hab _ ih =>
    cases k with
    | zero =>
      cases hx
      exact ⟨_, rfl, hab⟩
    | succ k => exact ih hx

theorem withCode_call (again : Eval H) : (I.withCode code).call again fi args s =
    match I.funcType fi with
    | none => some .wrong
    | some ft =>
      if args.length ≠ ft.1.length then some .wrong
      else if fi < I.nImports then some (I.callHost fi ft args s)
      else
        match code[fi - I.nImports]? with
        | none => some .wrong
        | some c => ((I.withCode code).body again c.body [] (Instance.locals c args) s).bind
            ((I.withCode code).finish again.call ft.2.length) := rfl

theorem call_matches (hcode : List.Forall₂ Func.Untailed I.code code)
    (hcall : CallsMatch again.call again'.call)
    (hbodies : ∀ {nr b b' xs ls s}, Untailed b b' →
      I.Matches again.call nr (I.body again b xs ls s) ((I.withCode code).body again' b' xs ls s)) :
    CallsMatch (I.call again) ((I.withCode code).call again') := by
  intro fi args s res h
  rw [withCode_call] at h
  unfold Instance.call
  cases hft : I.funcType fi with
  | none => exact .inl rfl
  | some ft =>
    simp only [hft] at h ⊢
    split_ifs at h ⊢
    · exact .inl rfl
    · exact .inr h
    · cases hc' : code[fi - I.nImports]? with
      | none =>
        have hc : I.code[fi - I.nImports]? = none := by
          rw [List.getElem?_eq_none_iff, hcode.length_eq]
          exact List.getElem?_eq_none_iff.mp hc'
        rw [hc]
        exact .inl rfl
      | some c' =>
        obtain ⟨c, hc, hcc⟩ := forall₂_getElem? hcode hc'
        have hlocals : Instance.locals c' args = Instance.locals c args := by
          unfold Instance.locals
          rw [hcc.locals]
        simp only [hc', hlocals] at h
        rw [hc]
        exact finish_matches hcall (hbodies hcc.body) h

/-- Within every budget. -/
theorem eval_matches (hcode : List.Forall₂ Func.Untailed I.code code) (n : Nat) :
    (∀ {nr b b' xs ls s}, Untailed b b' →
      I.Matches (I.eval n).call nr ((I.eval n).body b xs ls s)
        (((I.withCode code).eval n).body b' xs ls s)) ∧
    CallsMatch (I.eval n).call ((I.withCode code).eval n).call := by
  induction n with
  | zero =>
    constructor
    · exact fun _ _ hw => nomatch hw
    · intro fi args s res h
      cases h
  | succ n ih =>
    obtain ⟨hbodies, hcalls⟩ := ih
    have hmatch {nr b b' xs ls s} (h : Untailed b b') : I.Matches (I.eval n).call nr
        (I.body (I.eval n) b xs ls s) ((I.withCode code).body ((I.withCode code).eval n) b' xs ls s) :=
      body_matches (I := I) hcalls (fun hft h => call_length (I := I.withCode code) hft h) hbodies h xs ls s
    exact ⟨fun h => (hmatch h).mono (eval_below n).call, call_matches hcode hcalls hmatch⟩

end CuWasm.Wasm
