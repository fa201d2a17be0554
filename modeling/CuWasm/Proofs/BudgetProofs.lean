import CuWasm.Wasm.Semantics

/-!
# Budgets

A larger budget changes no outcome, so that a call has at most one result. Within every budget a call that
returns has as many results as the type of the function says.
-/

namespace CuWasm.Wasm

variable {H : Type} {I : Instance H} {again again' : Eval H} {n k : Nat} {b : Body} {xs ls args : List Nat}
  {s : Store H} {o : Outcome H} {res res' : Result H} {fi : Nat}

/-- What has an outcome for `again` has the same for `again'`. -/
structure Eval.Below (again again' : Eval H) : Prop where
  body : ∀ {b xs ls s o}, again.body b xs ls s = some o → again'.body b xs ls s = some o
  call : ∀ {fi args s res}, again.call fi args s = some res → again'.call fi args s = some res

theorem Outcome.andThen_mono {r r' : Option (Outcome H)}
    {f f' : List Nat → List Nat → Store H → Option (Outcome H)} (hr : ∀ o, r = some o → r' = some o)
    (hf : ∀ xs ls s o, f xs ls s = some o → f' xs ls s = some o) (h : Outcome.andThen r f = some o) :
    Outcome.andThen r' f' = some o := by
  cases r with
  | none => cases h
  | some w =>
    rw [hr w rfl]
    cases w with
    | next ys ls s => exact hf ys ls s o h
    | _ => exact h

theorem map_mono {α β : Type} {r r' : Option α} {f : α → β} {x : β} (hr : ∀ a, r = some a → r' = some a)
    (h : r.map f = some x) : r'.map f = some x := by
  obtain ⟨a, ha, rfl⟩ := Option.map_eq_some_iff.mp h
  rw [hr a ha]
  rfl

theorem Instance.callTop_mono {call call' : Nat → List Nat → Store H → Option (Result H)}
    (hcall : ∀ {fi args s res}, call fi args s = some res → call' fi args s = some res) {ft : FuncType}
    (h : callTop call fi ft xs ls s = some o) : callTop call' fi ft xs ls s = some o := by
  unfold callTop at h ⊢
  split_ifs at h ⊢
  · exact h
  · exact map_mono (fun _ => hcall) h

theorem Eval.Below.operator (hle : again.Below again') {op : Operator}
    (h : I.operator again.call op xs ls s = some o) : I.operator again'.call op xs ls s = some o := by
  cases op with
  | call fi =>
    simp only [Instance.operator] at h ⊢
    cases hft : I.funcType fi with
    | none =>
      rw [hft] at h
      exact h
    | some ft =>
      simp only [hft] at h
      exact Instance.callTop_mono hle.call h
  | callIndirect ti tab =>
    cases xs with
    | nil => exact h
    | cons x xs =>
      simp only [Instance.operator] at h ⊢
      split at h
      · split_ifs at h ⊢
        · exact Instance.callTop_mono hle.call h
        · exact h
      · exact h
      · exact h
  | brIf | brTable => cases xs <;> exact h
  | _ => exact h

theorem Instance.inBlock_mono {bt : BlockType}
    {run run' : (np nr : Nat) → (args low : List Nat) → Option (Outcome H)}
    (hrun : ∀ np nr args low, run np nr args low = some o → run' np nr args low = some o)
    (h : I.inBlock bt xs run = some o) : I.inBlock bt xs run' = some o := by
  unfold Instance.inBlock at h ⊢
  split at h
  · exact h
  · split_ifs at h ⊢
    · exact h
    · exact hrun _ _ _ _ h

/-- Sequences, where what is repeated has more budget. -/
theorem Eval.Below.sequence (hle : again.Below again') :
    ∀ {xs ls s o}, I.body again b xs ls s = some o → I.body again' b xs ls s = some o := by
  induction b with
  | nil => exact fun h => h
  | op op rest ih =>
    intro xs ls s o h
    exact Outcome.andThen_mono (fun _ => hle.operator) (fun _ _ _ _ => ih) h
  | block bt b rest ihb ih =>
    intro xs ls s o h
    refine Outcome.andThen_mono (fun _ hw => ?_) (fun _ _ _ _ => ih) h
    exact Instance.inBlock_mono (fun _ _ _ _ => map_mono fun _ => ihb) hw
  | loop bt b rest ihb ih =>
    intro xs ls s o h
    refine Outcome.andThen_mono (fun w hw => ?_) (fun _ _ _ _ => ih) h
    refine Instance.inBlock_mono (fun np nr args low hrun => ?_) hw
    cases hb : I.body again b args ls s with
    | none =>
      rw [hb] at hrun
      cases hrun
    | some v =>
      rw [hb] at hrun
      rw [ihb hb]
      split at hrun
      · rename_i ys ls s heq
        cases heq
        split_ifs at hrun ⊢
        · exact map_mono (fun _ => hle.body) hrun
        · exact hrun
      · exact hrun
  | ifThen bt b rest ihb ih =>
    intro xs ls s o h
    cases xs with
    | nil => exact h
    | cons x xs =>
      refine Outcome.andThen_mono (fun _ hw => ?_) (fun _ _ _ _ => ih) h
      refine Instance.inBlock_mono (fun np nr args low => map_mono fun v hv => ?_) hw
      split_ifs at hv ⊢
      · exact ihb hv
      · exact hv
  | ifElse bt b els rest ihb ihe ih =>
    intro xs ls s o h
    cases xs with
    | nil => exact h
    | cons x xs =>
      refine Outcome.andThen_mono (fun _ hw => ?_) (fun _ _ _ _ => ih) h
      refine Instance.inBlock_mono (fun np nr args low => map_mono fun v hv => ?_) hw
      split_ifs at hv ⊢
      · exact ihb hv
      · exact ihe hv

theorem Instance.finish_mono {call call' : Nat → List Nat → Store H → Option (Result H)}
    (hcall : ∀ {fi args s res}, call fi args s = some res → call' fi args s = some res) {nr : Nat}
    (h : I.finish call nr o = some res) : I.finish call' nr o = some res := by
  cases o with
  | tail fi xs s =>
    simp only [Instance.finish] at h ⊢
    split at h
    · split_ifs at h ⊢
      · exact h
      · exact hcall h
    · exact h
  | br j => cases j <;> exact h
  | _ => exact h

theorem Eval.Below.function (hle : again.Below again') (h : I.call again fi args s = some res) :
    I.call again' fi args s = some res := by
  unfold Instance.call at h ⊢
  split at h
  · exact h
  · split_ifs at h ⊢
    · exact h
    · exact h
    · split at h
      · exact h
      · obtain ⟨w, hw, hfin⟩ := Option.bind_eq_some_iff.mp h
        exact Option.bind_eq_some_iff.mpr ⟨w, hle.sequence hw, Instance.finish_mono hle.call hfin⟩

theorem eval_below (n : Nat) : (I.eval n).Below (I.eval (n + 1)) := by
  induction n with
  | zero => refine ⟨fun h => ?_, fun h => ?_⟩ <;> cases h
  | succ n ih => exact ⟨ih.sequence, ih.function⟩

theorem eval_below_add (n k : Nat) : (I.eval n).Below (I.eval (n + k)) := by
  induction k with
  | zero => exact ⟨id, id⟩
  | succ k ih =>
    have hstep := eval_below (I := I) (n + k)
    exact ⟨fun h => hstep.body (ih.body h), fun h => hstep.call (ih.call h)⟩

/-- A call has one result. -/
theorem eval_unique (h : (I.eval n).call fi args s = some res) (h' : (I.eval k).call fi args s = some res') :
    res' = res := by
  have h1 := (eval_below_add n k).call h
  have h2 := (eval_below_add k n).call h'
  rw [Nat.add_comm k n, h1] at h2
  exact (Option.some.inj h2).symm

/-! ## The number of results -/

section Length

variable {ft : FuncType} {ys : List Nat} {s' : Store H}

theorem finish_length {call : Nat → List Nat → Store H → Option (Result H)} {nr : Nat}
    {o : Outcome H}
    (hcall : ∀ fi ft args s ys s', I.funcType fi = some ft → call fi args s = some (.values ys s') →
      ys.length = ft.2.length)
    (h : I.finish call nr o = some (.values ys s')) : ys.length = nr := by
  cases o with
  | next xs ls s =>
    simp only [Instance.finish] at h
    split_ifs at h with hlen
    · cases h
      rw [List.length_reverse, hlen]
    · cases h
  | br k xs ls s =>
    cases k with
    | zero =>
      simp only [Instance.finish] at h
      split_ifs at h with hle
      · cases h
        rw [List.length_reverse, List.length_take, Nat.min_eq_left hle]
      · cases h
    | succ k => cases h
  | ret xs s =>
    simp only [Instance.finish] at h
    split_ifs at h with hle
    · cases h
      rw [List.length_reverse, List.length_take, Nat.min_eq_left hle]
    · cases h
  | tail fi xs s =>
    simp only [Instance.finish] at h
    cases hft : I.funcType fi with
    | none =>
      rw [hft] at h
      cases h
    | some ft =>
      rw [hft] at h
      simp only at h
      split_ifs at h with hne
      · cases h
      · have := hcall fi ft _ s ys s' hft h
        omega
  | trap t s | refused s | wrong => cases h

theorem callHost_length (h : I.callHost fi ft args s = .values ys s') : ys.length = ft.2.length := by
  simp only [Instance.callHost] at h
  split at h
  · cases h
  · split_ifs at h with hlen
    cases h
    exact hlen

/-- A call that returns has as many results as its type says. -/
theorem call_length (hft : I.funcType fi = some ft)
    (h : (I.eval n).call fi args s = some (.values ys s')) : ys.length = ft.2.length := by
  induction n generalizing fi ft args s ys s' with
  | zero => cases h
  | succ n ih =>
    simp only [Instance.eval, Instance.call, hft] at h
    split_ifs at h with hargs himp
    · cases h
    · exact callHost_length (Option.some_injective _ h)
    · split at h
      · cases h
      · obtain ⟨o, -, ho⟩ := Option.bind_eq_some_iff.mp h
        exact finish_length (fun _ _ _ _ _ _ hft h => ih hft h) ho

end Length

end CuWasm.Wasm
