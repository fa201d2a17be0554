import CuWasm.Proofs.FlowProofs

/-!
# Heights between operators

The height that `lower_operators` tracks in front of an operator stands next to the first instruction
that the operator emits, unless nothing reaches that instruction.
-/

namespace CuWasm

open Wasm Exit

namespace Structured

/-- When the operators `xs` are lowered from `s`, each that emits code in live code starts at an
instruction whose height, among the heights `hs` of the code of `xs`, is the tracked one or unknown. -/
def Marked (env : LowerEnv) (xs : List Operator) (s : LState) (hs : List Int) : Prop :=
  ∀ pre o post, xs = pre ++ o :: post → ∀ t t', Lower.operators env pre s = .ok () t →
    Lower.operator env o t = .ok () t' → t.code.length < t'.code.length → t.dead = false →
    s.code.length ≤ t.code.length ∧
      ∃ x, hs[t.code.length - s.code.length]? = some x ∧ (x = t.h ∨ x = -1)

section Marked

variable {env : LowerEnv} {xs ys : List Operator} {o : Operator} {s s1 : LState} {hs hs' : List Int}

theorem Marked.append (h1 : Marked env xs s hs) (hx : Lower.operators env xs s = .ok () s1)
    (hlen : s1.code.length = s.code.length + hs.length) (h2 : Marked env ys s1 hs') :
    Marked env (xs ++ ys) s (hs ++ hs') := by
  intro pre o post heq t t' hpre ho hlt hdead
  have hleft : ∀ rest, xs = pre ++ o :: rest → _ := fun rest hxs => h1 pre o rest hxs t t' hpre ho hlt
    hdead
  have hright : ∀ a, pre = xs ++ a → ys = a ++ o :: post → s.code.length ≤ t.code.length ∧
      ∃ x, (hs ++ hs')[t.code.length - s.code.length]? = some x ∧ (x = t.h ∨ x = -1) := by
    rintro a rfl hys
    rw [operators_append, bind_ok hx] at hpre
    obtain ⟨hle, x, hget, hor⟩ := h2 a o post hys t t' hpre ho hlt hdead
    refine ⟨by omega, x, ?_, hor⟩
    rw [List.getElem?_append_right (by omega),
      show t.code.length - s.code.length - hs.length = t.code.length - s1.code.length by omega]
    exact hget
  obtain ⟨a, rfl, hys⟩ | ⟨a, hxs, hys⟩ := List.append_eq_append_iff.mp heq
  · exact hright a rfl hys
  · cases a with
    | nil =>
      rw [List.append_nil] at hxs
      exact hright [] (by rw [List.append_nil, hxs]) hys.symm
    | cons o' a =>
      cases hys
      obtain ⟨hle, x, hget, hor⟩ := hleft a hxs
      refine ⟨hle, x, ?_, hor⟩
      rw [List.getElem?_append_left (List.getElem?_eq_some_iff.mp hget).1]
      exact hget

theorem Marked.nil : Marked env [] s hs := by
  intro pre o post heq
  cases pre <;> cases heq

/-- One operator: what has to be checked when it emits code. -/
theorem Marked.single (h : ∀ t', Lower.operator env o s = .ok () t' → s.code.length < t'.code.length →
    s.dead = false → ∃ x : Int, hs[0]? = some x ∧ (x = s.h ∨ x = -1)) : Marked env [o] s hs := by
  intro pre o' post heq t t' hpre ho hlt hdead
  cases pre with
  | nil =>
    cases heq
    cases hpre
    obtain ⟨x, hx, hor⟩ := h t' ho hlt hdead
    exact ⟨le_rfl, x, by rw [Nat.sub_self]; exact hx, hor⟩
  | cons p pre =>
    cases pre <;> cases heq

/-- An operator that emits nothing. -/
theorem Marked.silent (ho : Lower.operator env o s = .ok () s1)
    (hlen : s1.code.length = s.code.length) : Marked env [o] s [] := by
  refine Marked.single fun t' ht' hlt => ?_
  rw [ho] at ht'
  cases ht'
  omega

theorem Marked.cons (h1 : Marked env [o] s hs) (hx : Lower.operator env o s = .ok () s1)
    (hlen : s1.code.length = s.code.length + hs.length) (h2 : Marked env ys s1 hs') :
    Marked env (o :: ys) s (hs ++ hs') := by
  refine h1.append ?_ hlen h2
  simp only [Lower.operators]
  rw [bind_ok hx]
  rfl

end Marked

theorem mark_or (st : State) (ghost : Bool) (n : Nat) : st.mark ghost n = n ∨ st.mark ghost n = -1 := by
  unfold State.mark
  split
  · exact .inr rfl
  · exact .inl rfl

theorem close_heights (t : Nat) (is : Items) : (close t is).map (·.2) = is.map (·.2) := by
  simp [close, Function.comp_def]

/-- A `block` or `loop` opens. -/
theorem scope_open {env : LowerEnv} {o : Operator} {bt : BlockType} {kind : CtrlKind} {s : LState}
    {a : Nat × Nat} {base : Nat}
    (ho : Lower.operator env o = (do
      let (np, nr) ← Lower.ofExcept (blockArity bt env.funcTypes)
      Lower.pushCtrl kind np nr))
    (ha : blockArity bt env.funcTypes = .ok a) (he : enter a.1 (view s) = some base) :
    Lower.operator env o s =
      .ok () { s with ctrl := opened kind s.code.length none base a.1 a.2 s.dead :: s.ctrl } := by
  have hopen : Lower.operator env o s = Lower.pushCtrl kind a.1 a.2 none s := by
    simp only [ho, ha, bind_apply, ofExcept_apply]
  rw [hopen, pushCtrl_apply, he]
  rfl

/-- An `if` opens. -/
theorem if_open {env : LowerEnv} {bt : BlockType} {s : LState} {a : Nat × Nat} {st0 : State}
    {base : Nat} (ha : blockArity bt env.funcTypes = .ok a) (hc : consume 1 0 (view s) = some st0)
    (he : enter a.1 st0 = some base) :
    Lower.operator env (.if_ bt) s = .ok () (atIf s st0.h base a.1 a.2) := by
  obtain ⟨-, hnone⟩ | ⟨np, nr, st1, base1, h1, h2, h3, h4⟩ := ifArm_cases env s bt
  · rw [hnone a st0 ha hc] at he
    cases he
  · rw [ha] at h1
    cases h1
    rw [hc] at h2
    cases h2
    rw [he] at h3
    cases h3
    exact h4

/-- The end of a scope emits nothing: the part of `Marked` behind the opening operator. -/
theorem marked_scope {env : LowerEnv} {xs ys : List Operator} {s1 s2 s3 : LState}
    {hs hs' : List Int} (hxs : Marked env xs s1 hs) (hx : Lower.operators env xs s1 = .ok () s2)
    (hlen : s2.code.length = s1.code.length + hs.length) (hend : Lower.endArm env s2 = .ok () s3)
    (hlen' : s3.code.length = s2.code.length) (hys : Marked env ys s3 hs') :
    Marked env (xs ++ .end_ :: ys) s1 (hs ++ hs') := by
  refine hxs.append hx hlen ?_
  have hsil : Marked env [.end_] s2 [] := Marked.silent hend hlen'
  exact hsil.cons hend (by simpa using hlen') hys

theorem extend_length (s : LState) (is : Items) (st : State) :
    (extend s is st).code.length = s.code.length + is.length := by
  simp [extend]

/-- A scope of kind `block` or `loop` and the rest of the sequence. -/
theorem marked_blocks {env : LowerEnv} {o : Operator} {bt : BlockType} {kind : CtrlKind} {s : LState}
    {b rest : Body} {a : Nat × Nat} {base : Nat} {isb isr : Items} {stb : State}
    (hk : kind ≠ .func) (hif : kind ≠ .if_)
    (ho : Lower.operator env o = (do
      let (np, nr) ← Lower.ofExcept (blockArity bt env.funcTypes)
      Lower.pushCtrl kind np nr))
    (ha : blockArity bt env.funcTypes = .ok a) (he : enter a.1 (view s) = some base)
    (hb : Refines (Lower.operators env b.flatten)
      { s with ctrl := opened kind s.code.length none base a.1 a.2 s.dead :: s.ctrl } (some (isb, stb)))
    (hmb : Marked env b.flatten
      { s with ctrl := opened kind s.code.length none base a.1 a.2 s.dead :: s.ctrl } (isb.map (·.2)))
    (hmr : ∀ s', s'.ctrl.map label = s.ctrl.map label → view s' = (view s).leave base a.2 stb →
      Marked env rest.flatten s' (isr.map (·.2))) :
    Marked env (o :: (b.flatten ++ .end_ :: rest.flatten)) s
      ((close stb.pc isb ++ isr).map (·.2)) := by
  have hopen := scope_open ho ha he
  obtain ⟨-, hend⟩ := scope_matches env s (c := opened kind s.code.length none base a.1 a.2 s.dead)
    hk hif rfl hb
  obtain ⟨hpc, hx⟩ := hb
  rw [bind_ok hx] at hend
  have hsil : Marked env [o] s [] := Marked.silent hopen rfl
  rw [List.map_append, close_heights]
  refine hsil.cons hopen rfl (marked_scope hmb hx ?_ hend ?_ (hmr _ (map_label_record _ _ _) ?_))
  · rw [extend_length, List.length_map]
  · rw [extend_length, extend_length, close_length]
  · refine view_extend ?_
    rw [close_length]
    exact hpc

theorem body_marked (env : LowerEnv) (b : Body) (hb : b.Plain) :
    ∀ (ghost : Bool) (s : LState) (is : Items) (st' : State),
      body env (s.ctrl.map label) ghost (view s) b = some (is, st') →
      Marked env b.flatten s (is.map (·.2)) := by
  induction b with
  | nil => exact fun _ _ _ _ _ => Marked.nil
  | op o rest ih =>
    intro ghost s is st' hbody
    obtain ⟨is1, st1, is2, h1, h2, rfl⟩ := body_op_some.mp hbody
    have href := refines_operator env ghost s o hb.1
    rw [h1] at href
    obtain ⟨hpc, hx⟩ := href
    rw [List.map_append]
    have hrest := ih hb.2 ghost (extend s is1 st1) is2 st'
    rw [view_extend hpc, extend, map_label_record] at hrest
    refine Marked.cons (Marked.single fun t' ht' hlt hdead => ?_) hx ?_ (hrest h2)
    · rw [hx] at ht'
      cases ht'
      obtain ⟨rfl, -⟩ | ⟨i, js, rfl⟩ := first_operator (show (view s).dead = false from hdead) o is1 st1 h1
      · rw [extend_length] at hlt
        exact absurd hlt (by simp)
      · exact ⟨_, rfl, mark_or _ _ _⟩
    · rw [extend_length, List.length_map]
  | block bt b rest ihb ihr =>
    intro ghost s is st' hbody
    obtain ⟨a, ha, base, he, isb, stb, isr, h1, h2, rfl⟩ := body_block_some.mp hbody
    have href := refines_body env b hb.1 _ ghost
      { s with ctrl := opened .block s.code.length none base a.1 a.2 s.dead :: s.ctrl } rfl
    refine marked_blocks (by decide) (by decide) rfl ha he (h1 ▸ href) (ihb hb.1 ghost _ _ _ h1) ?_
    intro s' hl hv
    refine ihr hb.2 ghost s' _ st' ?_
    rw [hl, hv]
    exact h2
  | loop bt b rest ihb ihr =>
    intro ghost s is st' hbody
    obtain ⟨a, ha, base, he, isb, stb, isr, h1, h2, rfl⟩ := body_loop_some.mp hbody
    have href := refines_body env b hb.1 _ ghost
      { s with ctrl := opened .loop s.code.length none base a.1 a.2 s.dead :: s.ctrl } rfl
    refine marked_blocks (by decide) (by decide) rfl ha he (h1 ▸ href) (ihb hb.1 ghost _ _ _ h1) ?_
    intro s' hl hv
    refine ihr hb.2 ghost s' _ st' ?_
    rw [hl, hv]
    exact h2
  | ifThen bt b rest ihb ihr =>
    intro ghost s is st' hbody
    obtain ⟨a, ha, st0, hc, base, he, isb, stb, isr, h1, h2, rfl⟩ := body_ifThen_some.mp hbody
    have hopen := if_open ha hc he
    have hview := view_atIf s hc base a.1 a.2
    have href := refines_body env b hb.1 _ ghost (atIf s st0.h base a.1 a.2) rfl
    have hmb := ihb hb.1 ghost (atIf s st0.h base a.1 a.2) isb stb
    rw [hview] at href hmb
    have href' : Refines _ _ (some (isb, stb)) := h1 ▸ href
    obtain ⟨-, hend⟩ := ifThen_matches (m := (view s).mark ghost s.h) env s
      (c := opened .if_ (s.code.length + 1) (some s.code.length) base a.1 a.2 s.dead) rfl rfl rfl rfl
      href'
    obtain ⟨hpc, hx⟩ := href'
    have hend' := (bind_ok hx).symm.trans hend
    have hif : Marked env [.if_ bt] s [(view s).mark ghost s.h] :=
      Marked.single fun _ _ _ _ => ⟨_, rfl, mark_or _ _ _⟩
    rw [List.map_append, List.map_cons, close_heights]
    refine hif.cons hopen (by simp [atIf]) (marked_scope (hmb h1) hx ?_ hend' ?_ ?_)
    · rw [extend_length, List.length_map]
    · rw [extend_length, extend_length, List.length_cons, close_length, atIf]
      simp only [List.length_append, List.length_singleton]
      omega
    · refine ihr hb.2 ghost _ _ st' ?_
      rw [view_extend (by simp [atIf] at hpc ⊢; omega), extend, map_label_record]
      exact h2
  | ifElse bt b els rest ihb ihe ihr =>
    intro ghost s is st' hbody
    obtain ⟨a, ha, st0, hc, base, he, isb, stb, ise, ste, isr, h1, h2, h3, rfl⟩ :=
      body_ifElse_some.mp hbody
    have hopen := if_open ha hc he
    have hview := view_atIf s hc base a.1 a.2
    have href := refines_body env b hb.1 _ ghost (atIf s st0.h base a.1 a.2) rfl
    have hmb := ihb hb.1 ghost (atIf s st0.h base a.1 a.2) isb stb
    rw [hview] at href hmb
    have href' : Refines _ _ (some (isb, stb)) := h1 ▸ href
    obtain ⟨hpc, hx⟩ := href'
    set c := opened .if_ (s.code.length + 1) (some s.code.length) base a.1 a.2 s.dead with hcdef
    have hlen : s.code.length + 1 + isb.length = stb.pc := by
      rw [hpc, atIf]
      simp
    -- the state behind the `else`
    have helse : Lower.operator env .else_ (extend (atIf s st0.h base a.1 a.2) isb stb) =
        .ok () (atElse s c isb stb) := by
      have hext := extend_if s c st0.h isb stb
      rw [show extend (atIf s st0.h base a.1 a.2) isb stb = _ from hext]
      exact elseArm_atElse s rfl rfl rfl hlen
    have hcode : (atElse s c isb stb).code.length = stb.pc + 1 := by
      simp [atElse]
      omega
    have hviewe : view (atElse s c isb stb) =
        { stb with pc := stb.pc + 1, h := base + a.1, dead := false } := by
      rw [view, hcode]
      rfl
    have hctrle : (atElse s c isb stb).ctrl.map label = ⟨none, base, a.2⟩ :: s.ctrl.map label := by
      rw [atElse, List.map_cons, map_label_record]
      rfl
    have hrefe := refines_body env els hb.2.1 _ (ghost || s.dead) (atElse s c isb stb) rfl
    have hme := ihe hb.2.1 (ghost || s.dead) (atElse s c isb stb) ise ste
    rw [hviewe, hctrle] at hrefe hme
    have hrefe' : Refines _ _ (some (ise, ste)) := h2 ▸ hrefe
    obtain ⟨hpce, hxe⟩ := hrefe'
    rw [hcode] at hpce
    have hend := @endArm_atElse env s c isb ise stb ste ((view s).mark ghost s.h)
      (stb.mark ghost stb.h) rfl hlen hpce.symm
    -- the four pieces of code
    have hif : Marked env [.if_ bt] s [(view s).mark ghost s.h] :=
      Marked.single fun _ _ _ _ => ⟨_, rfl, mark_or _ _ _⟩
    have helm : Marked env [.else_] (extend (atIf s st0.h base a.1 a.2) isb stb)
        [stb.mark ghost stb.h] :=
      Marked.single fun _ _ _ _ => ⟨_, rfl, mark_or _ _ _⟩
    have hrest : Marked env rest.flatten (extend s ((.code ⟨.brIfNot, 0, stb.pc + 1⟩,
        (view s).mark ghost s.h) :: (close ste.pc isb ++ (.code ⟨.br, 0, ste.pc⟩,
          stb.mark ghost stb.h) :: close ste.pc ise))
        { ste with h := c.base + c.nResults, dead := c.deadOnEntry }) (isr.map (·.2)) := by
      refine ihr hb.2.2 ghost _ _ st' ?_
      rw [view_extend (by simp; omega), extend, map_label_record]
      exact h3
    have hall := hif.cons hopen (by simp [atIf]) ((hmb h1).append hx (by
      rw [extend_length, List.length_map]) (helm.cons helse (by
        rw [hcode, extend_length, hpc]
        rfl) (marked_scope (hme h2) hxe (by rw [extend_length, List.length_map]) hend (by
          rw [extend_length, extend_length, hcode]
          simp
          omega) hrest)))
    rw [Body.flatten]
    simpa [close_heights, show (view s).h = s.h from rfl] using hall

end Structured

end CuWasm
