import CuWasm.Proofs.PlainProofs
import CuWasm.Verify
import Mathlib.Data.Finset.Card
import Mathlib.Data.List.Nodup

/-!
# What `verify_cuop` establishes

`Closed m f G B` says that the heights `G` are a solution of the flow equations of `f`, bounded by
`B`. The worklist computes one (`analyse_closed`), and it computes the restriction of every solution
to the positions reachable from the entry (`Closed.analyse`).
-/

namespace CuWasm

namespace Verify

variable {m : HostModule} {f : FuncMeta}

/-! ## The `switch`, case by case -/

theorem toI32_of_nonneg {b : Nat} (h : 0 ≤ toI32 b) : toI32 b = (b % 2 ^ 32 : Nat) := by
  unfold toI32 at h ⊢
  rw [BitVec.toInt_eq_toNat_cond] at h ⊢
  rw [BitVec.toNat_ofNat] at h ⊢
  split_ifs at h ⊢ with hc
  · rfl
  · omega

/-- What the `switch` can decide about the instruction `i` at height `h`. -/
inductive FlowCase (m : HostModule) (f : FuncMeta) (i : CuOp) (h : Int) : Flow → Prop where
  | plain {p q : Nat} (he : CuWasm.effect i = some (p, q)) (hp : p ≤ h) :
      FlowCase m f i h { nextH := h - p + q }
  | unwind (hop : i.op = .unwind) (h0 : 0 ≤ toI32 i.b - f.nParams - f.nLocals)
      (h1 : toI32 i.b - f.nParams - f.nLocals ≤ h) :
      FlowCase m f i h { nextH := toI32 i.b - f.nParams - f.nLocals }
  | br (hop : i.op = .br) (h1 : f.codeOff ≤ i.b) (h2 : i.b < f.codeOff + f.codeLen) :
      FlowCase m f i h { nextH := h, fall := false, target := some i.b }
  | brIfNot (hop : i.op = .brIfNot) (h0 : 1 ≤ h) (h1 : f.codeOff ≤ i.b)
      (h2 : i.b < f.codeOff + f.codeLen) :
      FlowCase m f i h { nextH := h - 1, target := some i.b }
  | call {g : FuncMeta} (hop : i.op = .call) (hg : m.funcs[i.b]? = some g) (hp : g.nParams ≤ h) :
      FlowCase m f i h { nextH := h - g.nParams + g.nResults }
  | returnCall {g : FuncMeta} (hop : i.op = .returnCall) (hg : m.funcs[i.b]? = some g)
      (hp : g.nParams ≤ h) : FlowCase m f i h { nextH := h, fall := false }
  | leave (hop : i.op = .ret ∨ i.op = .endFunc) (hp : f.nResults ≤ h) :
      FlowCase m f i h { nextH := h, fall := false }
  | unreachable (hop : i.op = .unreachable) : FlowCase m f i h { nextH := h, fall := false }
  | callHost (hop : i.op = .callHost) (hp : ((i.a &&& 0xff : Nat) : Int) ≤ h) :
      FlowCase m f i h
        { nextH := h - ((i.a &&& 0xff : Nat) : Int) + (((i.a >>> 8) &&& 0xff : Nat) : Int) }
  | callIndirect {fpv : Nat} (hop : i.op = .callIndirect) (hfp : m.typeFp[i.b]? = some fpv)
      (hp : 1 + ((fpv &&& 0xff : Nat) : Int) ≤ h) :
      FlowCase m f i h
        { nextH := h - (1 + ((fpv &&& 0xff : Nat) : Int)) + (((fpv >>> 8) &&& 0xff : Nat) : Int) }

theorem effect_eq_ok {h pops pushes : Int} {msg : String} {fl : Flow}
    (hf : effect id h pops pushes msg = .ok fl) : pops ≤ h ∧ fl = { nextH := h - pops + pushes } := by
  unfold effect at hf
  split_ifs at hf with hc
  cases hf
  exact ⟨by omega, rfl⟩

/-- The stack effect table of the verifier is the one of the interpreter. -/
theorem flow_plain {i : CuOp} {h : Int} {fl : Flow} {p q : Nat} (hh : 0 ≤ h)
    (he : CuWasm.effect i = some (p, q)) (hf : flow id m f i h = .ok fl) :
    p ≤ h ∧ fl = { nextH := h - p + q } := by
  unfold CuWasm.effect at he
  unfold flow at hf
  cases hop : i.op <;> simp only [hop, Option.some.injEq, Prod.mk.injEq, reduceCtorEq] at he hf <;>
    obtain ⟨rfl, rfl⟩ := he
  all_goals
    first
    | exact effect_eq_ok hf
    | (cases hf
       exact ⟨hh, by simp⟩)

theorem flow_cases {i : CuOp} {h : Int} {fl : Flow} (hh : 0 ≤ h) (hf : flow id m f i h = .ok fl) :
    FlowCase m f i h fl := by
  cases he : CuWasm.effect i with
  | some pq =>
    obtain ⟨h1, rfl⟩ := flow_plain hh he hf
    exact .plain he h1
  | none =>
    unfold CuWasm.effect at he
    unfold flow at hf
    cases hop : i.op <;> simp only [hop, id_eq, reduceCtorEq] at he hf
    case unwind =>
      split_ifs at hf with h1 h2
      cases hf
      exact .unwind hop (by omega) (by omega)
    case br =>
      split_ifs at hf with h1
      cases hf
      exact .br hop (by omega) (by omega)
    case brIfNot =>
      split_ifs at hf with h1 h2
      cases hf
      exact .brIfNot hop (by omega) (by omega) (by omega)
    case call =>
      cases hg : m.funcs[i.b]? with
      | none => simp only [hg, reduceCtorEq] at hf
      | some g =>
        simp only [hg] at hf
        obtain ⟨h1, rfl⟩ := effect_eq_ok hf
        exact .call hop hg h1
    case returnCall =>
      cases hg : m.funcs[i.b]? with
      | none => simp only [hg, reduceCtorEq] at hf
      | some g =>
        simp only [hg] at hf
        split_ifs at hf with h1
        cases hf
        exact .returnCall hop hg (by omega)
    case ret =>
      split_ifs at hf with h1
      cases hf
      exact .leave (.inl hop) (by omega)
    case endFunc =>
      split_ifs at hf with h1
      cases hf
      exact .leave (.inr hop) (by omega)
    case unreachable =>
      cases hf
      exact .unreachable hop
    case callHost =>
      obtain ⟨h1, rfl⟩ := effect_eq_ok hf
      exact .callHost hop h1
    case callIndirect =>
      split_ifs at hf with h1
      cases hg : m.typeFp[i.b]? with
      | none => simp only [hg, reduceCtorEq] at hf
      | some fpv =>
        simp only [hg] at hf
        obtain ⟨h2, rfl⟩ := effect_eq_ok hf
        exact .callIndirect hop hg h2

/-- No instruction leaves a negative height. -/
theorem FlowCase.nonneg {i : CuOp} {h : Int} {fl : Flow} (hc : FlowCase m f i h fl) (hh : 0 ≤ h) :
    0 ≤ fl.nextH := by
  cases hc <;> simp only <;> omega

/-- Where control does not fall through, or goes to a target, the height does not grow. -/
theorem FlowCase.next_le {i : CuOp} {h : Int} {fl : Flow} (hc : FlowCase m f i h fl)
    (hfl : fl.fall = false ∨ fl.target ≠ none) : fl.nextH ≤ h := by
  cases hc with
  | brIfNot hop h0 h1 h2 => exact Int.sub_le_self h Int.one_nonneg
  | br | returnCall | leave | unreachable => exact le_rfl
  | _ => simp at hfl

/-- Behind these instructions control does not go on. -/
theorem FlowCase.stops {i : CuOp} {h : Int} {fl : Flow} (hc : FlowCase m f i h fl)
    (hop : i.op = .br ∨ i.op = .ret ∨ i.op = .returnCall ∨ i.op = .unreachable) :
    fl.fall = false := by
  cases hc with
  | plain he hp => rcases hop with h | h | h | h <;> simp [CuWasm.effect, h] at he
  | br | returnCall | leave | unreachable => rfl
  | _ => simp_all

/-- A branch target lies inside the function. -/
theorem FlowCase.target_mem {i : CuOp} {h : Int} {fl : Flow} {t : Nat} (hc : FlowCase m f i h fl)
    (ht : fl.target = some t) : f.codeOff ≤ t ∧ t < f.codeOff + f.codeLen := by
  cases hc <;> simp only [Option.some.injEq, reduceCtorEq] at ht <;> subst ht <;> omega

/-! ## The worklist -/

/-- The flow equations at the position `r` for the heights `G`. -/
structure FlowAt (m : HostModule) (f : FuncMeta) (G : Nat → Int) (B : Int) (r : Nat) (fl : Flow) :
    Prop where
  lt : r < f.codeLen
  flow : flow id m f (instrAt m f r) (G r) = .ok fl
  index : indexCheck m f (instrAt m f r) = .ok ()
  target : ∀ t, fl.target = some t → t - f.codeOff < f.codeLen ∧ G (t - f.codeOff) = fl.nextH
  fall : fl.fall = true → r + 1 < f.codeLen ∧ G (r + 1) = fl.nextH
  le : G r ≤ B
  next_le : fl.nextH ≤ B

/-- The heights `G` solve the flow equations at every position they are defined at. -/
structure Closed (m : HostModule) (f : FuncMeta) (G : Nat → Int) (B : Int) : Prop where
  start : G 0 = 0
  flowAt : ∀ r, 0 ≤ G r → ∃ fl, FlowAt m f G B r fl

/-- `st'` knows at least the heights of `st`, and has queued every position it knows more about. -/
structure Extends (f : FuncMeta) (st st' : VState) : Prop where
  height : ∀ r, 0 ≤ st.height r → st'.height r = st.height r
  work : ∃ new, st'.work = new ++ st.work ∧ new.Nodup ∧ (∀ r ∈ new, r < f.codeLen) ∧
    ∀ r, r ∈ new ↔ 0 ≤ st'.height r ∧ st.height r < 0
  maxH : st.maxH ≤ st'.maxH

theorem Extends.refl (st : VState) : Extends f st st :=
  ⟨fun _ _ => rfl, ⟨[], rfl, List.nodup_nil, fun r hr => (by cases hr), fun r => by simp⟩, le_rfl⟩

theorem Extends.trans {a b c : VState} (h : Extends f a b) (h' : Extends f b c) :
    Extends f a c := by
  obtain ⟨n1, w1, d1, l1, m1⟩ := h.work
  obtain ⟨n2, w2, d2, l2, m2⟩ := h'.work
  have hkeep : ∀ r, 0 ≤ a.height r → c.height r = a.height r := fun r hr => by
    have hb := h.height r hr
    rw [h'.height r (by omega), hb]
  refine ⟨hkeep, ⟨n2 ++ n1, by rw [w2, w1, List.append_assoc], ?_, fun r hr => ?_, fun r => ?_⟩,
    h.maxH.trans h'.maxH⟩
  · refine List.Nodup.append d2 d1 fun r h2 h1 => ?_
    have := (m2 r).mp h2
    have := (m1 r).mp h1
    omega
  · exact (List.mem_append.mp hr).elim (l2 r) (l1 r)
  · rw [List.mem_append, m1, m2]
    constructor
    · rintro (⟨h1, h2⟩ | ⟨h1, h2⟩)
      · refine ⟨h1, ?_⟩
        by_contra hr
        have := h.height r (by omega)
        omega
      · exact ⟨by rw [h'.height r h1]; exact h1, h2⟩
    · rintro ⟨h1, h2⟩
      by_cases hb : 0 ≤ b.height r
      · exact .inr ⟨hb, h2⟩
      · exact .inl ⟨h1, by omega⟩

/-- A `join` that succeeds. -/
theorem join_ok {rel : Nat} {h : Int} {st st' : VState} (hh : 0 ≤ h)
    (hj : join f rel h st = .ok st') :
    rel < f.codeLen ∧ st'.height rel = h ∧ Extends f st st' ∧ st'.maxH = st.maxH := by
  unfold join at hj
  split_ifs at hj with h1 h2 h3
  · cases hj
    refine ⟨by omega, by simp, ⟨fun r hr => ?_, ⟨[rel], rfl, List.nodup_singleton _, fun r hr => ?_,
      fun r => ?_⟩, le_rfl⟩, rfl⟩
    · exact Function.update_of_ne (by rintro rfl; omega) _ _
    · rw [List.mem_singleton.mp hr]
      omega
    · rw [List.mem_singleton]
      constructor
      · rintro rfl
        simp only [Function.update_self]
        exact ⟨hh, h2⟩
      · rintro ⟨h4, h5⟩
        by_contra hne
        simp only [Function.update_of_ne hne] at h4
        omega
  · cases hj
    exact ⟨by omega, not_not.mp h3, Extends.refl st, rfl⟩

/-- Raising the recorded maximum extends the state. -/
theorem Extends.raise {st : VState} {h : Int} :
    Extends f st { st with maxH := max st.maxH h } :=
  ⟨fun _ _ => rfl, ⟨[], rfl, List.nodup_nil, fun r hr => (by cases hr), fun r => by simp⟩,
    le_max_left _ _⟩

/-- The optional `join` with a branch target. -/
def joinTarget (f : FuncMeta) (fl : Flow) (st : VState) : Except String VState :=
  match fl.target with
  | some t => join f (t - f.codeOff) fl.nextH st
  | none => .ok st

/-- The `join` with the next instruction. -/
def joinNext (f : FuncMeta) (rel : Nat) (fl : Flow) (st : VState) : Except String VState :=
  if fl.fall then
    if rel + 1 ≥ f.codeLen then .error "fallthrough past end of function"
    else join f (rel + 1) fl.nextH st
  else .ok st

/-- One round in terms of its parts. -/
theorem visit_eq (int : Int → Int) (m : HostModule) (f : FuncMeta) (rel : Nat) (st : VState) :
    visit int m f rel st =
      if st.height rel < 0 then .error "uninitialized height"
      else (do
        let fl ← flow int m f (instrAt m f rel) (st.height rel)
        let st1 ← joinTarget f fl { st with maxH := max st.maxH (st.height rel) }
        indexCheck m f (instrAt m f rel)
        joinNext f rel fl { st1 with maxH := max st1.maxH fl.nextH }) := by
  unfold visit
  by_cases h0 : st.height rel < 0
  · simp only [if_pos h0]
    rfl
  · simp only [if_neg h0]
    cases flow int m f (instrAt m f rel) (st.height rel) with
    | error e => rfl
    | ok fl =>
      simp only [bind, Except.bind, joinTarget, joinNext]
      cases fl.target with
      | none =>
        cases indexCheck m f (instrAt m f rel) with
        | error e => rfl
        | ok _ => cases fl.fall <;> simp only [pure, Except.pure] <;> split_ifs <;> rfl
      | some t =>
        simp only
        cases join f (t - f.codeOff) fl.nextH { st with maxH := max st.maxH (st.height rel) } with
        | error e => rfl
        | ok st1 =>
          cases indexCheck m f (instrAt m f rel) with
          | error e => rfl
          | ok _ => cases fl.fall <;> simp only [pure, Except.pure] <;> split_ifs <;> rfl

theorem bind_eq_ok {α β : Type} {x : Except String α} {g : α → Except String β} {b : β}
    (h : x >>= g = .ok b) : ∃ a, x = .ok a ∧ g a = .ok b := by
  cases x with
  | error e => cases h
  | ok a => exact ⟨a, rfl, h⟩

theorem joinTarget_ok {fl : Flow} {st st' : VState} (hn : 0 ≤ fl.nextH)
    (h : joinTarget f fl st = .ok st') :
    (∀ t, fl.target = some t → t - f.codeOff < f.codeLen ∧ st'.height (t - f.codeOff) = fl.nextH) ∧
      Extends f st st' ∧ st'.maxH = st.maxH := by
  unfold joinTarget at h
  cases ht : fl.target with
  | none =>
    simp only [ht] at h
    cases h
    exact ⟨fun t h => (by cases h), Extends.refl st, rfl⟩
  | some t =>
    simp only [ht] at h
    obtain ⟨h1, h2, h3, h4⟩ := join_ok hn h
    refine ⟨fun t' ht' => ?_, h3, h4⟩
    cases ht'
    exact ⟨h1, h2⟩

theorem joinNext_ok {rel : Nat} {fl : Flow} {st st' : VState} (hn : 0 ≤ fl.nextH)
    (h : joinNext f rel fl st = .ok st') :
    (fl.fall = true → rel + 1 < f.codeLen ∧ st'.height (rel + 1) = fl.nextH) ∧
      Extends f st st' ∧ st'.maxH = st.maxH := by
  unfold joinNext at h
  split_ifs at h with h1 h2
  · obtain ⟨h3, h4, h5, h6⟩ := join_ok hn h
    exact ⟨fun _ => ⟨h3, h4⟩, h5, h6⟩
  · cases h
    exact ⟨fun h => absurd h h1, Extends.refl st, rfl⟩

/-- A round that succeeds solves the flow equations at its position. -/
theorem visit_ok {rel : Nat} {st st' : VState} (hlt : rel < f.codeLen)
    (h : visit id m f rel st = .ok st') :
    0 ≤ st.height rel ∧ Extends f st st' ∧ ∃ fl, FlowAt m f st'.height st'.maxH rel fl ∧
      st'.maxH = max (max st.maxH (st.height rel)) fl.nextH := by
  rw [visit_eq] at h
  split_ifs at h with h0
  have hh : 0 ≤ st.height rel := by omega
  obtain ⟨fl, hfl, h⟩ := bind_eq_ok h
  obtain ⟨st1, h1, h⟩ := bind_eq_ok h
  obtain ⟨_, hidx, h2⟩ := bind_eq_ok h
  have hn := (flow_cases hh hfl).nonneg hh
  obtain ⟨ht, he1, hm1⟩ := joinTarget_ok hn h1
  obtain ⟨hnext, he2, hm2⟩ := joinNext_ok hn h2
  have he12 : Extends f st1 st' := Extends.raise.trans he2
  have hrel : st'.height rel = st.height rel := by
    have hr1 : st1.height rel = st.height rel := he1.height rel hh
    rw [he12.height rel (by omega), hr1]
  simp only at hm1 hm2
  refine ⟨hh, (Extends.raise.trans he1).trans he12, fl, ⟨hlt, by rw [hrel]; exact hfl, hidx,
    fun t htt => ?_, hnext, ?_, ?_⟩, ?_⟩
  · obtain ⟨h3, h4⟩ := ht t htt
    exact ⟨h3, by rw [he12.height _ (by omega), h4]⟩
  · omega
  · omega
  · rw [hm2, hm1]

/-- The flow equations only read the heights they mention, so they survive an extension. -/
theorem FlowAt.extend {st st' : VState} {r : Nat} {fl : Flow} (hr : 0 ≤ st.height r)
    (h : FlowAt m f st.height st.maxH r fl) (he : Extends f st st') :
    FlowAt m f st'.height st'.maxH r fl := by
  have hn := (flow_cases hr h.flow).nonneg hr
  refine ⟨h.lt, by rw [he.height r hr]; exact h.flow, h.index, fun t ht => ?_, fun hf => ?_, ?_, ?_⟩
  · obtain ⟨h1, h2⟩ := h.target t ht
    exact ⟨h1, by rw [he.height _ (by omega), h2]⟩
  · obtain ⟨h1, h2⟩ := h.fall hf
    exact ⟨h1, by rw [he.height _ (by omega), h2]⟩
  · rw [he.height r hr]
    exact h.le.trans he.maxH
  · exact h.next_le.trans he.maxH

/-- The invariant of the loop: every position with a known height is queued or done. -/
structure WorkInv (m : HostModule) (f : FuncMeta) (st : VState) : Prop where
  start : st.height 0 = 0
  work : ∀ r ∈ st.work, 0 ≤ st.height r ∧ r < f.codeLen
  done : ∀ r, 0 ≤ st.height r → r ∈ st.work ∨ ∃ fl, FlowAt m f st.height st.maxH r fl

theorem initial_height_of_ne {r : Nat} (h : r ≠ 0) : initial.height r = -1 := by
  simp [initial, h]

theorem workInv_initial (hlen : 0 < f.codeLen) : WorkInv m f initial := by
  refine ⟨rfl, fun r hr => ?_, fun r hr => .inl ?_⟩
  · rw [List.mem_singleton.mp hr]
    exact ⟨le_rfl, hlen⟩
  · by_cases h : r = 0
    · exact List.mem_singleton.mpr h
    · rw [initial_height_of_ne h] at hr
      omega

theorem workInv_visit {rel : Nat} {work : List Nat} {st st' : VState} (hinv : WorkInv m f st)
    (hw : st.work = rel :: work) (h : visit id m f rel { st with work := work } = .ok st') :
    WorkInv m f st' := by
  have hrel := hinv.work rel (by rw [hw]; exact List.mem_cons_self)
  obtain ⟨_, he, fl, hfl, _⟩ := visit_ok hrel.2 h
  obtain ⟨new, hnew, _, hlt, hmem⟩ := he.work
  have hkeep := he.height
  simp only at hnew hmem hkeep
  refine ⟨?_, fun r hr => ?_, fun r hr => ?_⟩
  · rw [hkeep 0 (by rw [hinv.start]), hinv.start]
  · rw [hnew, List.mem_append] at hr
    rcases hr with hr | hr
    · exact ⟨((hmem r).mp hr).1, hlt r hr⟩
    · obtain ⟨h1, h2⟩ := hinv.work r (by rw [hw]; exact List.mem_cons_of_mem _ hr)
      exact ⟨by rw [hkeep r h1]; exact h1, h2⟩
  · by_cases hold : 0 ≤ st.height r
    · rcases hinv.done r hold with hr | ⟨fl', hfl'⟩
      · rw [hw, List.mem_cons] at hr
        rcases hr with rfl | hr
        · exact .inr ⟨fl, hfl⟩
        · exact .inl (by rw [hnew]; exact List.mem_append_right _ hr)
      · exact .inr ⟨fl', @FlowAt.extend _ _ { st with work := work } _ _ _ hold hfl' he⟩
    · exact .inl (by rw [hnew]; exact List.mem_append_left _ ((hmem r).mpr ⟨hr, by omega⟩))

theorem loop_closed {n : Nat} {st st' : VState} (hinv : WorkInv m f st)
    (h : loop id m f n st = .ok st') : Closed m f st'.height st'.maxH := by
  have hend : ∀ st, WorkInv m f st → st.work = [] → Closed m f st.height st.maxH := by
    intro st hinv hw
    refine ⟨hinv.start, fun r hr => ?_⟩
    rcases hinv.done r hr with hr | hr
    · rw [hw] at hr
      cases hr
    · exact hr
  induction n generalizing st with
  | zero =>
    unfold loop at h
    split_ifs at h with hw
    cases h
    exact hend _ hinv hw
  | succ n ih =>
    unfold loop at h
    split at h
    · cases h
      exact hend _ hinv ‹_›
    · obtain ⟨st1, h1, h2⟩ := bind_eq_ok h
      exact ih (workInv_visit hinv ‹_› h1) h2

/-- The heights of an accepted function solve its flow equations. -/
theorem analyse_closed {st : VState} (hlen : 0 < f.codeLen) (h : analyse id m f = .ok st) :
    Closed m f st.height st.maxH :=
  loop_closed (workInv_initial hlen) h

/-! ## Every position is visited once -/

/-- The positions queued or done are distinct, known and inside the function. -/
structure Once (f : FuncMeta) (done : List Nat) (st : VState) : Prop where
  known : ∀ r ∈ st.work ++ done, 0 ≤ st.height r
  nodup : (st.work ++ done).Nodup
  lt : ∀ r ∈ st.work ++ done, r < f.codeLen

theorem once_initial (hlen : 0 < f.codeLen) : Once f [] initial := by
  have hmem : ∀ r ∈ initial.work ++ [], r = 0 := by simp [initial]
  refine ⟨fun r hr => ?_, by simp [initial], fun r hr => ?_⟩
  · rw [hmem r hr]
    exact le_rfl
  · rw [hmem r hr]
    exact hlen

theorem once_visit {done work : List Nat} {rel : Nat} {st st' : VState} (hst : Once f done st)
    (hw : st.work = rel :: work) (h : visit id m f rel { st with work := work } = .ok st') :
    Once f (rel :: done) st' := by
  have hperm : (work ++ rel :: done).Perm (st.work ++ done) := by
    rw [hw]
    exact List.perm_middle
  have hrel : rel < f.codeLen := hst.lt rel (by rw [hw]; exact List.mem_cons_self)
  obtain ⟨_, he, _⟩ := visit_ok hrel h
  obtain ⟨new, hnew, hnd, hlt, hmem⟩ := he.work
  simp only at hnew hmem
  have hsplit : st'.work ++ rel :: done = new ++ (work ++ rel :: done) := by
    rw [hnew, List.append_assoc]
  refine ⟨fun r hr => ?_, ?_, fun r hr => ?_⟩
  · rw [hsplit] at hr
    rcases List.mem_append.mp hr with hr | hr
    · exact ((hmem r).mp hr).1
    · have hk := hst.known r (hperm.mem_iff.mp hr)
      rw [he.height r hk]
      exact hk
  · rw [hsplit]
    refine List.Nodup.append hnd (hperm.nodup_iff.mpr hst.nodup) fun r h1 h2 => ?_
    have := ((hmem r).mp h1).2
    have := hst.known r (hperm.mem_iff.mp h2)
    omega
  · rw [hsplit] at hr
    rcases List.mem_append.mp hr with hr | hr
    · exact hlt r hr
    · exact hst.lt r (hperm.mem_iff.mp hr)

/-! ## Every solution is found -/

section Complete

variable {G : Nat → Int} {B : Int}

/-- The worklist is on its way to the solution `G`: what it knows agrees with `G`, and the positions
queued or done are distinct. -/
structure Towards (f : FuncMeta) (G : Nat → Int) (B : Int) (done : List Nat) (st : VState) : Prop where
  agree : ∀ r, 0 ≤ st.height r → st.height r = G r
  work : ∀ r ∈ st.work, 0 ≤ st.height r
  nodup : (st.work ++ done).Nodup
  lt : ∀ r ∈ st.work ++ done, r < f.codeLen
  known : ∀ r ∈ done, 0 ≤ st.height r
  maxH : st.maxH ≤ B

theorem join_agree {rel : Nat} {h : Int} {st : VState} (hrel : rel < f.codeLen) (hG : G rel = h)
    (hst : ∀ r, 0 ≤ st.height r → st.height r = G r) : ∃ st', join f rel h st = .ok st' ∧
      ∀ r, 0 ≤ st'.height r → st'.height r = G r := by
  unfold join
  rw [if_neg (by omega)]
  by_cases h1 : st.height rel < 0
  · refine ⟨_, if_pos h1, fun r hr => ?_⟩
    by_cases hr' : r = rel
    · rw [hr']
      simp [hG]
    · simp only [Function.update_of_ne hr'] at hr ⊢
      exact hst r hr
  · refine ⟨st, ?_, hst⟩
    rw [if_neg h1, if_neg]
    rw [not_not, hst rel (by omega), hG]

/-- Towards a solution no round fails. -/
theorem towards_visit {done work : List Nat} {rel : Nat} {st : VState} (hG : Closed m f G B)
    (hst : Towards f G B done st) (hw : st.work = rel :: work) :
    ∃ st', visit id m f rel { st with work := work } = .ok st' ∧ Towards f G B (rel :: done) st' := by
  have hrel : 0 ≤ st.height rel := hst.work rel (by rw [hw]; exact List.mem_cons_self)
  have hag := hst.agree rel hrel
  obtain ⟨fl, hfl⟩ := hG.flowAt rel (by omega)
  have hok : ∃ st', visit id m f rel { st with work := work } = .ok st' ∧
      ∀ r, 0 ≤ st'.height r → st'.height r = G r := by
    rw [visit_eq, if_neg (by simp only; omega)]
    simp only [hag, hfl.flow, hfl.index, bind, Except.bind]
    have h1 : ∃ st1, joinTarget f fl { st with work := work, maxH := max st.maxH (G rel) } = .ok st1 ∧
        ∀ r, 0 ≤ st1.height r → st1.height r = G r := by
      unfold joinTarget
      cases ht : fl.target with
      | none => exact ⟨_, rfl, hst.agree⟩
      | some t => exact join_agree (hfl.target t ht).1 (hfl.target t ht).2 hst.agree
    obtain ⟨st1, h1, hag1⟩ := h1
    simp only [h1]
    unfold joinNext
    by_cases hf : fl.fall = true
    · rw [if_pos hf, if_neg (by have := (hfl.fall hf).1; omega)]
      exact join_agree (hfl.fall hf).1 (hfl.fall hf).2 hag1
    · rw [if_neg hf]
      exact ⟨_, rfl, hag1⟩
  obtain ⟨st', hv, hag'⟩ := hok
  obtain ⟨_, he, fl', hfl', hmax⟩ := visit_ok hfl.lt hv
  have hfleq : fl' = fl := by
    have h1 := hfl'.flow
    rw [he.height rel hrel] at h1
    simp only [hag] at h1
    rw [hfl.flow] at h1
    cases h1
    rfl
  simp only at hmax
  have honce : Once f (rel :: done) st' := by
    refine once_visit ⟨fun r hr => ?_, hst.nodup, hst.lt⟩ hw hv
    rcases List.mem_append.mp hr with hr | hr
    · exact hst.work r hr
    · exact hst.known r hr
  refine ⟨st', hv, hag', fun r hr => honce.known r (List.mem_append_left _ hr), honce.nodup, honce.lt,
    fun r hr => honce.known r (List.mem_append_right _ hr), ?_⟩
  have h1 := hst.maxH
  have h2 := hfl.le
  have h3 := hfl.next_le
  rw [hmax, hfleq]
  omega

theorem length_le_of_nodup {l : List Nat} {n : Nat} (hnd : l.Nodup) (hlt : ∀ r ∈ l, r < n) :
    l.length ≤ n := by
  have h := List.Nodup.length_le_card (l := l.attach.map fun r => (⟨r.1, hlt r.1 r.2⟩ : Fin n)) (by
    rw [List.nodup_map_iff_inj_on (List.nodup_attach.mpr hnd)]
    intro a _ b _ hab
    exact Subtype.ext (congrArg Fin.val hab))
  simpa using h

theorem towards_loop {n : Nat} {done : List Nat} {st : VState} (hG : Closed m f G B)
    (hst : Towards f G B done st) (hn : f.codeLen ≤ n + done.length) :
    ∃ st', loop id m f n st = .ok st' ∧ (∀ r, 0 ≤ st'.height r → st'.height r = G r) ∧
      st'.maxH ≤ B := by
  induction n generalizing done st with
  | zero =>
    have hlen := length_le_of_nodup hst.nodup hst.lt
    rw [List.length_append] at hlen
    have hw : st.work = [] := List.eq_nil_of_length_eq_zero (by omega)
    exact ⟨st, by unfold loop; rw [if_pos hw], hst.agree, hst.maxH⟩
  | succ n ih =>
    unfold loop
    cases hw : st.work with
    | nil => exact ⟨st, rfl, hst.agree, hst.maxH⟩
    | cons rel work =>
      obtain ⟨st1, hv, hst1⟩ := towards_visit hG hst hw
      simp only [hv, bind, Except.bind]
      exact ih hst1 (by rw [List.length_cons]; omega)

theorem towards_initial (hG : Closed m f G B) : Towards f G B [] initial := by
  obtain ⟨fl, hfl⟩ := hG.flowAt 0 (by rw [hG.start])
  have hB : 0 ≤ B := hG.start ▸ hfl.le
  refine ⟨fun r hr => ?_, fun r hr => ?_, by simp [initial], fun r hr => ?_,
    fun r hr => (by cases hr), hB⟩
  · by_cases h : r = 0
    · rw [h, hG.start]
      rfl
    · rw [initial_height_of_ne h] at hr
      omega
  · rw [List.mem_singleton.mp hr]
    exact le_rfl
  · rw [List.append_nil] at hr
    rw [List.mem_singleton.mp hr]
    exact hfl.lt

/-- A solution of the flow equations makes the worklist succeed, with the heights of the solution
wherever it gets. -/
theorem Closed.analyse (hG : Closed m f G B) :
    ∃ st, analyse id m f = .ok st ∧ (∀ r, 0 ≤ st.height r → st.height r = G r) ∧ st.maxH ≤ B :=
  towards_loop hG (towards_initial hG) (by simp)

end Complete

/-- The heights bound the height behind every instruction: it is the height of a successor, or the
height in front. -/
theorem FlowAt.lower {G : Nat → Int} {B K : Int} {r : Nat} {fl : Flow} (hfl : FlowAt m f G B r fl)
    (hr : 0 ≤ G r) (hK : ∀ n, 0 ≤ G n → G n ≤ K) : FlowAt m f G K r fl := by
  have hcase := flow_cases hr hfl.flow
  refine ⟨hfl.lt, hfl.flow, hfl.index, hfl.target, hfl.fall, hK r hr, ?_⟩
  cases hfall : fl.fall with
  | true =>
    have hnext := (hfl.fall hfall).2
    rw [← hnext]
    exact hK _ (hnext ▸ hcase.nonneg hr)
  | false => exact (hcase.next_le (.inl hfall)).trans (hK r hr)

/-- The recorded maximum is no greater than the known heights. -/
theorem maxH_le {st : VState} {K : Int} (hlen : 0 < f.codeLen) (h : analyse id m f = .ok st)
    (hK : ∀ r, 0 ≤ st.height r → st.height r ≤ K) : st.maxH ≤ K := by
  have hcl := analyse_closed hlen h
  have hlow : Closed m f st.height K := ⟨hcl.start, fun r hr => by
    obtain ⟨fl, hfl⟩ := hcl.flowAt r hr
    exact ⟨fl, hfl.lower hr hK⟩⟩
  obtain ⟨st', hst', -, hle⟩ := hlow.analyse
  rw [h] at hst'
  cases hst'
  exact hle

/-! ## Reachable positions -/

/-- The positions that can follow the instruction `i` at `r`. -/
def successors (f : FuncMeta) (i : CuOp) (r : Nat) : List Nat :=
  match i.op with
  | .br => [i.b - f.codeOff]
  | .brIfNot => [i.b - f.codeOff, r + 1]
  | .ret | .endFunc | .returnCall | .unreachable => []
  | _ => [r + 1]

/-- The positions of `f` that a path of its flat code from the entry gets to. -/
inductive Reach (m : HostModule) (f : FuncMeta) : Nat → Prop where
  | entry : Reach m f 0
  | step {r r' : Nat} (h : Reach m f r) (hs : r' ∈ successors f (instrAt m f r) r) : Reach m f r'

theorem Reach.pred {r : Nat} (h : Reach m f r) :
    r = 0 ∨ ∃ r', Reach m f r' ∧ r ∈ successors f (instrAt m f r') r' := by
  cases h with
  | entry => exact .inl rfl
  | step h hs => exact .inr ⟨_, h, hs⟩

/-- The `switch` passes the height on to the successors. -/
theorem FlowCase.successor {i : CuOp} {h : Int} {fl : Flow} {r r' : Nat} (hc : FlowCase m f i h fl) :
    r' ∈ successors f i r ↔
      (fl.fall = true ∧ r' = r + 1) ∨ ∃ t, fl.target = some t ∧ r' = t - f.codeOff := by
  unfold successors
  cases hc with
  | plain he hp =>
    revert he
    unfold CuWasm.effect
    cases i.op <;> simp
  | leave hop hp => obtain hop | hop := hop <;> simp [hop]
  | brIfNot hop h0 h1 h2 => simp [hop, or_comm]
  | br hop h1 h2 => simp [hop]
  | unwind hop h0 h1 => simp [hop]
  | call hop hg hp => simp [hop]
  | returnCall hop hg hp => simp [hop]
  | unreachable hop => simp [hop]
  | callHost hop hp => simp [hop]
  | callIndirect hop hfp hp => simp [hop]

theorem FlowAt.successor {G : Nat → Int} {B : Int} {r r' : Nat} {fl : Flow}
    (hfl : FlowAt m f G B r fl) (h0 : 0 ≤ G r) (hs : r' ∈ successors f (instrAt m f r) r) :
    G r' = fl.nextH := by
  obtain ⟨hf, rfl⟩ | ⟨t, ht, rfl⟩ := (flow_cases h0 hfl.flow).successor.mp hs
  · exact (hfl.fall hf).2
  · exact (hfl.target t ht).2

/-- A solution defines the heights of the reachable positions. -/
theorem Closed.reach_nonneg {G : Nat → Int} {B : Int} (hG : Closed m f G B) {r : Nat}
    (h : Reach m f r) : 0 ≤ G r := by
  induction h with
  | entry => rw [hG.start]
  | step hr hs ih =>
    obtain ⟨fl, hfl⟩ := hG.flowAt _ ih
    rw [hfl.successor ih hs]
    exact (flow_cases ih hfl.flow).nonneg ih

/-- The analysis knows the heights of the reachable positions and no others. -/
theorem known_iff_reach {st : VState} (hlen : 0 < f.codeLen) (h : analyse id m f = .ok st) {r : Nat} :
    0 ≤ st.height r ↔ Reach m f r := by
  have hcl := analyse_closed hlen h
  refine ⟨fun hr => ?_, hcl.reach_nonneg⟩
  -- the heights cut down to the reachable positions are a solution as well
  classical
  set G : Nat → Int := fun r => if Reach m f r then st.height r else -1 with hG
  have hGr : ∀ {r}, 0 ≤ G r → Reach m f r ∧ G r = st.height r := by
    intro r hr
    simp only [hG] at hr ⊢
    split_ifs at hr ⊢ with hreach
    · exact ⟨hreach, rfl⟩
    · omega
  have hclG : Closed m f G st.maxH := by
    refine ⟨?_, fun r hr => ?_⟩
    · simp only [hG, if_pos Reach.entry]
      exact hcl.start
    · obtain ⟨hreach, heq⟩ := hGr hr
      obtain ⟨fl, hfl⟩ := hcl.flowAt r (heq ▸ hr)
      have hcase := flow_cases (heq ▸ hr) hfl.flow
      have hnext : ∀ r', r' ∈ successors f (instrAt m f r) r → G r' = fl.nextH := by
        intro r' hs
        simp only [hG, if_pos (hreach.step hs)]
        exact hfl.successor (heq ▸ hr) hs
      refine ⟨fl, hfl.lt, heq ▸ hfl.flow, hfl.index, fun t ht => ?_, fun hf => ?_, heq ▸ hfl.le,
        hfl.next_le⟩
      · exact ⟨(hfl.target t ht).1, hnext _ (hcase.successor.mpr (.inr ⟨t, ht, rfl⟩))⟩
      · exact ⟨(hfl.fall hf).1, hnext _ (hcase.successor.mpr (.inl ⟨hf, rfl⟩))⟩
  obtain ⟨st', hst', hagree, -⟩ := hclG.analyse
  rw [h] at hst'
  cases hst'
  exact (hGr (hagree r hr ▸ hr)).1

/-! ## The whole module -/

/-- `verify_cuop` fills in `max_stack` and changes nothing else. -/
def SameSig (f f' : FuncMeta) : Prop := f' = { f with maxStack := f'.maxStack }

/-- What the check of function number `fi` establishes. -/
def FuncOk (m : HostModule) (fi : Nat) (f : FuncMeta) : Prop :=
  f.codeOff + f.codeLen ≤ m.code.length ∧
    (f.codeLen = 0 ∧ fi < m.nHostImports ∨
      0 < f.codeLen ∧ ∃ st, analyse id m f = .ok st ∧
        (f.maxStack : Int) = f.nParams + f.nLocals + st.maxH ∧ f.maxStack ≤ 65535)

theorem func_ok {fi : Nat} {f' : FuncMeta} (h : func id m fi f = .ok f') :
    SameSig f f' ∧ f.codeOff + f.codeLen ≤ m.code.length ∧
      (f.codeLen = 0 ∧ fi < m.nHostImports ∨
        0 < f.codeLen ∧ ∃ st, analyse id m f = .ok st ∧
          (f'.maxStack : Int) = f.nParams + f.nLocals + st.maxH ∧ f'.maxStack ≤ 65535) := by
  unfold func at h
  by_cases h1 : f.codeOff + f.codeLen > m.code.length
  · simp only [if_pos h1] at h
    cases h
  · simp only [if_neg h1] at h
    by_cases h2 : f.codeLen = 0
    · simp only [if_pos h2] at h
      by_cases h3 : fi < m.nHostImports
      · simp only [if_pos h3] at h
        cases h
        exact ⟨rfl, by omega, .inl ⟨h2, h3⟩⟩
      · simp only [if_neg h3] at h
        cases h
    · simp only [if_neg h2] at h
      split at h
      · cases h
      · obtain ⟨st, hst, h⟩ := bind_eq_ok h
        have hcl := analyse_closed (by omega) hst
        obtain ⟨fl, hfl⟩ := hcl.flowAt 0 (by rw [hcl.start])
        have hmax : 0 ≤ st.maxH := hcl.start ▸ hfl.le
        have hneg : ¬ (f.nParams : Int) + f.nLocals + st.maxH < 0 := by omega
        simp only [id_eq, if_neg hneg] at h
        by_cases h4 : (f.nParams : Int) + f.nLocals + st.maxH > 65535
        · simp only [if_pos h4] at h
          cases h
        · simp only [if_neg h4] at h
          cases h
          have hnat := Int.toNat_of_nonneg (not_lt.mp hneg)
          exact ⟨rfl, by omega, .inr ⟨by omega, st, hst, hnat, by simp only; omega⟩⟩

theorem funcs_ok {fs fs' : List FuncMeta} {fi : Nat} (h : funcs id m fi fs = .ok fs') :
    fs'.length = fs.length ∧
      ∀ (k : Nat) f', fs'[k]? = some f' → ∃ f, fs[k]? = some f ∧ func id m (fi + k) f = .ok f' := by
  induction fs generalizing fi fs' with
  | nil =>
    cases h
    exact ⟨rfl, fun k f' hk => by simp at hk⟩
  | cons f fs ih =>
    obtain ⟨f1, hf1, h⟩ := bind_eq_ok h
    obtain ⟨fs1, hfs1, h⟩ := bind_eq_ok h
    cases h
    obtain ⟨hlen, hk⟩ := ih hfs1
    refine ⟨by simp [hlen], fun k f' hk' => ?_⟩
    cases k with
    | zero =>
      simp only [List.getElem?_cons_zero, Option.some.injEq] at hk'
      subst hk'
      exact ⟨f, rfl, hf1⟩
    | succ k =>
      rw [List.getElem?_cons_succ] at hk'
      obtain ⟨g, hg, hfg⟩ := hk k f' hk'
      exact ⟨g, hg, by rw [show fi + (k + 1) = fi + 1 + k by omega]; exact hfg⟩

/-- The functions `fs` are those of `m` up to `max_stack`. -/
def SameSigs (m : HostModule) (fs : List FuncMeta) : Prop :=
  ∀ k : Nat, match m.funcs[k]?, fs[k]? with
    | some g, some g' => SameSig g g'
    | none, none => True
    | _, _ => False

theorem sameSigs_of {fs : List FuncMeta} (hlen : fs.length = m.funcs.length)
    (h : ∀ (k : Nat) f', fs[k]? = some f' → ∃ f, m.funcs[k]? = some f ∧ SameSig f f') :
    SameSigs m fs := by
  intro k
  cases h3 : fs[k]? with
  | none =>
    have : m.funcs[k]? = none := by
      rw [List.getElem?_eq_none_iff] at h3 ⊢
      omega
    rw [this]
    trivial
  | some g' =>
    obtain ⟨g, hg, hs⟩ := h k g' h3
    rw [hg]
    exact hs

section Congr

variable {fs : List FuncMeta} {f' : FuncMeta} (hsig : SameSigs m fs) (hf : SameSig f f')

include hsig hf

theorem flow_congr (i : CuOp) (h : Int) : flow id { m with funcs := fs } f' i h = flow id m f i h := by
  rw [hf]
  unfold flow
  have hk := hsig i.b
  cases i.op <;> try rfl
  all_goals
    simp only
    cases h1 : m.funcs[i.b]? with
    | none =>
      rw [h1] at hk
      cases h2 : fs[i.b]? with
      | none => rfl
      | some g => rw [h2] at hk; exact hk.elim
    | some g =>
      rw [h1] at hk
      cases h2 : fs[i.b]? with
      | none => rw [h2] at hk; exact hk.elim
      | some g' =>
        rw [h2] at hk
        simp only
        rw [show g' = { g with maxStack := g'.maxStack } from hk]

theorem visit_congr (r : Nat) (st : VState) :
    visit id { m with funcs := fs } f' r st = visit id m f r st := by
  have hfl := flow_congr hsig hf
  rw [visit_eq, visit_eq]
  have h1 : instrAt { m with funcs := fs } f' r = instrAt m f r := by rw [hf]; rfl
  have h2 : indexCheck { m with funcs := fs } f' (instrAt m f r) = indexCheck m f (instrAt m f r) := by
    rw [hf]; rfl
  have h3 : joinTarget f' = joinTarget f := by rw [hf]; rfl
  have h4 : joinNext f' = joinNext f := by rw [hf]; rfl
  rw [h1, h2, h3, h4]
  simp only [hfl]

theorem loop_congr (n : Nat) (st : VState) :
    loop id { m with funcs := fs } f' n st = loop id m f n st := by
  induction n generalizing st with
  | zero => rfl
  | succ n ih =>
    unfold loop
    cases st.work with
    | nil => rfl
    | cons r work => simp only [visit_congr hsig hf, ih]

theorem analyse_congr : analyse id { m with funcs := fs } f' = analyse id m f := by
  unfold analyse
  rw [loop_congr hsig hf]
  rw [hf]

end Congr

/-- A module is accepted when it has functions and code and its functions pass. -/
theorem cuop_iff {int : Int → Int} {m' : HostModule} : cuop int m = .ok m' ↔
    m.funcs ≠ [] ∧ m.code ≠ [] ∧ ∃ fs, funcs int m 0 m.funcs = .ok fs ∧ m' = { m with funcs := fs } := by
  unfold cuop
  by_cases h1 : m.funcs = []
  · simp only [h1, List.isEmpty_nil, if_true, ne_eq, not_true_eq_false, false_and, iff_false]
    exact fun h => by cases h
  · by_cases h2 : m.code = []
    · simp only [List.isEmpty_iff, if_neg h1, h2, if_true, ne_eq, not_true_eq_false, false_and,
        and_false, iff_false]
      exact fun h => by cases h
    · simp only [List.isEmpty_iff, ne_eq, h1, h2, not_false_eq_true, true_and]
      constructor
      · intro h
        obtain ⟨fs, hfs, h⟩ := bind_eq_ok h
        cases h
        exact ⟨fs, hfs, rfl⟩
      · rintro ⟨fs, hfs, rfl⟩
        rw [hfs]
        rfl

end Verify

/-- A module whose every function passes the check with the `max_stack` it has. -/
structure Accepted (m : HostModule) : Prop where
  nonempty : m.code ≠ []
  func : ∀ (fi : Nat) f, m.funcs[fi]? = some f → Verify.FuncOk m fi f

open Verify in
/-- `verify_cuop` leaves only accepted modules. -/
theorem verifyCuop_accepted {m m' : HostModule} (h : verifyCuop m = .ok m') :
    Accepted m' ∧ ∃ fs, m' = { m with funcs := fs } ∧ fs.length = m.funcs.length ∧
      ∀ (k : Nat) f', fs[k]? = some f' → ∃ f, m.funcs[k]? = some f ∧ SameSig f f' := by
  obtain ⟨-, h2, fs, hfs, rfl⟩ := cuop_iff.mp h
  obtain ⟨hlen, hk⟩ := funcs_ok hfs
  have hsig : ∀ (k : Nat) f', fs[k]? = some f' → ∃ f, m.funcs[k]? = some f ∧ SameSig f f' := by
    intro k f' hf'
    obtain ⟨f, hf, hfo⟩ := hk k f' hf'
    exact ⟨f, hf, (func_ok hfo).1⟩
  have hboth : SameSigs m fs := sameSigs_of hlen hsig
  refine ⟨⟨h2, fun fi f' hf' => ?_⟩, fs, rfl, hlen, hsig⟩
  obtain ⟨f, hf, hfo⟩ := hk fi f' hf'
  rw [Nat.zero_add] at hfo
  obtain ⟨hs, hc, hcases⟩ := func_ok hfo
  have han := analyse_congr hboth hs
  have hoff : f'.codeOff = f.codeOff := by rw [hs]
  have hlen' : f'.codeLen = f.codeLen := by rw [hs]
  have hnp : f'.nParams = f.nParams := by rw [hs]
  have hnl : f'.nLocals = f.nLocals := by rw [hs]
  refine ⟨by rw [hoff, hlen']; exact hc, ?_⟩
  rw [hlen', hnp, hnl, han]
  exact hcases

end CuWasm
