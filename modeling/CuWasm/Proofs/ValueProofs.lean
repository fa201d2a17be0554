import CuWasm.Computation
import CuWasm.Proofs.SoundnessProofs

/-!
# The values of a function that only computes

Every value that such a function gets and leaves behind is a number of the width of its type. Within every
budget it returns values or traps.
-/

namespace CuWasm.Wasm

open Numeric

/-! ## Integer operators -/

section Operators

variable {N a b : Nat}

theorem bool_lt (hN : 0 < N) (p : Prop) [Decidable p] : Numeric.bool p < 2 ^ N := by
  have h : 1 < 2 ^ N := Nat.one_lt_two_pow hN.ne'
  unfold Numeric.bool
  split_ifs <;> omega

theorem unsigned_lt (j : Int) : unsigned N j < 2 ^ N := by
  have h : (0 : Int) < 2 ^ N := by positivity
  have h1 := Int.emod_nonneg j h.ne'
  have h2 := Int.emod_lt_of_pos j h
  refine (Int.toNat_lt h1).mpr ?_
  rwa [Nat.cast_pow, Nat.cast_ofNat]

theorem idivU_lt {y : Nat} (ha : a < 2 ^ N) (h : idivU a b = .ok y) : y < 2 ^ N := by
  unfold idivU at h
  split_ifs at h
  cases h
  exact (Nat.div_le_self a b).trans_lt ha

theorem iremU_lt {y : Nat} (ha : a < 2 ^ N) (h : iremU a b = .ok y) : y < 2 ^ N := by
  unfold iremU at h
  split_ifs at h
  cases h
  exact (Nat.mod_le a b).trans_lt ha

theorem idivS_lt {y : Nat} (h : idivS N a b = .ok y) : y < 2 ^ N := by
  unfold idivS at h
  split_ifs at h
  cases h
  exact unsigned_lt _

theorem iremS_lt {y : Nat} (h : iremS N a b = .ok y) : y < 2 ^ N := by
  unfold iremS at h
  split_ifs at h
  cases h
  exact unsigned_lt _

theorem iclz_lt : iclz N a < 2 ^ N := (Nat.sub_le N _).trans_lt Nat.lt_two_pow_self

theorem map_single {x : Except Trap Nat} {zs : List Nat} (h : x.map ([·]) = .ok zs) :
    ∃ y, x = .ok y ∧ zs = [y] := by
  cases x with
  | error e => cases h
  | ok y =>
    cases h
    exact ⟨y, rfl, rfl⟩

/-- An integer operator leaves numbers of the width of its results. -/
theorem apply_lt {o : NumOp} {xs zs : List Nat} (hxs : ∀ i, xs.getD i 0 < 2 ^ o.type.1.2.width)
    (h : o.apply xs = .ok zs) : ∀ z ∈ zs, z < 2 ^ o.type.2.2.width := by
  have h0 := hxs 0
  have h1 := hxs 1
  have hone : ∀ {y : Nat}, y < 2 ^ o.type.2.2.width → zs = [y] → ∀ z ∈ zs, z < 2 ^ o.type.2.2.width := by
    rintro y hy rfl z hz
    rwa [List.mem_singleton.mp hz]
  have hhalves : ∀ {n : Nat}, o.type.2.2.width = 64 → zs = halves 64 n →
      ∀ z ∈ zs, z < 2 ^ o.type.2.2.width := by
    rintro n hw rfl z hz
    rw [hw]
    simp only [halves, List.mem_cons, List.not_mem_nil, or_false] at hz
    obtain rfl | rfl := hz <;> exact Nat.mod_lt _ (by norm_num)
  cases o <;> simp only [NumOp.apply, Except.ok.injEq] at h
  all_goals first
    | exact hone (bool_lt (by decide) _) h.symm
    | exact hone (Nat.mod_lt _ (by decide)) h.symm
    | exact hone (unsigned_lt _) h.symm
    | exact hone iclz_lt h.symm
    | exact hhalves rfl h.symm
    | exact hone (Nat.and_lt_two_pow _ h1) h.symm
    | exact hone (Nat.or_lt_two_pow h0 h1) h.symm
    | exact hone (Nat.xor_lt_two_pow h0 h1) h.symm
    | exact hone ((Nat.div_le_self _ _).trans_lt h0) h.symm
    | exact hone (h0.trans (by decide)) h.symm
    | skip
  all_goals
    obtain ⟨y, hy, rfl⟩ := map_single h
    first
    | exact hone (idivU_lt h0 hy) rfl
    | exact hone (iremU_lt h0 hy) rfl
    | exact hone (idivS_lt hy) rfl
    | exact hone (iremS_lt hy) rfl

end Operators

/-! ## Lists of values -/

section Lists

variable {xs ys : List Nat} {ts us : List ValType} {t : ValType} {a i : Nat}

theorem Values.append (h : Values xs ts) (h' : Values ys us) : Values (xs ++ ys) (ts ++ us) :=
  List.rel_append h h'

theorem Values.reverse (h : Values xs ts) : Values xs.reverse ts.reverse := List.rel_reverse h

theorem Values.take (h : Values xs (ts ++ us)) : Values (xs.take ts.length) ts :=
  List.forall₂_take_append xs ts us h

theorem Values.drop (h : Values xs (ts ++ us)) : Values (xs.drop ts.length) us :=
  List.forall₂_drop_append xs ts us h

theorem Values.pop (h : Values xs (t :: ts)) : ∃ a ys, xs = a :: ys ∧ a < 2 ^ t.width ∧ Values ys ts := by
  obtain ⟨a, ys, ha, hys, rfl⟩ := List.forall₂_cons_right_iff.mp h
  exact ⟨a, ys, rfl, ha, hys⟩

theorem Values.get (h : Values xs ts) (hi : ts[i]? = some t) : ∃ a, xs[i]? = some a ∧ a < 2 ^ t.width := by
  obtain ⟨hlt, rfl⟩ := List.getElem?_eq_some_iff.mp hi
  have hlt' : i < xs.length := (List.Forall₂.length_eq h).symm ▸ hlt
  exact ⟨xs[i], List.getElem?_eq_getElem hlt', List.Forall₂.get h hlt' hlt⟩

theorem Values.set (h : Values xs ts) (hi : ts[i]? = some t) (ha : a < 2 ^ t.width) :
    Values (xs.set i a) ts := by
  obtain ⟨hlen, hget⟩ := List.forall₂_iff_get.mp h
  refine List.forall₂_iff_get.mpr ⟨by rw [List.length_set, hlen], fun j h1 h2 => ?_⟩
  rw [List.get_eq_getElem, List.getElem_set]
  split_ifs with hij
  · subst hij
    obtain ⟨_, rfl⟩ := List.getElem?_eq_some_iff.mp hi
    exact ha
  · exact hget j (by rwa [List.length_set] at h1) h2

/-- Values of one type. -/
theorem values_replicate {n : Nat} (hlen : xs.length = n) (h : ∀ a ∈ xs, a < 2 ^ t.width) :
    Values xs (List.replicate n t) := by
  refine List.forall₂_iff_get.mpr ⟨by rw [hlen, List.length_replicate], fun j h1 h2 => ?_⟩
  rw [List.get_eq_getElem, List.get_eq_getElem, List.getElem_replicate]
  exact h _ (List.getElem_mem h1)

/-- The locals of a call are values. -/
theorem locals_values {args : List Nat} {ft : FuncType} (c : Func) (h : Values args ft.1) :
    Values (Instance.locals c args) (ft.1 ++ c.locals.flatMap fun g => List.replicate g.1 g.2) := by
  refine h.append ?_
  generalize c.locals = gs
  induction gs with
  | nil => exact .nil
  | cons g gs ih =>
    rw [List.map_cons, List.sum_cons, List.replicate_add, List.flatMap_cons]
    refine Values.append (values_replicate List.length_replicate fun a ha => ?_) ih
    rw [List.eq_of_mem_replicate ha]
    exact Nat.two_pow_pos _

end Lists

/-! ## Sequences -/

section Outcomes

variable {H : Type}

/-- The locals and the globals are values of the types that the context gives them. -/
structure Ctx.Carries (C : Ctx) (ls : List Nat) (s : Store H) : Prop where
  locals : Values ls C.locals
  globals : Values s.globals (C.globals.map (·.1))

/-- The outcome of a sequence with results of the types `us`: it returns, branches or traps, and what it
leaves behind are values. -/
def Outcome.Typed (C : Ctx) (L : List (List ValType)) (us : List ValType) : Outcome H → Prop
  | .next xs ls s => Values xs us ∧ C.Carries ls s
  | .br k xs ls s => ∃ lt ts, L[k]? = some lt ∧ Values xs (lt ++ ts) ∧ C.Carries ls s
  | .ret xs s => ∃ ts, Values xs (C.results.reverse ++ ts) ∧ Values s.globals (C.globals.map (·.1))
  | .trap _ s => Values s.globals (C.globals.map (·.1))
  | .tail .. | .refused _ | .wrong => False

variable {I : Instance H} {C : Ctx} {L : List (List ValType)} {lt ts us vs : List ValType}
  {xs ls : List Nat} {s : Store H} {o w : Outcome H}

theorem Outcome.Typed.andThen {f : List Nat → List Nat → Store H → Option (Outcome H)}
    {r : Option (Outcome H)} (hr : ∀ o, r = some o → o.Typed C L us)
    (hf : ∀ xs ls s w, Values xs us → C.Carries ls s → f xs ls s = some w → w.Typed C L vs)
    (h : Outcome.andThen r f = some w) : w.Typed C L vs := by
  cases r with
  | none => cases h
  | some o =>
    have ho := hr o rfl
    cases o with
    | next xs ls s => exact hf xs ls s w ho.1 ho.2 h
    | br | ret | trap =>
      cases h
      exact ho
    | tail | refused | wrong => exact ho.elim

/-- What leaves a block whose end has the results `us`. A branch to the label of the block carries as
many operands, unless it is that of a loop. -/
theorem Outcome.Typed.leave {low : List Nat} (h : o.Typed C (lt :: L) us) (hlow : Values low ts)
    (hbr : (∃ ys ls s, o = .br 0 ys ls s) → lt = us) :
    (o.leave us.length low).Typed C L (us ++ ts) := by
  cases o with
  | next xs ls s =>
    obtain ⟨hxs, hs⟩ := h
    rw [Outcome.leave, if_pos (List.Forall₂.length_eq hxs)]
    exact ⟨hxs.append hlow, hs⟩
  | br j xs ls s =>
    obtain ⟨lt', ts', hl, hxs, hs⟩ := h
    cases j with
    | zero =>
      cases hl
      obtain rfl := hbr ⟨xs, ls, s, rfl⟩
      have hlen := List.Forall₂.length_eq hxs
      rw [List.length_append] at hlen
      rw [Outcome.leave, if_pos (by omega)]
      exact ⟨hxs.take.append hlow, hs⟩
    | succ j => exact ⟨lt', ts', hl, hxs, hs⟩
  | ret | trap => exact h
  | tail | refused | wrong => exact h.elim

theorem Outcome.Typed.above {low : List Nat} (h : o.Typed C L us) (hlow : Values low ts) :
    (o.above low).Typed C L (us ++ ts) := by
  cases o with
  | next xs ls s => exact ⟨h.1.append hlow, h.2⟩
  | br | ret | trap => exact h
  | tail | refused | wrong => exact h.elim

/-- An operator of a fixed type. -/
theorem simple_typed {op : Operator} {ps qs : List ValType} (hop : OpTyped C op ps qs)
    (hc : op.computes = true) (hxs : Values xs (ps ++ ts)) (hs : C.Carries ls s) :
    (I.simple op xs ls s).Typed C L (qs ++ ts) := by
  cases hop with
  | nop => exact ⟨hxs, hs⟩
  | const x =>
    cases x with
    | i32 x | i64 x => exact ⟨.cons x.isLt hxs, hs⟩
    | f32 | f64 => cases hc
  | drop t =>
    obtain ⟨a, xs, rfl, -, hxs⟩ := hxs.pop
    exact ⟨hxs, hs⟩
  | select | typedSelect =>
    obtain ⟨x, xs, rfl, -, hxs⟩ := hxs.pop
    obtain ⟨b, xs, rfl, hb, hxs⟩ := Values.pop hxs
    obtain ⟨a, xs, rfl, ha, hxs⟩ := Values.pop hxs
    refine ⟨.cons ?_ hxs, hs⟩
    split_ifs
    · exact ha
    · exact hb
  | num o =>
    have hps : o.pops.length = o.type.1.1 := List.length_replicate
    have hlen := List.Forall₂.length_eq hxs
    have hrest := hxs.drop
    rw [List.length_append] at hlen
    simp only [Instance.simple]
    rw [if_neg (by omega)]
    cases hr : o.apply ((xs.take o.type.1.1).reverse.map (· % 2 ^ o.type.1.2.width)) with
    | error t => exact hs.globals
    | ok ys =>
      refine ⟨Values.append (values_replicate ?_ fun a ha => ?_) (hps ▸ hrest), hs⟩
      · rw [List.length_reverse, apply_length hr]
      · refine apply_lt (fun i => ?_) hr a (List.mem_reverse.mp ha)
        rw [List.getD_eq_getElem?_getD, List.getElem?_map]
        cases (xs.take o.type.1.1).reverse[i]? with
        | none => exact Nat.two_pow_pos _
        | some a => exact Nat.mod_lt _ (Nat.two_pow_pos _)
  | globalGet hg =>
    obtain ⟨a, ha, hlt⟩ := hs.globals.get (by rw [List.getElem?_map, hg]; rfl)
    simp only [Instance.simple, ha]
    exact ⟨.cons hlt hxs, hs⟩
  | @globalSet i t hg =>
    obtain ⟨a, xs, rfl, ha, hxs⟩ := hxs.pop
    have hg' : (C.globals.map (·.1))[i]? = some t := by rw [List.getElem?_map, hg]; rfl
    obtain ⟨b, hb, -⟩ := hs.globals.get hg'
    simp only [Instance.simple]
    rw [if_pos (List.getElem?_eq_some_iff.mp hb).1]
    exact ⟨hxs, hs.locals, hs.globals.set hg' ha⟩
  | localGet hl =>
    obtain ⟨a, ha, hlt⟩ := hs.locals.get hl
    simp only [Instance.simple, ha]
    exact ⟨.cons hlt hxs, hs⟩
  | localSet hl =>
    obtain ⟨a, xs, rfl, ha, hxs⟩ := hxs.pop
    obtain ⟨b, hb, -⟩ := hs.locals.get hl
    simp only [Instance.simple]
    rw [if_pos (List.getElem?_eq_some_iff.mp hb).1]
    exact ⟨hxs, hs.locals.set hl ha, hs.globals⟩
  | localTee hl =>
    obtain ⟨a, xs, rfl, ha, hxs'⟩ := hxs.pop
    obtain ⟨b, hb, -⟩ := hs.locals.get hl
    simp only [Instance.simple]
    rw [if_pos (List.getElem?_eq_some_iff.mp hb).1]
    exact ⟨hxs, hs.locals.set hl ha, hs.globals⟩
  | _ => cases hc

/-- The sequences that `run` executes keep to the types. -/
def BodiesTyped (C : Ctx) (run : Body → List Nat → List Nat → Store H → Option (Outcome H)) : Prop :=
  ∀ ⦃L ts b us xs ls s o⦄, Wasm.Typed C L true ts b us → b.computes = true → Values xs ts → C.Carries ls s →
    run b xs ls s = some o → o.Typed C L us

variable {again : Eval H}

/-- The operands of a block and those below it. -/
theorem inBlock_typed (hI : I.types = C.types) {bt : BlockType} {ft : FuncType}
    (hb : bt.expand C.types = some ft) (hxs : Values xs (ft.1.reverse ++ ts))
    {run : (np nr : Nat) → (args low : List Nat) → Option (Outcome H)}
    (hrun : ∀ args low, Values args ft.1.reverse → Values low ts →
      run ft.1.length ft.2.length args low = some w → w.Typed C L us)
    (h : I.inBlock bt xs run = some w) : w.Typed C L us := by
  have hlen := List.Forall₂.length_eq hxs
  have htake := hxs.take
  have hdrop := hxs.drop
  rw [List.length_append, List.length_reverse] at hlen
  rw [List.length_reverse] at htake hdrop
  simp only [Instance.inBlock, hI, hb] at h
  rw [if_neg (by omega)] at h
  exact hrun _ _ htake hdrop h

/-- What leaves a block whose label is its end. -/
theorem leave_map_typed {low : List Nat} {r : Option (Outcome H)} {ft : FuncType}
    (hr : ∀ o, r = some o → o.Typed C (ft.2.reverse :: L) ft.2.reverse) (hlow : Values low ts)
    (h : r.map (Outcome.leave ft.2.length low) = some w) : w.Typed C L (ft.2.reverse ++ ts) := by
  obtain ⟨o, ho, rfl⟩ := Option.map_eq_some_iff.mp h
  have := (hr o ho).leave hlow fun _ => rfl
  rwa [List.length_reverse] at this

/-- A loop, whose body is run again after a branch to its label. -/
theorem loop_typed (hbodies : BodiesTyped C again.body) {bt : BlockType} {ft : FuncType} {b : Body}
    {low : List Nat} (hb : bt.expand C.types = some ft)
    (htyped : Wasm.Typed C (ft.1.reverse :: L) true ft.1.reverse b ft.2.reverse) (hc : b.computes = true)
    (hlow : Values low ts) {r : Option (Outcome H)}
    (h : (match r with
      | some (.br 0 ys ls s) =>
        if ft.1.length ≤ ys.length then
          (again.body (.loop bt b .nil) (ys.take ft.1.length) ls s).map (Outcome.above low)
        else some .wrong
      | o => o.map (Outcome.leave ft.2.length low)) = some w)
    (hr : ∀ o, r = some o → o.Typed C (ft.1.reverse :: L) ft.2.reverse) :
    w.Typed C L (ft.2.reverse ++ ts) := by
  cases r with
  | none => cases h
  | some o =>
    have ho := hr o rfl
    by_cases hbr : ∃ ys ls s, o = .br 0 ys ls s
    · obtain ⟨ys, ls, s, rfl⟩ := hbr
      obtain ⟨lt, ts', hl, hys, hs⟩ := ho
      cases hl
      have hlen := List.Forall₂.length_eq hys
      have htake := hys.take
      rw [List.length_append, List.length_reverse] at hlen
      rw [List.length_reverse] at htake
      simp only at h
      rw [if_pos (by omega)] at h
      obtain ⟨o, hrun, rfl⟩ := Option.map_eq_some_iff.mp h
      have honce : Wasm.Typed C L true (ft.1.reverse ++ []) (.loop bt b .nil) (ft.2.reverse ++ []) :=
        .loop hb htyped .nil
      have hloop := hbodies honce (by rw [Body.computes, hc]; rfl) (by rwa [List.append_nil]) hs hrun
      rw [List.append_nil] at hloop
      exact hloop.above hlow
    · have hw : o.leave ft.2.length low = w := by
        split at h
        · rename_i heq
          exact absurd ⟨_, _, _, Option.some.inj heq⟩ hbr
        · exact Option.some.inj h
      have := ho.leave hlow fun hex => absurd hex hbr
      rwa [List.length_reverse, hw] at this

theorem getD_label {ks : List Nat} {j : Nat} (hl : L[j]? = some lt) (hks : ∀ k ∈ ks, L[k]? = some lt)
    (i : Nat) : L[ks.getD i j]? = some lt := by
  rw [List.getD_eq_getElem?_getD]
  cases hi : ks[i]? with
  | none => exact hl
  | some k => exact hks k (List.mem_of_getElem? hi)

/-- Sequences, by the rule that was used last. -/
theorem body_typed (hI : I.types = C.types) (hbodies : BodiesTyped C again.body) :
    BodiesTyped C (I.body again) := by
  intro L ts b us xs ls s o htyped hc hxs hs h
  generalize hr : true = r at htyped
  induction htyped generalizing xs ls s o with
  | nil =>
    cases h
    exact ⟨hxs, hs⟩
  | op ho _ ih =>
    simp only [Body.computes, Bool.and_eq_true] at hc
    refine Outcome.Typed.andThen (fun w hw => ?_) (fun ys ls s w hys hs hw => ih hc.2 hys hs hw hr) h
    have hsimple : ∀ L, (I.simple _ xs ls s).Typed C L _ := fun L => simple_typed ho hc.1 hxs hs
    cases ho with
    | call | callIndirect => cases hc.1
    | _ =>
      cases hw
      exact hsimple _
  | unreachable =>
    cases h
    exact hs.globals
  | br hl =>
    cases h
    exact ⟨_, _, hl, hxs, hs⟩
  | brIf hl _ ih =>
    obtain ⟨x, xs, rfl, -, hxs⟩ := hxs.pop
    refine Outcome.Typed.andThen (fun w hw => ?_) (fun ys ls s w hys hs hw => ih hc hys hs hw hr) h
    cases hw
    split_ifs
    · exact ⟨_, _, hl, hxs, hs⟩
    · exact ⟨hxs, hs⟩
  | brTable hl hls =>
    obtain ⟨x, xs, rfl, -, hxs⟩ := hxs.pop
    cases h
    refine ⟨_, _, getD_label hl (fun k hk => ?_) (x % 2 ^ 32), hxs, hs⟩
    obtain ⟨lt', hlt', -, heq⟩ := hls k hk
    rw [hlt', heq hr.symm]
  | return_ =>
    cases h
    exact ⟨_, hxs, hs.globals⟩
  | returnCall => cases hc
  | block hb _ _ ihb ih =>
    simp only [Body.computes, Bool.and_eq_true] at hc
    refine Outcome.Typed.andThen (fun w hw => ?_) (fun ys ls s w hys hs hw => ih hc.2 hys hs hw hr) h
    refine inBlock_typed hI hb hxs (fun args low hargs hlow hrun => ?_) hw
    exact leave_map_typed (fun o ho => ihb hc.1 hargs hs ho hr) hlow hrun
  | loop hb hbody _ ihb ih =>
    subst hr
    simp only [Body.computes, Bool.and_eq_true] at hc
    refine Outcome.Typed.andThen (fun w hw => ?_) (fun ys ls s w hys hs hw => ih hc.2 hys hs hw rfl) h
    refine inBlock_typed hI hb hxs (fun args low hargs hlow hrun => ?_) hw
    exact loop_typed hbodies hb hbody hc.1 hlow hrun fun o ho => ihb hc.1 hargs hs ho rfl
  | ifThen hb heq _ _ ihb ih =>
    simp only [Body.computes, Bool.and_eq_true] at hc
    obtain ⟨x, xs, rfl, -, hxs⟩ := hxs.pop
    refine Outcome.Typed.andThen (fun w hw => ?_) (fun ys ls s w hys hs hw => ih hc.2 hys hs hw hr) h
    refine inBlock_typed hI hb hxs (fun args low hargs hlow hrun => ?_) hw
    refine leave_map_typed (fun o ho => ?_) hlow hrun
    split_ifs at ho
    · exact ihb hc.1 hargs hs ho hr
    · cases ho
      exact ⟨heq ▸ hargs, hs⟩
  | ifElse hb _ _ _ ihb ihe ih =>
    simp only [Body.computes, Bool.and_eq_true] at hc
    obtain ⟨x, xs, rfl, -, hxs⟩ := hxs.pop
    refine Outcome.Typed.andThen (fun w hw => ?_) (fun ys ls s w hys hs hw => ih hc.2 hys hs hw hr) h
    refine inBlock_typed hI hb hxs (fun args low hargs hlow hrun => ?_) hw
    refine leave_map_typed (fun o ho => ?_) hlow hrun
    split_ifs at ho
    · exact ihb hc.1.1 hargs hs ho hr
    · exact ihe hc.1.2 hargs hs ho hr

end Outcomes

/-! ## Calls -/

section Calls

variable {C : Ctx} {c : Func} {ft : FuncType} {ti n : Nat} {args gs : List Nat} {res : Result Unit}

/-- The result of a function of the type `ft`: values or a trap. -/
def Result.Typed (C : Ctx) (ft : FuncType) : Result Unit → Prop
  | .values ys s => Values ys ft.2 ∧ Values s.globals (C.globals.map (·.1))
  | .trap _ s => Values s.globals (C.globals.map (·.1))
  | .refused _ | .wrong => False

theorem eval_typed {I : Instance Unit} (hI : I.types = C.types) (n : Nat) : BodiesTyped C (I.eval n).body := by
  induction n with
  | zero =>
    intro L ts b us xs ls s o _ _ _ _ h
    cases h
  | succ n ih => exact body_typed hI ih

theorem finish_typed {I : Instance Unit} {call : Nat → List Nat → Store Unit → Option (Result Unit)}
    {o : Outcome Unit} (hres : C.results = ft.2) (ho : o.Typed C [ft.2.reverse] ft.2.reverse)
    (h : I.finish call ft.2.length o = some res) : res.Typed C ft := by
  have htop : ∀ {xs ts}, Values xs (ft.2.reverse ++ ts) →
      ft.2.length ≤ xs.length ∧ Values (xs.take ft.2.length).reverse ft.2 := by
    intro xs ts hxs
    have hlen := List.Forall₂.length_eq hxs
    have htake := hxs.take.reverse
    rw [List.length_append, List.length_reverse] at hlen
    rw [List.length_reverse, List.reverse_reverse] at htake
    exact ⟨by omega, htake⟩
  cases o with
  | next xs ls s =>
    obtain ⟨hxs, hs⟩ := ho
    have hrev := hxs.reverse
    have hlen := List.Forall₂.length_eq hxs
    rw [List.reverse_reverse] at hrev
    rw [List.length_reverse] at hlen
    rw [Instance.finish, if_pos hlen] at h
    cases h
    exact ⟨hrev, hs.globals⟩
  | br j xs ls s =>
    obtain ⟨lt, ts, hl, hxs, hs⟩ := ho
    cases j with
    | zero =>
      cases hl
      obtain ⟨hle, hvals⟩ := htop hxs
      rw [Instance.finish, if_pos hle] at h
      cases h
      exact ⟨hvals, hs.globals⟩
    | succ j => cases hl
  | ret xs s =>
    obtain ⟨ts, hxs, hs⟩ := ho
    rw [hres] at hxs
    obtain ⟨hle, hvals⟩ := htop hxs
    rw [Instance.finish, if_pos hle] at h
    cases h
    exact ⟨hvals, hs⟩
  | trap =>
    cases h
    exact ho
  | tail | refused | wrong => exact ho.elim

/-- A call of the function on its own runs its body. -/
theorem Func.result_succ {types : List FuncType} (ht : types[ti]? = some ft)
    (hargs : args.length = ft.1.length) (c : Func) (n : Nat) (gs : List Nat) :
    c.result types ti (n + 1) args gs =
      ((c.alone types ti).body ((c.alone types ti).eval n) c.body [] (Instance.locals c args) (globalStore gs)).bind
        ((c.alone types ti).finish ((c.alone types ti).eval n).call ft.2.length) := by
  have hft : (c.alone types ti).funcType 0 = some ft := ht
  have hcode : (c.alone types ti).code[0 - (c.alone types ti).nImports]? = some c := rfl
  simp only [Func.result, Instance.eval, Instance.call, hft, hcode]
  rw [if_neg (not_not.mpr hargs), if_neg (show ¬ 0 < (c.alone types ti).nImports from Nat.not_lt_zero 0)]

/-- Called with values in a store of values, a function that only computes returns values or traps. -/
theorem Func.Computes.result_typed (hc : c.Computes C ti ft) (hargs : Values args ft.1)
    (hgs : Values gs (C.globals.map (·.1))) (h : c.result C.types ti n args gs = some res) :
    res.Typed C ft := by
  cases n with
  | zero => cases h
  | succ n =>
    rw [Func.result_succ hc.type (List.Forall₂.length_eq hargs) c n gs] at h
    obtain ⟨o, ho, hfin⟩ := Option.bind_eq_some_iff.mp h
    have hvalid := hc.valid
    rw [Body.Valid, hc.results] at hvalid
    have hlocals := locals_values c hargs
    rw [← hc.locals] at hlocals
    exact finish_typed hc.results
      (body_typed rfl (eval_typed rfl n) hvalid hc.computes .nil ⟨hlocals, hgs⟩ ho) hfin

end Calls

end CuWasm.Wasm
