import CuWasm.Proofs.OperatorProofs
import CuWasm.Wasm.Soundness

/-!
# Valid modules do not go wrong

The typing rules one by one, then sequences by induction on the typing derivation, then calls and
repetitions by induction on the budget.
-/

namespace CuWasm.Wasm

variable {H : Type} {I : Instance H} {M : Module} {ft : FuncType} {c : Func}
  {L : List (List ValType)} {lt : List ValType} {nr k : Nat} {xs ls : List Nat} {s : Store H}
  {o w : Outcome H} {call : Nat → List Nat → Store H → Option (Result H)}

section Outcomes

variable {C : Ctx}

theorem Outcome.Fits.andThen {f : List Nat → List Nat → Store H → Option (Outcome H)}
    {r : Option (Outcome H)}
    (hr : ∀ o, r = some o → o.Fits C L k)
    (hf : ∀ xs ls s w, xs.length = k → C.Holds ls s → f xs ls s = some w → w.Fits C L nr)
    (h : Outcome.andThen r f = some w) : w.Fits C L nr := by
  cases r with
  | none => cases h
  | some o =>
    have ho := hr o rfl
    cases o with
    | next xs ls s => exact hf xs ls s w ho.1 ho.2 h
    | br | ret | tail | trap | refused =>
      cases h
      exact ho
    | wrong => exact ho.elim

theorem Outcome.Fits.leave {low : List Nat} (h : o.Fits C (lt :: L) lt.length) :
    (o.leave lt.length low).Fits C L (lt.length + low.length) := by
  cases o with
  | next xs ls s =>
    obtain ⟨hlen, hs⟩ := h
    rw [Outcome.leave, if_pos hlen]
    exact ⟨by rw [List.length_append, hlen], hs⟩
  | br j xs ls s =>
    obtain ⟨lt', hl, hle, hs⟩ := h
    cases j with
    | zero =>
      cases hl
      rw [Outcome.leave, if_pos hle]
      exact ⟨by rw [List.length_append, List.length_take, min_eq_left hle], hs⟩
    | succ j => exact ⟨lt', hl, hle, hs⟩
  | ret | tail | trap | refused => exact h
  | wrong => exact h.elim

/-- A branch to a loop has another number of operands than its end has results. -/
theorem Outcome.Fits.leave_loop {low : List Nat} (h : o.Fits C (lt :: L) nr)
    (hbr : ∀ ys ls s, o ≠ .br 0 ys ls s) :
    (o.leave nr low).Fits C L (nr + low.length) := by
  cases o with
  | next xs ls s =>
    obtain ⟨hlen, hs⟩ := h
    rw [Outcome.leave, if_pos hlen]
    exact ⟨by rw [List.length_append, hlen], hs⟩
  | br j xs ls s =>
    obtain ⟨lt', hl, hle, hs⟩ := h
    cases j with
    | zero => exact absurd rfl (hbr xs ls s)
    | succ j => exact ⟨lt', hl, hle, hs⟩
  | ret | tail | trap | refused => exact h
  | wrong => exact h.elim

theorem Outcome.Fits.above {low : List Nat} (h : o.Fits C L nr) :
    (o.above low).Fits C L (nr + low.length) := by
  cases o with
  | next xs ls s => exact ⟨by rw [List.length_append, h.1], h.2⟩
  | br | ret | tail | trap | refused => exact h
  | wrong => exact h.elim

theorem Result.Fits.above {low : List Nat} {res : Result H} (h : res.Fits C.globals.length nr)
    (hls : ls.length = C.locals.length) : (res.above low ls).Fits C L (nr + low.length) := by
  cases res with
  | values ys s => exact ⟨by rw [List.length_append, List.length_reverse, h.1], hls, h.2⟩
  | trap | refused => exact h
  | wrong => exact h.elim

theorem Store.write_fits {oob : Bool} {dst n : Nat} {g : Nat → Nat} (hs : C.Holds ls s) :
    (s.write oob dst n g xs ls).Fits C L xs.length := by
  unfold Store.write
  split_ifs
  · exact hs.2
  · exact ⟨rfl, hs⟩

end Outcomes

section Operators

theorem Instance.Instantiates.funcType (hI : I.Instantiates M) {fi ti : Nat}
    (hf : M.funcTypeidx[fi]? = some ti) (ht : M.funcTypes[ti]? = some ft) : I.funcType fi = some ft := by
  rw [Instance.funcType, hI.funcs, hI.types, hf]
  exact ht

theorem ctx_globals : M.globals.length = (M.ctx ft c).globals.length :=
  (List.length_map _).symm

/-- A call with enough operands. -/
theorem Instance.CallsFit.callTop (hcall : I.CallsFit M.globals.length call) {fi : Nat} {gt : FuncType}
    (hgt : I.funcType fi = some gt) (hxs : xs.length = gt.1.length + k) (hs : (M.ctx ft c).Holds ls s)
    (h : Instance.callTop call fi gt xs ls s = some w) : w.Fits (M.ctx ft c) L (gt.2.length + k) := by
  rw [Instance.callTop, if_neg (by omega)] at h
  obtain ⟨res, hres, rfl⟩ := Option.map_eq_some_iff.mp h
  have hfits := hcall hgt (by rw [List.length_reverse, List.length_take]; omega)
    (hs.2.trans ctx_globals.symm) hres
  rw [ctx_globals] at hfits
  have : (res.above (xs.drop gt.1.length) ls).Fits (M.ctx ft c) L
      (gt.2.length + (xs.drop gt.1.length).length) := hfits.above hs.1
  rwa [List.length_drop, hxs, Nat.add_sub_cancel_left] at this

theorem pop {t : ValType} {ts : List ValType} (h : xs.length = (t :: ts).length + k) :
    ∃ a ys, xs = a :: ys ∧ ys.length = ts.length + k := by
  cases xs with
  | nil => simp only [List.length_nil, List.length_cons] at h; omega
  | cons a ys => exact ⟨a, ys, rfl, by simp only [List.length_cons] at h; omega⟩

theorem push {a : Nat} {t : ValType} (h : xs.length = ([] : List ValType).length + k) :
    (a :: xs).length = [t].length + k := by
  simp only [List.length_cons, List.length_nil] at h ⊢
  omega

theorem local_lt (hs : (M.ctx ft c).Holds ls s) {i : Nat} {t : ValType}
    (h : (M.ctx ft c).locals[i]? = some t) : i < ls.length :=
  hs.1 ▸ (List.getElem?_eq_some_iff.mp h).1

theorem global_lt (hs : (M.ctx ft c).Holds ls s) {i : Nat} {t : ValType × Bool}
    (h : (M.ctx ft c).globals[i]? = some t) : i < s.globals.length :=
  hs.2 ▸ (List.getElem?_eq_some_iff.mp h).1

/-- An operator that neither branches nor calls, with enough operands. -/
theorem Instance.Instantiates.simple_fits (hI : I.Instantiates M) {op : Operator} {ps qs : List ValType}
    (hop : OpTyped (M.ctx ft c) op ps qs) (hrule : op.hasRule = true)
    (hcall : ∀ fi, op ≠ .call fi) (hind : ∀ ti tab, op ≠ .callIndirect ti tab)
    (hxs : xs.length = ps.length + k) (hs : (M.ctx ft c).Holds ls s) :
    (I.simple op xs ls s).Fits (M.ctx ft c) L (qs.length + k) := by
  cases hop with
  | nop =>
    exact ⟨hxs, hs⟩
  | const x =>
    exact ⟨push hxs, hs⟩
  | drop t =>
    obtain ⟨a, xs, rfl, hk⟩ := pop hxs
    exact ⟨hk, hs⟩
  | select | typedSelect =>
    obtain ⟨x, xs, rfl, h1⟩ := pop hxs
    obtain ⟨b, xs, rfl, h2⟩ := pop h1
    obtain ⟨a, xs, rfl, h3⟩ := pop h2
    exact ⟨h2, hs⟩
  | num o =>
    have hps : o.pops.length = o.type.1.1 := List.length_replicate
    have hqs : o.pushes.length = o.type.2.1 := List.length_replicate
    simp only [Instance.simple]
    rw [if_neg (by omega)]
    cases hr : o.apply ((xs.take o.type.1.1).reverse.map (· % 2 ^ o.type.1.2.width)) with
    | error t => exact hs.2
    | ok ys =>
      refine ⟨?_, hs⟩
      rw [List.length_append, List.length_reverse, apply_length hr, List.length_drop]
      omega
  | globalGet hg =>
    have hlt := global_lt hs hg
    simp only [Instance.simple, List.getElem?_eq_getElem hlt]
    exact ⟨push hxs, hs⟩
  | globalSet hg =>
    obtain ⟨a, xs, rfl, hk⟩ := pop hxs
    have hlt := global_lt hs hg
    simp only [Instance.simple]
    rw [if_pos hlt]
    exact ⟨hk, hs.1, by rw [List.length_set]; exact hs.2⟩
  | localGet hl =>
    have hlt := local_lt hs hl
    simp only [Instance.simple, List.getElem?_eq_getElem hlt]
    exact ⟨push hxs, hs⟩
  | localSet hl =>
    obtain ⟨a, xs, rfl, hk⟩ := pop hxs
    have hlt := local_lt hs hl
    simp only [Instance.simple]
    rw [if_pos hlt]
    exact ⟨hk, by rw [List.length_set]; exact hs.1, hs.2⟩
  | localTee hl =>
    obtain ⟨a, xs, rfl, hk⟩ := pop hxs
    have hlt := local_lt hs hl
    simp only [Instance.simple]
    rw [if_pos hlt]
    exact ⟨hxs, by rw [List.length_set]; exact hs.1, hs.2⟩
  | load o hm ho =>
    obtain ⟨a, xs, rfl, hk⟩ := pop hxs
    simp only [Instance.simple]
    split_ifs
    · exact ⟨hxs, hs⟩
    · exact hs.2
  | store o hm ho =>
    obtain ⟨x, xs, rfl, h1⟩ := pop hxs
    obtain ⟨a, xs, rfl, hk⟩ := pop h1
    exact hk ▸ Store.write_fits hs
  | memorySize =>
    exact ⟨push hxs, hs⟩
  | memoryGrow =>
    obtain ⟨d, xs, rfl, hk⟩ := pop hxs
    simp only [Instance.simple]
    split_ifs
    · exact ⟨hxs, hs⟩
    · exact ⟨hxs, hs⟩
  | memoryCopy | memoryFill =>
    obtain ⟨n, xs, rfl, h1⟩ := pop hxs
    obtain ⟨x, xs, rfl, h2⟩ := pop h1
    obtain ⟨dst, xs, rfl, hk⟩ := pop h2
    exact hk ▸ Store.write_fits hs
  | memoryInit hd =>
    obtain ⟨n, xs, rfl, h1⟩ := pop hxs
    obtain ⟨x, xs, rfl, h2⟩ := pop h1
    obtain ⟨dst, xs, rfl, hk⟩ := pop h2
    simp only [Instance.simple]
    rw [if_pos (hI.datas ▸ hd)]
    exact hk ▸ Store.write_fits hs
  | dataDrop hd =>
    simp only [Instance.simple]
    rw [if_pos (hI.datas ▸ hd)]
    exact ⟨hxs, hs⟩
  | reinterpret x =>
    obtain ⟨a, xs, rfl, hk⟩ := pop hxs
    exact ⟨hxs, hs⟩
  | call => exact absurd rfl (hcall _)
  | callIndirect => exact absurd rfl (hind _ _)
  | refFunc | refNull | other => cases hrule

/-- An operator of a fixed type, with enough operands. -/
theorem Instance.Instantiates.operator_fits (hI : I.Instantiates M)
    (hcall : I.CallsFit M.globals.length call) {op : Operator} {ps qs : List ValType}
    (hop : OpTyped (M.ctx ft c) op ps qs) (hrule : op.hasRule = true) (hxs : xs.length = ps.length + k)
    (hs : (M.ctx ft c).Holds ls s) (h : I.operator call op xs ls s = some w) :
    w.Fits (M.ctx ft c) L (qs.length + k) := by
  have hsimple := fun hc hi => hI.simple_fits (L := L) hop hrule hc hi hxs hs
  cases hop with
  | call hf ht =>
    have hgt := hI.funcType hf ht
    simp only [Instance.operator, hgt] at h
    rw [List.length_reverse] at hxs ⊢
    exact hcall.callTop hgt hxs hs h
  | callIndirect ht =>
    obtain ⟨x, xs, rfl, hk⟩ := pop hxs
    rw [List.length_reverse] at hk ⊢
    have hgt := ht
    change M.funcTypes[_]? = _ at hgt
    rw [← hI.types] at hgt
    obtain htab | ⟨fi, htab⟩ : (∀ fi, I.table[x % 2 ^ 32]? ≠ some (some fi)) ∨
        ∃ fi, I.table[x % 2 ^ 32]? = some (some fi) := by
      rw [← not_exists]
      exact (em _).symm
    · have hw : w = .trap .table s := by
        simp only [Instance.operator, hgt] at h
        exact (Option.some.inj h).symm
      subst hw
      exact hs.2
    · simp only [Instance.operator, hgt, htab] at h
      split_ifs at h with hty
      · exact hcall.callTop hty hk hs h
      · cases h
        exact hs.2
  | refFunc | refNull | other => cases hrule
  | _ =>
    cases h
    exact hsimple nofun nofun

end Operators

section Sequences

variable {again : Eval H}

theorem Instance.Instantiates.inBlock_eq (hI : I.Instantiates M) {bt : BlockType} {gt : FuncType}
    (hb : bt.expand M.funcTypes = some gt) (hxs : gt.1.length ≤ xs.length)
    (run : (np nr : Nat) → (args low : List Nat) → Option (Outcome H)) :
    I.inBlock bt xs run =
      run gt.1.length gt.2.length (xs.take gt.1.length) (xs.drop gt.1.length) := by
  simp only [Instance.inBlock, hI.types, hb]
  rw [if_neg (by omega)]

/-- The operands of a block and those below it. -/
theorem block_operands {ps : List ValType} {ts : List ValType} (h : xs.length = (ps.reverse ++ ts).length) :
    ps.length ≤ xs.length ∧ (xs.take ps.length).length = ps.reverse.length ∧
      (xs.drop ps.length).length = ts.length := by
  simp only [List.length_append, List.length_reverse, List.length_take, List.length_drop] at h ⊢
  omega

theorem Outcome.Fits.leave_map {C : Ctx} {low : List Nat} {r : Option (Outcome H)} {gt : FuncType}
    (hr : ∀ o, r = some o → o.Fits C (gt.2.reverse :: L) gt.2.reverse.length)
    (h : r.map (Outcome.leave gt.2.length low) = some w) :
    w.Fits C L (gt.2.reverse.length + low.length) := by
  obtain ⟨o, ho, rfl⟩ := Option.map_eq_some_iff.mp h
  have : (o.leave gt.2.reverse.length low).Fits C L (gt.2.reverse.length + low.length) :=
    (hr o ho).leave
  rwa [List.length_reverse] at this ⊢

/-- A loop, whose body is run again after a branch to its label. -/
theorem Instance.Instantiates.loop_fits (hbodies : Instance.BodiesFit M again.body)
    {r : Bool} {bt : BlockType}
    {gt : FuncType} {b : Body} {low : List Nat} (hb : bt.expand M.funcTypes = some gt)
    (htyped : Typed (M.ctx ft c) (gt.1.reverse :: L) r gt.1.reverse b gt.2.reverse)
    (hrules : b.hasRules = true) {o : Option (Outcome H)}
    (h : (match o with
      | some (.br 0 ys ls s) =>
        if gt.1.length ≤ ys.length then
          (again.body (.loop bt b .nil) (ys.take gt.1.length) ls s).map (Outcome.above low)
        else some .wrong
      | o => o.map (Outcome.leave gt.2.length low)) = some w)
    (ho : ∀ w, o = some w → w.Fits (M.ctx ft c) (gt.1.reverse :: L) gt.2.reverse.length) :
    w.Fits (M.ctx ft c) L (gt.2.reverse.length + low.length) := by
  cases o with
  | none => cases h
  | some o =>
    have hfits := ho o rfl
    by_cases hbr : ∃ ys ls s, o = .br 0 ys ls s
    · obtain ⟨ys, ls, s, rfl⟩ := hbr
      obtain ⟨lt, hl, hle, hs⟩ := hfits
      cases hl
      rw [List.length_reverse] at hle
      simp only [if_pos hle] at h
      obtain ⟨o, hrun, rfl⟩ := Option.map_eq_some_iff.mp h
      have hloop := hbodies (.loop hb htyped .nil) (by rw [Body.hasRules, hrules]; rfl)
        (by rw [List.length_take, List.append_nil, List.length_reverse, min_eq_left hle]) hs hrun
      rw [List.append_nil] at hloop
      exact hloop.above
    · have hw : o.leave gt.2.length low = w := by
        split at h
        · rename_i heq
          exact absurd ⟨_, _, _, Option.some.inj heq⟩ hbr
        · exact Option.some.inj h
      subst hw
      rw [List.length_reverse] at hfits ⊢
      exact hfits.leave_loop fun ys ls s heq => hbr ⟨ys, ls, s, heq⟩

theorem brTable_label {ks : List Nat} {j : Nat} (hl : L[j]? = some lt)
    (hks : ∀ i ∈ ks, ∃ lt', L[i]? = some lt' ∧ lt'.length = lt.length) (i : Nat) :
    ∃ lt', L[ks.getD i j]? = some lt' ∧ lt'.length = lt.length := by
  rw [List.getD_eq_getElem?_getD]
  cases hi : ks[i]? with
  | none => exact ⟨lt, hl, rfl⟩
  | some i' => exact hks i' (List.mem_of_getElem? hi)

/-- Sequences, by the rule that was used last. -/
theorem Instance.Instantiates.body_fits (hI : I.Instantiates M)
    (hcall : I.CallsFit M.globals.length again.call) (hbodies : Instance.BodiesFit M again.body) :
    Instance.BodiesFit M (I.body again) := by
  intro ft c L r ts b us xs ls s o htyped hrules hxs hs h
  induction htyped generalizing xs ls s o with
  | nil =>
    cases h
    exact ⟨hxs, hs⟩
  | op ho hr ih =>
    simp only [Body.hasRules, Bool.and_eq_true] at hrules
    rw [List.length_append] at hxs
    refine Outcome.Fits.andThen (fun w hw => hI.operator_fits hcall ho hrules.1 hxs hs hw)
      (fun ys ls s w hlen hs hw => ih hrules.2 ?_ hs hw) h
    rwa [List.length_append]
  | unreachable hr ih =>
    cases h
    exact hs.2
  | br hl hr ih =>
    cases h
    rw [List.length_append] at hxs
    exact ⟨_, hl, by omega, hs⟩
  | brIf hl hr ih =>
    obtain ⟨x, xs, rfl, hk⟩ := pop (t := .i32) (k := 0) hxs
    rw [Nat.add_zero] at hk
    refine Outcome.Fits.andThen (fun w hw => ?_) (fun ys ls s w hlen hs hw => ih hrules hlen hs hw) h
    cases hw
    split_ifs
    · rw [List.length_append] at hk
      exact ⟨_, hl, by omega, hs⟩
    · exact ⟨hk, hs⟩
  | brTable hl hls hr ih =>
    obtain ⟨x, xs, rfl, hk⟩ := pop (t := .i32) (k := 0) hxs
    rw [Nat.add_zero, List.length_append] at hk
    cases h
    obtain ⟨lt, hlt, hlen⟩ := brTable_label hl
      (fun k hk => (hls k hk).imp fun _ h => ⟨h.1, h.2.1⟩) (x % 2 ^ 32)
    exact ⟨lt, hlt, by omega, hs⟩
  | return_ hr ih =>
    cases h
    rw [List.length_append, List.length_reverse] at hxs
    exact ⟨by omega, hs.2⟩
  | returnCall hf ht hres hr ih =>
    cases h
    rw [List.length_append, List.length_reverse] at hxs
    exact ⟨_, _, hf, ht, hres, by omega, hs.2⟩
  | block hb hbody hr ihb ih =>
    simp only [Body.hasRules, Bool.and_eq_true] at hrules
    obtain ⟨hle, htake, hrest⟩ := block_operands hxs
    refine Outcome.Fits.andThen (fun w hw => ?_) (fun ys ls s w hlen hs hw => ih hrules.2 hlen hs hw) h
    rw [hI.inBlock_eq hb hle] at hw
    rw [List.length_append, ← hrest]
    exact Outcome.Fits.leave_map (fun o ho => ihb hrules.1 htake hs ho) hw
  | loop hb hbody hr ihb ih =>
    simp only [Body.hasRules, Bool.and_eq_true] at hrules
    obtain ⟨hle, htake, hrest⟩ := block_operands hxs
    refine Outcome.Fits.andThen (fun w hw => ?_) (fun ys ls s w hlen hs hw => ih hrules.2 hlen hs hw) h
    rw [hI.inBlock_eq hb hle] at hw
    rw [List.length_append, ← hrest]
    exact loop_fits hbodies hb hbody hrules.1 hw fun o ho => ihb hrules.1 htake hs ho
  | ifThen hb heq hbody hr ihb ih =>
    simp only [Body.hasRules, Bool.and_eq_true] at hrules
    obtain ⟨x, xs, rfl, hk⟩ := pop (t := .i32) (k := 0) hxs
    obtain ⟨hle, htake, hrest⟩ := block_operands hk
    refine Outcome.Fits.andThen (fun w hw => ?_) (fun ys ls s w hlen hs hw => ih hrules.2 hlen hs hw) h
    rw [hI.inBlock_eq hb hle] at hw
    rw [List.length_append, ← hrest]
    refine Outcome.Fits.leave_map (fun o ho => ?_) hw
    split_ifs at ho
    · exact ihb hrules.1 htake hs ho
    · cases ho
      exact ⟨heq ▸ htake, hs⟩
  | ifElse hb hbody hels hr ihb ihe ih =>
    simp only [Body.hasRules, Bool.and_eq_true] at hrules
    obtain ⟨x, xs, rfl, hk⟩ := pop (t := .i32) (k := 0) hxs
    obtain ⟨hle, htake, hrest⟩ := block_operands hk
    refine Outcome.Fits.andThen (fun w hw => ?_) (fun ys ls s w hlen hs hw => ih hrules.2 hlen hs hw) h
    rw [hI.inBlock_eq hb hle] at hw
    rw [List.length_append, ← hrest]
    refine Outcome.Fits.leave_map (fun o ho => ?_) hw
    split_ifs at ho
    · exact ihb hrules.1.1 htake hs ho
    · exact ihe hrules.1.2 htake hs ho

end Sequences

section Calls

variable {again : Eval H} {args : List Nat} {fi : Nat} {res : Result H}

theorem Instance.Instantiates.finish_fits (hI : I.Instantiates M)
    (hcall : I.CallsFit M.globals.length call) (ho : o.Fits (M.ctx ft c) [ft.2.reverse] ft.2.length)
    (h : I.finish call ft.2.length o = some res) : res.Fits M.globals.length ft.2.length := by
  have hng := (@ctx_globals M ft c).symm
  cases o with
  | next xs ls s =>
    obtain ⟨hlen, -, hs⟩ := ho
    simp only [Instance.finish, if_pos hlen] at h
    cases h
    exact ⟨by rw [List.length_reverse, hlen], hs.trans hng⟩
  | br j xs ls s =>
    obtain ⟨lt, hl, hle, -, hs⟩ := ho
    cases j with
    | zero =>
      cases hl
      rw [List.length_reverse] at hle
      simp only [Instance.finish, if_pos hle] at h
      cases h
      exact ⟨by rw [List.length_reverse, List.length_take, min_eq_left hle], hs.trans hng⟩
    | succ j => cases hl
  | ret xs s =>
    have hle : ft.2.length ≤ xs.length := ho.1
    simp only [Instance.finish, if_pos hle] at h
    cases h
    exact ⟨by rw [List.length_reverse, List.length_take, min_eq_left hle], ho.2.trans hng⟩
  | tail fi xs s =>
    obtain ⟨ti, gt, hf, ht, hres, hle, hs⟩ := ho
    have hgt := hI.funcType hf ht
    have hres : gt.2 = ft.2 := hres
    simp only [Instance.finish, hgt] at h
    rw [if_neg (by rw [hres]; omega)] at h
    rw [← hres]
    exact hcall hgt (by rw [List.length_reverse, List.length_take, min_eq_left hle]) (hs.trans hng) h
  | trap | refused =>
    cases h
    exact ho.trans hng
  | wrong => exact ho.elim

theorem ctx_holds (hargs : args.length = ft.1.length) (hs : s.globals.length = M.globals.length) :
    (M.ctx ft c).Holds (Instance.locals c args) s := by
  refine ⟨?_, hs.trans ctx_globals⟩
  show (Instance.locals c args).length = (ft.1 ++ _).length
  rw [Instance.locals, List.length_append, List.length_append, List.length_replicate, hargs,
    List.length_flatMap]
  simp only [List.length_replicate]

theorem Instance.Instantiates.call_fits (hI : I.Instantiates M)
    (hcall : I.CallsFit M.globals.length again.call) (hbodies : Instance.BodiesFit M again.body) :
    I.CallsFit M.globals.length (I.call again) := by
  intro fi ft args s res hft hargs hs h
  simp only [Instance.call, hft, if_neg (not_not.mpr hargs)] at h
  split_ifs at h with hfi
  · cases h
    unfold Instance.callHost
    cases hr : (I.host s.host fi args s.mem).results with
    | none =>
      simp only [hr]
      exact hs
    | some ys =>
      have hlen := hI.host fi ft s.host args s.mem ys hft hfi hr
      simp only [hr, if_pos hlen]
      exact ⟨hlen, hs⟩
  · obtain ⟨c, hc, hvalid, hrules⟩ := hI.func fi ft (Nat.le_of_not_lt hfi) hft
    simp only [hc] at h
    obtain ⟨o, ho, hfin⟩ := Option.bind_eq_some_iff.mp h
    have hfits := hI.body_fits hcall hbodies hvalid hrules rfl (ctx_holds hargs hs) ho
    exact hI.finish_fits hcall (List.length_reverse ▸ hfits) hfin

/-- Within every budget. -/
theorem Instance.Instantiates.eval_fits (hI : I.Instantiates M) (n : Nat) :
    Instance.BodiesFit M (I.eval n).body ∧ I.CallsFit M.globals.length (I.eval n).call := by
  induction n with
  | zero =>
    refine ⟨?_, ?_⟩
    · intro ft c L r ts b us xs ls s o _ _ _ _ h
      cases h
    · intro fi ft args s res _ _ _ h
      cases h
  | succ n ih => exact ⟨hI.body_fits ih.2 ih.1, hI.call_fits ih.2 ih.1⟩

/-- A call in an instance of a valid module does not go wrong. -/
theorem Instance.Instantiates.call_ne_wrong (hI : I.Instantiates M) {n : Nat} (hft : I.funcType fi = some ft)
    (hargs : args.length = ft.1.length) (hs : s.globals.length = M.globals.length) :
    (((I.eval n).call fi args s) : Option (Result H)) ≠ some .wrong :=
  fun h => (hI.eval_fits n).2 hft hargs hs h

end Calls

end CuWasm.Wasm
