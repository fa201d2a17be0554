import CuWasm.Imports
import CuWasm.Proofs.PinProofs
import CuWasm.Proofs.RunProofs
import CuWasm.Proofs.TrapProofs

/-!
# Imports and host calls

A direct call of an import suspends with the right function number and arguments. The other ways to
an import do not: a tail call stops at the stub of its function, and the two ways that use the
placeholder enter the code at 0.
-/

namespace CuWasm

open Wasm Exit Translate Structured

/-! ## Calls in lowered code -/

namespace Structured

/-- The calls and tail calls among the items go to functions from `n` on. -/
def Defined (n : Nat) (is : Items) : Prop :=
  ∀ p ∈ is, ∀ i, p.1 = .code i → i.op = .call ∨ i.op = .returnCall → n ≤ i.b

section Defined

variable {n : Nat} {is is' : Items}

theorem Defined.nil : Defined n [] := fun _ hp => by cases hp

theorem Defined.append (h : Defined n is) (h' : Defined n is') : Defined n (is ++ is') := by
  intro p hp
  rcases List.mem_append.mp hp with hp | hp
  · exact h p hp
  · exact h' p hp

theorem Defined.cons {i : CuOp} {x : Int} (hi : i.op = .call ∨ i.op = .returnCall → n ≤ i.b)
    (h : Defined n is) : Defined n ((.code i, x) :: is) := by
  intro p hp j hj
  rcases List.mem_cons.mp hp with rfl | hp
  · cases hj
    exact hi
  · exact h p hp j hj

theorem Defined.close (h : Defined n is) (t : Nat) : Defined n (close t is) := by
  intro p hp i hi hop
  obtain ⟨q, hq, rfl⟩ := List.mem_map.mp hp
  obtain ⟨item, x⟩ := q
  cases item with
  | code j =>
    cases hi
    exact h _ hq i rfl hop
  | jump k =>
    cases k with
    | zero =>
      cases hi
      rcases hop with hop | hop <;> cases hop
    | succ k => cases hi

/-- The items of a pass that succeeds call defined functions only. -/
def Calls (n : Nat) (y : Option (Items × State)) : Prop := ∀ is st, y = some (is, st) → Defined n is

theorem Calls.andThen {y : Option (Items × State)} {y' : State → Option (Items × State)}
    (h : Calls n y) (h' : ∀ st, Calls n (y' st)) : Calls n (andThen y y') := by
  intro is st heq
  obtain ⟨p, hp, heq⟩ := Option.bind_eq_some_iff.mp heq
  obtain ⟨q, hq, heq⟩ := Option.map_eq_some_iff.mp heq
  cases heq
  exact (h p.1 p.2 hp).append (h' p.2 q.1 q.2 hq)

theorem Calls.map {y : Option (Items × State)} {g : Items × State → Items × State} (h : Calls n y)
    (hg : ∀ p, Defined n p.1 → Defined n (g p).1) : Calls n (y.map g) := by
  intro is st heq
  obtain ⟨p, hp, heq⟩ := Option.map_eq_some_iff.mp heq
  have := hg p (h p.1 p.2 hp)
  rwa [heq] at this

theorem Calls.bind {α : Type} {y : Option α} {g : α → Option (Items × State)}
    (h : ∀ a, Calls n (g a)) : Calls n (y.bind g) := by
  intro is st heq
  obtain ⟨a, -, heq⟩ := Option.bind_eq_some_iff.mp heq
  exact h a is st heq

theorem Calls.none : Calls n none := fun _ _ h => by cases h

theorem Calls.some {p : Items × State} (h : Defined n p.1) : Calls n (some p) := by
  intro is st heq
  cases heq
  exact h

theorem plain_calls (ghost : Bool) (op : Opcode) (a b pops pushes : Nat) (st : State)
    (hop : op = .call ∨ op = .returnCall → n ≤ b) :
    Calls n (plain ghost op a b pops pushes st) := by
  intro is st' h
  unfold plain at h
  obtain ⟨st2, -, heq⟩ := Option.map_eq_some_iff.mp h
  cases heq
  exact Defined.nil.cons hop

theorem branch_calls (env : LowerEnv) (L : List Label) (ghost : Bool) (k : Nat) (st : State) :
    Calls n (branch env L ghost k st) := by
  unfold branch
  cases L[k]? with
  | none => exact Calls.none
  | some l =>
    dsimp only
    split
    · exact Calls.none
    · refine Calls.some (Defined.append ?_ ?_)
      · split
        · exact Defined.nil.cons (by rintro (h | h) <;> cases h)
        · exact Defined.nil
      · cases l.start with
        | some pc => exact Defined.nil.cons (by rintro (h | h) <;> cases h)
        | none =>
          intro p hp i hi
          cases List.mem_singleton.mp hp
          cases hi

theorem branchIf_calls (env : LowerEnv) (L : List Label) (ghost : Bool) (k : Nat) (st : State) :
    Calls n (branchIf env L ghost k st) := by
  refine Calls.bind fun st1 => (branch_calls env L ghost k _).map fun p hp => ?_
  exact hp.cons (by rintro (h | h) <;> cases h)

theorem tableArm_calls (env : LowerEnv) (L : List Label) (ghost : Bool) (scratch i k : Nat)
    (st : State) : Calls n (tableArm env L ghost scratch i k st) := by
  have hother (op : Opcode) (a b pops pushes : Nat) (st : State)
      (hop : op ≠ .call ∧ op ≠ .returnCall) : Calls n (plain ghost op a b pops pushes st) :=
    plain_calls ghost op a b pops pushes st fun h => (h.elim hop.1 hop.2).elim
  unfold tableArm
  refine Calls.andThen (hother .localGet _ _ _ _ _ (by decide)) fun st => ?_
  refine Calls.andThen (hother .i64Const _ _ _ _ _ (by decide)) fun st => ?_
  exact Calls.andThen (hother (.bin .i32Eq) _ _ _ _ _ (by decide)) fun st =>
    branchIf_calls env L ghost k st

theorem tableArms_calls (env : LowerEnv) (L : List Label) (ghost : Bool) (scratch i : Nat)
    (ks : List Nat) (st : State) : Calls n (tableArms env L ghost scratch i ks st) := by
  induction ks generalizing i st with
  | nil => exact Calls.some Defined.nil
  | cons k ks ih =>
    exact (tableArm_calls env L ghost scratch i k st).andThen fun st => ih (i + 1) st

theorem NumOp.lower_noCall (o : NumOp) : (NumOp.lower o).1 ≠ .call ∧ (NumOp.lower o).1 ≠ .returnCall := by
  cases o <;> decide

/-- An operator is lowered to calls of defined functions only. -/
theorem operator_calls (env : LowerEnv) (L : List Label) (ghost : Bool) (o : Operator) (st : State) :
    Calls env.nImports (operator env L ghost o st) := by
  have hother (op : Opcode) (a b pops pushes : Nat) (st : State)
      (hop : op ≠ .call ∧ op ≠ .returnCall) :
      Calls env.nImports (plain ghost op a b pops pushes st) :=
    plain_calls ghost op a b pops pushes st fun h => (h.elim hop.1 hop.2).elim
  have hone {i : CuOp} {x : Int} {st : State} (hop : i.op ≠ .call ∧ i.op ≠ .returnCall) :
      Calls env.nImports (some ([(.code i, x)], st)) :=
    Calls.some (Defined.nil.cons fun h => (h.elim hop.1 hop.2).elim)
  cases o with
  | call fi =>
    simp only [operator]
    cases funcArity fi env.funcTypes env.funcTypeidx with
    | error e => exact Calls.none
    | ok a =>
      dsimp only
      by_cases hfi : fi < env.nImports
      · rw [if_pos hfi]
        cases env.hostFnIds[fi]? with
        | none => exact Calls.none
        | some fnId => exact hother _ _ _ _ _ _ (by decide)
      · rw [if_neg hfi]
        exact plain_calls ghost _ _ _ _ _ _ fun _ => Nat.le_of_not_lt hfi
  | returnCall fi =>
    simp only [operator]
    by_cases hfi : fi < env.nImports
    · rw [if_pos hfi]
      exact Calls.none
    · rw [if_neg hfi]
      exact Calls.some (Defined.nil.cons fun _ => Nat.le_of_not_lt hfi)
  | callIndirect ti tab =>
    simp only [operator]
    split
    · exact Calls.none
    · cases env.funcTypes[ti]? with
      | none => exact Calls.none
      | some ft => exact hother _ _ _ _ _ _ (by decide)
  | br k => exact (branch_calls env L ghost k st).map fun _ hp => hp
  | brIf k => exact branchIf_calls env L ghost k st
  | brTable ks k =>
    simp only [operator, table]
    cases env.scratch with
    | none => exact Calls.none
    | some scratch =>
      refine Calls.andThen (hother _ _ _ _ _ _ (by decide)) fun st => ?_
      refine Calls.andThen (tableArms_calls env L ghost scratch 0 ks st) fun st => ?_
      exact (branch_calls env L ghost k st).map fun _ hp => hp
  | load o ma =>
    simp only [operator]
    cases checkMemarg ma with
    | error e => exact Calls.none
    | ok off => exact hother _ _ _ _ _ _ (by decide)
  | store o ma =>
    simp only [operator]
    cases checkMemarg ma with
    | error e => exact Calls.none
    | ok off => exact hother _ _ _ _ _ _ (by decide)
  | memorySize mem | memoryGrow mem | memoryFill mem | memoryInit di mem | memoryCopy dst src =>
    simp only [operator]
    split
    · exact Calls.none
    · exact hother _ _ _ _ _ _ (by decide)
  | nop => exact Calls.some Defined.nil
  | unreachable | return_ | dataDrop di => exact hone ⟨Opcode.noConfusion, Opcode.noConfusion⟩
  | localTee k =>
    exact Calls.some ((Defined.nil.cons (by rintro (h | h) <;> cases h)).cons
      (by rintro (h | h) <;> cases h))
  | num o => exact hother _ _ _ _ _ _ (NumOp.lower_noCall o)
  | reinterpret r =>
    intro is st' h
    obtain ⟨st2, -, heq⟩ := Option.map_eq_some_iff.mp h
    cases heq
    exact Defined.nil
  | const c | drop | select | typedSelect t | globalGet k | globalSet k | localGet k | localSet k =>
    exact hother _ _ _ _ _ _ (by decide)
  | block bt | loop bt | if_ bt | else_ | end_ | refFunc k | refNull | other t => exact Calls.none

end Defined

/-- So is a whole body. -/
theorem body_calls (env : LowerEnv) (b : Body) :
    ∀ L ghost st, Calls env.nImports (body env L ghost st b) := by
  have hskip {i : CuOp} (hop : i.op = .brIfNot ∨ i.op = .br) :
      i.op = .call ∨ i.op = .returnCall → env.nImports ≤ i.b := by
    intro h
    rcases hop with hop | hop <;> rw [hop] at h <;> rcases h with h | h <;> cases h
  induction b with
  | nil => exact fun L ghost st => Calls.some Defined.nil
  | op o rest ih =>
    intro L ghost st
    exact (operator_calls env L ghost o st).andThen fun st => ih L ghost st
  | block bt b rest ihb ihr =>
    intro L ghost st
    refine Calls.bind fun a => Calls.bind fun base => Calls.andThen ?_ fun st => ihr L ghost st
    exact (ihb _ ghost st).map fun p hp => hp.close _
  | loop bt b rest ihb ihr =>
    intro L ghost st
    refine Calls.bind fun a => Calls.bind fun base => Calls.andThen ?_ fun st => ihr L ghost st
    exact (ihb _ ghost st).map fun p hp => hp.close _
  | ifThen bt b rest ihb ihr =>
    intro L ghost st
    refine Calls.bind fun a => Calls.bind fun st0 => Calls.bind fun base =>
      Calls.andThen ?_ fun st => ihr L ghost st
    exact (ihb _ ghost _).map fun p hp => (hp.close _).cons (hskip (.inl rfl))
  | ifElse bt b els rest ihb ihe ihr =>
    intro L ghost st
    refine Calls.bind fun a => Calls.bind fun st0 => Calls.bind fun base =>
      Calls.andThen ?_ fun st => ihr L ghost st
    intro is st' h
    obtain ⟨p, hp, h⟩ := Option.bind_eq_some_iff.mp h
    obtain ⟨q, hq, h⟩ := Option.map_eq_some_iff.mp h
    cases h
    have h1 := (ihb _ _ _ p.1 p.2 hp).close q.2.pc
    have h2 := (ihe _ _ _ q.1 q.2 hq).close q.2.pc
    exact (h1.append (h2.cons (hskip (.inr rfl)))).cons (hskip (.inl rfl))

theorem function_calls {env : LowerEnv} {pc : Nat} {consts consts' : List Slot} {b : Body} {is : Items}
    (h : function env pc consts b = some (is, consts')) : Defined env.nImports is := by
  unfold function at h
  obtain ⟨p, hp, heq⟩ := Option.map_eq_some_iff.mp h
  cases heq
  have hbody := body_calls env b _ _ _ p.1 p.2 hp
  refine (hbody.close _).append (Defined.nil.cons ?_)
  rintro (h | h) <;> cases h

end Structured

/-- The instruction of a lowered function at the position of an item. -/
theorem Translate.LoweredAt.instr {M : Module} {m : HostModule} {ft : FuncType} {c : Func} {s : TState}
    {f : FuncMeta} {is : Items} (h : LoweredAt M m ft c s f is) {r : Nat} {p : Item × Int}
    (hp : is[r]? = some p) : Verify.instrAt m f r = p.1.placeholder := by
  have hd : (draft is)[r]? = some p.1.placeholder := by
    rw [draft, List.getElem?_map, hp]
    rfl
  have hlt := (List.getElem?_eq_some_iff.mp hd).1
  obtain ⟨l, hl⟩ := h.code
  unfold Verify.instrAt
  rw [h.func, List.getD_eq_getElem?_getD, ← hl, List.append_assoc,
    List.getElem?_append_right (Nat.le_add_right _ _), Nat.add_sub_cancel_left,
    List.getElem?_append_left hlt, hd]
  rfl

/-! ## Frames of a run off imports -/

section Verified

variable {M : Module} {m0 m : HostModule} (h : Verified M m0 m)

include h

theorem Verified.nHostImports : m.nHostImports = M.imports.length :=
  h.typeFp.2.2.1.trans h.translated.nHostImports

theorem Verified.hostFnId : m.hostFnId = m0.hostFnId := by
  obtain ⟨-, fs, rfl, -, -⟩ := verifyCuop_accepted h.verified
  rfl

/-- A function from the imports on has code. -/
theorem Verified.code_pos_of {k : Nat} {f : FuncMeta} (hf : m.funcs[k]? = some f)
    (hk : m.nHostImports ≤ k) : 0 < f.codeLen := by
  obtain ⟨-, ⟨-, hlt⟩ | ⟨hpos, -⟩⟩ := h.accepted.func k f hf
  · omega
  · exact hpos

/-- A call or tail call of a run goes to a defined function. -/
theorem Verified.callee {k : Nat} {f : FuncMeta} (hf : m.funcs[k]? = some f) (hpos : 0 < f.codeLen)
    {r : Nat} (hr : r < f.codeLen)
    (hop : (Verify.instrAt m f r).op = .call ∨ (Verify.instrAt m f r).op = .returnCall) :
    m.nHostImports ≤ (Verify.instrAt m f r).b := by
  have hk := h.defined_of hf hpos
  obtain ⟨f0, hf0, hs, -, -, hinstr⟩ := h.func hf
  rw [hinstr] at hop ⊢
  have hlen : f.codeLen = f0.codeLen := by rw [hs]
  rw [hlen] at hr
  have hlt := (List.getElem?_eq_some_iff.mp hf0).1
  rw [h.translated.length] at hlt
  have hc := List.getElem?_eq_getElem (show k - M.imports.length < M.code.length by omega)
  obtain ⟨s, ft, f', hs1, -, -, hf', hcase⟩ := h.translated.defined h.valid hc
  rw [Nat.add_sub_cancel' hk, hf0] at hf'
  cases hf'
  rcases hcase with ⟨is, hlow⟩ | ⟨e, code', consts', off, -, rfl, h1, h2⟩
  · obtain ⟨s', -, -, -, -, hs', -, -, hids, -⟩ := h.translated.entry _ _ hc
    rw [hs1] at hs'
    cases hs'
    rw [hlow.func] at hr
    obtain ⟨p, hp⟩ : ∃ p, is[r]? = some p := ⟨_, List.getElem?_eq_getElem hr⟩
    have hat := hlow.instr hp
    obtain ⟨consts', hpass, -⟩ := hlow.pass
    have hdef := function_calls hpass p (List.mem_of_getElem? hp)
    rw [hat] at hop ⊢
    obtain ⟨item, x⟩ := p
    cases item with
    | code i =>
      rw [h.nHostImports, ← hids]
      exact hdef i rfl hop
    | jump j => rcases hop with hop | hop <;> cases hop
  · -- the stub has no calls
    have hcode : Verify.instrAt m0 (stub off ft.1.length ft.2.length) r ∈
        [({ op := .unreachable } : CuOp), { op := .endFunc, a := ft.2.length }] := by
      have hr2 : r < 2 := hr
      unfold Verify.instrAt stub
      rw [List.getD_eq_getElem?_getD]
      rcases Nat.lt_succ_iff_lt_or_eq.mp hr2 with hr1 | rfl
      · cases Nat.lt_one_iff.mp hr1
        rw [Nat.add_zero, h1]
        exact .head _
      · rw [h2]
        exact .tail _ (.head _)
    rcases List.mem_cons.mp hcode with heq | heq
    · rw [heq] at hop
      rcases hop with hop | hop <;> cases hop
    · rw [List.mem_singleton.mp heq] at hop
      rcases hop with hop | hop <;> cases hop

/-- Valid code that does not call an import through the table satisfies `StepOk`. -/
theorem Verified.stepOk_off {f : FuncMeta} {gs : List FuncMeta} {s : Mach}
    (hinv : FrameInv m.cpuViews m f gs s) (hoff : OffImports m.cpuViews m s) :
    StepOk m.cpuViews m s := by
  obtain ⟨hcode, fl, hfl, hcase⟩ := hinv.instr h.accepted
  obtain ⟨k, hk⟩ := List.mem_iff_getElem?.mp hinv.located.mem
  refine h.stepOk_of hinv ?_ ?_
  · intro i g hi hop hg
    rw [hcode] at hi
    cases hi
    exact h.code_pos_of hg (h.callee hk hinv.located.code hfl.lt hop)
  · intro i g hi hop hg
    obtain ⟨fi, want, tidx, htab, hf, hwant, htidx, heq⟩ := Run.indirectTarget_some hg
    refine h.code_pos_of hf (hoff fi ⟨i, want, tidx, hi, hop, ?_, hwant, htidx, heq⟩)
    have hpos : 0 < s.sp := by
      rw [hcode] at hi
      cases hi
      have hsp := hinv.sp
      cases hcase with
      | callIndirect hop' hfp hp => omega
      | _ => simp_all [effect]
    have hdec : dec32 s.sp = s.sp - 1 := if_neg hpos.ne'
    rw [hdec]
    exact htab

theorem Verified.reaches {s : Mach} (hs : Reaches m s) :
    ∃ f gs, FrameInv m.cpuViews m f gs s := by
  obtain ⟨k, e, args, fuel, hk, he, hr⟩ := hs
  induction hr with
  | refl =>
    exact ⟨e, [], (entryMach_entry m e args fuel).frameInv h.accepted (List.mem_of_getElem? he)
      (h.code_pos_of he hk)⟩
  | tail _ hstep ih =>
    obtain ⟨f, gs, hinv⟩ := ih
    exact (go_frame h.accepted hinv (h.stepOk_off hinv hstep.1) hstep.2).1

end Verified

/-! ## The instruction of a direct call -/

/-- A direct call of an import emits an `OP_CALL_HOST`. -/
theorem Lower.callArm_import {env : LowerEnv} {i : Nat} {s t : LState} (hi : i < env.nImports)
    (h : Lower.callArm env i s = .ok () t) : ∃ np nr fnId,
      funcArity i env.funcTypes env.funcTypeidx = .ok (np, nr) ∧ env.hostFnIds[i]? = some fnId ∧
      t.code = s.code ++ [⟨.callHost, np ||| (nr <<< 8) % 2 ^ 16, fnId⟩] ∧ t.ctrl = s.ctrl := by
  unfold Lower.callArm at h
  obtain ⟨⟨np, nr⟩, s1, ha, h⟩ := bind_eq_ok h
  cases hx : funcArity i env.funcTypes env.funcTypeidx with
  | error e =>
    rw [hx] at ha
    cases ha
  | ok a =>
    rw [hx] at ha
    cases ha
    simp only [if_pos hi] at h
    cases hid : env.hostFnIds[i]? with
    | none =>
      rw [hid] at h
      cases h
    | some fnId =>
      rw [hid] at h
      refine ⟨np, nr, fnId, rfl, rfl, ?_⟩
      obtain ⟨q, s2, h2, h3⟩ := bind_eq_ok h
      cases h2
      unfold Lower.consume at h3
      simp only [bind_apply, get_apply, ite_run, pure_apply, throw_apply, set_apply] at h3
      split_ifs at h3
      · cases h3
        exact ⟨rfl, rfl⟩
      · cases h3
        exact ⟨rfl, rfl⟩

/-- The host function numbers are those that every function was lowered with. -/
theorem loaded_hostFnId {M : Module} {ps : List (Parsed Payload)} {m0 : HostModule} (he : Encodes M ps)
    (hm : loadWasm ps = .ok m0) {k : Nat} {s : TState} (hs : M.before k = .ok s) :
    m0.hostFnId = s.hostFnIds := by
  obtain ⟨s0, sN, hr, -, hids⟩ := Module.loaded_read he hm
  obtain ⟨s1, hs1, hcoded, -⟩ := hr.before_le (k := k)
  rw [hs] at hs1
  cases hs1
  obtain ⟨s2, hs2, hcoded2, -⟩ := hr.before_le (k := M.code.length)
  rw [hr.before] at hs2
  cases hs2
  rw [hids, hcoded2.hostFnIds, hcoded.hostFnIds]

/-- The instruction stands in the loaded code. -/
theorem call_instr {M : Module} {ps : List (Parsed Payload)} {m0 : HostModule} (he : Encodes M ps)
    (hm : loadWasm ps = .ok m0) {i k p : Nat} (hi : i < M.imports.length) (hk : M.Lowers k)
    (hp : M.ComesTo k (.call i) p) : ∃ np nr fnId,
      funcArity i M.funcTypes M.funcTypeidx = .ok (np, nr) ∧ m0.hostFnId[i]? = some fnId ∧
      m0.code[p]? = some ⟨.callHost, np ||| (nr <<< 8) % 2 ^ 16, fnId⟩ := by
  obtain ⟨c, ft, s, f, code, consts, hat, hlow⟩ := hk
  obtain ⟨c', ft', s', pre, post, st, hat', hops, hpre, rfl⟩ := hp
  obtain ⟨rfl, rfl, rfl⟩ := hat.unique hat'
  have ht := loadWasm_translated he hm
  obtain ⟨s1, ft1, f1, code1, consts1, hb, htypes, htidx, hids, hty, -, hplaced, -, hcode, -⟩ :=
    ht.entry k _ hat.code
  obtain ⟨-, rfl, rfl⟩ := hat.unique ⟨hat.code, hty, hb⟩
  have hcode1 : code1 = code := by
    cases hplaced with
    | lowered hlow' =>
      rw [hlow] at hlow'
      cases hlow'
      rfl
    | stub hlow' _ _ =>
      rw [hlow] at hlow'
      cases hlow'
  have hfinal := (lowerOperators_final hlow).1
  obtain ⟨t, ht', -⟩ := lowerOperators_ok hlow
  rw [ht'] at hfinal
  have hsplit := ht'
  rw [hops, operators_append] at hsplit
  have hpre' : Lower.operators (lowerEnv s1.lowerModule (pre ++ .call i :: post)
      (ft1.1.length % 2 ^ 16) (ft1.2.length % 2 ^ 16) (c'.locals.map (·.1)).sum) pre
      { code := s1.code, consts := s1.consts, h := 0, dead := false
        ctrl := [funcCtrl s1.code.length (ft1.2.length % 2 ^ 16)] } = .ok () st := by
    rw [← hops]
    exact hpre
  rw [bind_ok hpre'] at hsplit
  obtain ⟨⟨⟩, s2, hcall, hpost⟩ := bind_eq_ok hsplit
  have himp : i < s1.hostFnIds.length := hids ▸ hi
  obtain ⟨np, nr, fnId, harity, hfn, hs2, hctrl⟩ := Lower.callArm_import himp hcall
  -- the blocks that are open at the call have recorded earlier positions
  have hinv := (Lower.operators_pass s1.code s1.consts [] _ pre _ (Lower.passInv_init _ _ _)).1 ()
    st hpre'
  have hpin : Lower.Pinned st.code.length ⟨.callHost, np ||| (nr <<< 8) % 2 ^ 16, fnId⟩ s2 := by
    refine ⟨by rw [hs2, List.getElem?_concat_length], fun d hd => ?_⟩
    have hd' := hinv.frames d (hctrl ▸ hd)
    refine ⟨fun hmem => ?_, fun heq => ?_, fun heq => ?_⟩
    · exact Nat.lt_irrefl _ (Lower.opAt_lt (hd'.patches _ hmem).2)
    · exact Nat.lt_irrefl _ (Lower.opAt_lt (hd'.elseBr _ heq).2)
    · exact Nat.lt_irrefl _ (Lower.opAt_lt (hd'.brIfNot _ heq).2)
  have hstay := ((Lower.operators_pins _ post s2 hpin).1 () t hpost).code
  have hfn' : m0.hostFnId[i]? = some fnId := by
    rw [loaded_hostFnId he hm hat.before]
    exact hfn
  refine ⟨np, nr, fnId, ?_, hfn', ?_⟩
  · rw [← htypes, ← htidx]
    exact harity
  · have hlt := (List.getElem?_eq_some_iff.mp hstay).1
    rw [hcode1, hfinal, final_ok] at hcode
    obtain ⟨l, hl⟩ := hcode
    rw [← hl, List.getElem?_append_left hlt]
    exact hstay

/-- A direct call of an import with its arguments on the stack. -/
theorem callHost_asHostCall {m : HostModule} {s : Mach} {i np nr fnId : Nat} (hnp : np ≤ 8)
    (hnr : nr ≤ 8) (hfn : m.hostFnId[i]? = some fnId)
    (hi : m.code[s.pc]? = some ⟨.callHost, np ||| (nr <<< 8) % 2 ^ 16, fnId⟩) (hsp : np ≤ s.sp) :
    AsHostCall m i (argsBelow m.cpuViews s s.sp np) (Run.step m.cpuViews m.dev s) := by
  have hlow := (callHost_arity np hnp nr hnr).1
  have hi' : m.dev.code[s.pc]? = some ⟨.callHost, np ||| (nr <<< 8) % 2 ^ 16, fnId⟩ := hi
  have hsp' : ¬ (Run.fetched s).sp < np := Nat.not_lt.mpr hsp
  refine .inl ⟨Run.suspended m.cpuViews (np ||| (nr <<< 8) % 2 ^ 16) fnId (Run.fetched s), ?_, hfn, ?_⟩
  · rw [Run.step_apply, hi']
    simp only [Run.exec, Run.callHost_apply, hlow, if_neg hsp', if_neg (show ¬ np > 16 by omega)]
  · unfold Run.suspended argsBelow
    simp only [hlow]
    refine List.map_congr_left fun j hj => ?_
    rw [if_pos (List.mem_range.mp hj)]
    rfl

theorem enter_exits {v : Views} {f : FuncMeta} {s t : Mach} :
    (∀ e, Run.enter v f s = .error e t → e ≠ .hostcallPending ∧ e ≠ .unsupportedOp) ∧
      (Run.enter v f s = .ok () t → t.pc = f.codeOff) := by
  rw [Run.enter_apply, Run.pushZeros_apply]
  constructor
  · intro e h
    split_ifs at h
    all_goals
      cases h
      decide
  · intro h
    split_ifs at h
    cases h
    rfl

/-- A reached `OP_CALL_HOST` finds its arguments on the stack. -/
theorem FrameInv.host_args {m : HostModule} {v : Views} {f : FuncMeta} {gs : List FuncMeta} {s : Mach}
    {np nr b : Nat} (hinv : FrameInv v m f gs s) (hm : Accepted m)
    (hi : m.code[s.pc]? = some ⟨.callHost, np ||| (nr <<< 8) % 2 ^ 16, b⟩) (hnp : np ≤ 8)
    (hnr : nr ≤ 8) : np ≤ s.sp := by
  obtain ⟨hcode, fl, hfl, hcase⟩ := hinv.instr hm
  have hsp := hinv.sp
  rw [hcode] at hi
  generalize Verify.instrAt m f (s.pc - f.codeOff) = i at hi hcase
  cases hi
  have hlow := (callHost_arity np hnp nr hnr).1
  cases hcase with
  | callHost hop hp =>
    rw [hlow] at hp
    omega
  | _ => simp_all [effect]

/-- An import that the table selects is entered like a function with code, or the call traps. -/
theorem callIndirect_import {m : HostModule} {s : Mach} {i : Nat} {f : FuncMeta}
    (hsel : Selects m.cpuViews m s i) (hf : m.funcs[i]? = some f) (args : List Slot) :
    ¬ AsHostCall m i args (Run.step m.cpuViews m.dev s) ∧
      ∀ t, Run.step m.cpuViews m.dev s = .ok () t → t.pc = f.codeOff := by
  obtain ⟨ins, want, tidx, hi, hop, htab, -⟩ := hsel
  have hi' : m.dev.code[s.pc]? = some ins := hi
  have hexec (r : EStateM.Result Status Mach Unit)
      (hr : Run.exec m.cpuViews m.dev ins (Run.fetched s) = r) :
      (∀ e t, r = .error e t → e ≠ .hostcallPending ∧ e ≠ .unsupportedOp) ∧
        ∀ t, r = .ok () t → t.pc = f.codeOff := by
    simp only [Run.exec, hop, bind_apply, Run.pop_apply, Run.indirectCallee_apply] at hr
    cases hg : Run.indirectTarget m.dev ins.b
        (u32 ((Run.fetched s).stack (m.cpuViews.stack.idx (dec32 (Run.fetched s).sp)))).toNat with
    | none =>
      rw [hg] at hr
      subst hr
      refine ⟨fun e t h => ?_, fun t h => by cases h⟩
      cases h
      decide
    | some g =>
      obtain ⟨fi, -, -, htab', hf', -⟩ := Run.indirectTarget_some hg
      have htab2 : some fi = some i := htab'.symm.trans htab
      cases htab2
      have hgf : some g = some f := hf'.symm.trans hf
      cases hgf
      rw [hg] at hr
      subst hr
      exact ⟨fun e t h => enter_exits.1 e h, fun t h => enter_exits.2 h⟩
  rw [Run.step_apply, hi']
  dsimp only
  generalize hr : Run.exec m.cpuViews m.dev ins (Run.fetched s) = r
  obtain ⟨herr, hok⟩ := hexec r hr
  cases r with
  | error e t =>
    obtain ⟨h1, h2⟩ := herr e t rfl
    refine ⟨?_, fun t h => by cases h⟩
    rintro (⟨t, heq, -⟩ | ⟨t, heq⟩) <;> cases heq
    · exact h1 rfl
    · exact h2 rfl
  | ok a t =>
    dsimp only
    by_cases hcap : t.sp > STACK_CAP
    · rw [if_pos hcap]
      refine ⟨?_, fun t h => by cases h⟩
      rintro (⟨t, heq, -⟩ | ⟨t, heq⟩) <;> cases heq
    · rw [if_neg hcap]
      refine ⟨?_, fun u h => ?_⟩
      · rintro (⟨t, heq, -⟩ | ⟨t, heq⟩) <;> cases heq
      · cases h
        exact hok t rfl

/-- A tail call of an import is refused: the pass ends there, and the stub follows. -/
theorem returnCall_stub {M : Module} {m0 m : HostModule} (h : Verified M m0 m) {i k p : Nat}
    (hi : i < M.imports.length) (hp : M.ComesTo k (.returnCall i) p) :
    m.code[p]? = some { op := .unreachable } := by
  obtain ⟨c, ft, s, pre, post, st, hat, hops, hpre, rfl⟩ := hp
  obtain ⟨s1, ft1, f1, code1, consts1, hb, -, -, hids, hty, -, hplaced, -, hcode, -⟩ :=
    h.translated.entry k _ hat.code
  obtain ⟨-, rfl, rfl⟩ := hat.unique ⟨hat.code, hty, hb⟩
  have himp : i < (Module.entryEnv s1 ft1 c).nImports := by
    show i < s1.hostFnIds.length
    rw [hids]
    exact hi
  have hfail : ∃ e, Lower.operators (Module.entryEnv s1 ft1 c) c.body.function
      (Module.entryStart s1 ft1) = .error e st := by
    refine ⟨"tail call to host import not supported", ?_⟩
    rw [hops, operators_append, bind_ok hpre]
    have hop : Lower.operator (Module.entryEnv s1 ft1 c) (.returnCall i) st =
        .error "tail call to host import not supported" st := by
      unfold Lower.operator
      simp only [bind_apply, ite_run, throw_apply]
      rw [if_pos himp]
    show (Lower.operator (Module.entryEnv s1 ft1 c) (.returnCall i) >>= fun _ =>
      Lower.operators (Module.entryEnv s1 ft1 c) post) st = _
    rw [bind_error hop]
  obtain ⟨e, hfail⟩ := hfail
  rw [h.typeFp.2.2.2.1]
  cases hplaced with
  | lowered hlow =>
    obtain ⟨t, ht, -⟩ := lowerOperators_ok hlow
    have hcontra : EStateM.Result.error e st = EStateM.Result.ok () t := hfail.symm.trans ht
    cases hcontra
  | stub hlow hfm hc =>
    have hfinal := (lowerOperators_final hlow).1
    have hst : (final (Lower.operators (Module.entryEnv s1 ft1 c) c.body.function
      (Module.entryStart s1 ft1))).code = st.code := by rw [hfail]; rfl
    have hcode1 := hfinal.trans hst
    obtain ⟨l, hl⟩ := hcode
    rw [← hl, hc, hcode1, List.append_assoc, List.getElem?_append_right le_rfl, Nat.sub_self]
    rfl

/-- In a valid module, an import becomes a host call just when it is called directly. Where the
machine goes on instead, it stands in front of the first instruction of the module. -/
theorem import_hostCall_iff {M : Module} {ps : List (Parsed Payload)} {m0 m : HostModule}
    (hv : M.Valid) (he : Encodes M ps) (hm : loadWasm ps = .ok m0) (hver : verifyCuop m0 = .ok m)
    {i : Nat} {ft : FuncType} (hi : i < M.imports.length) (hft : M.funcType i = some ft) {way : Way}
    {args : List Slot} {r : EStateM.Result Status Mach Unit} (h : Invoked m M i ft way args r) :
    (AsHostCall m i args r ↔ way = .call) ∧ ∀ t, r = .ok () t → t.pc = 0 ∧ 0 < m.code.length := by
  have hvf : Verified M m0 m := ⟨loadWasm_translated he hm, hv, hver⟩
  have hlen : 0 < m.code.length := List.length_pos_iff.mpr hvf.accepted.nonempty
  have hplace (f : FuncMeta) (hf : m.funcs[i]? = some f) : f.codeOff = 0 := by
    obtain ⟨f0, hf0, hs, -⟩ := hvf.func hf
    obtain ⟨t, ft', -, -, rfl⟩ := hvf.translated.imported i f0 hi hf0
    rw [hs]
    rfl
  cases h with
  | call hs hk hp =>
    obtain ⟨np, nr, fnId, harity, hfn, hi0⟩ := call_instr he hm hi hk hp
    have hmem : ft ∈ M.funcTypes := by
      obtain ⟨t, -, ht⟩ := Option.bind_eq_some_iff.mp hft
      exact List.mem_of_getElem? ht
    obtain ⟨h1, h2⟩ := hvf.translated.short ft hmem
    have hnp : np = ft.1.length ∧ nr = ft.2.length := by
      obtain ⟨t, ht, ht'⟩ := Option.bind_eq_some_iff.mp hft
      unfold funcArity at harity
      simp only [ht, ht'] at harity
      cases harity
      exact ⟨Nat.mod_eq_of_lt (by omega), Nat.mod_eq_of_lt (by omega)⟩
    obtain ⟨rfl, rfl⟩ := hnp
    rw [← hvf.typeFp.2.2.2.1] at hi0
    have hfn' : m.hostFnId[i]? = some fnId := hvf.hostFnId ▸ hfn
    obtain ⟨g, gs, hinv⟩ := hvf.reaches hs
    have hcall := callHost_asHostCall h1 h2 hfn' hi0 (hinv.host_args hvf.accepted hi0 h1 h2)
    refine ⟨⟨fun _ => rfl, fun _ => hcall⟩, fun t ht => ?_⟩
    rcases hcall with ⟨u, hu, -⟩ | ⟨u, hu⟩ <;> rw [hu] at ht <;> cases ht
  | returnCall hs hp =>
    have hstop := Run.step_unreachable m.cpuViews m.dev (returnCall_stub hvf hi hp) rfl
    rw [hstop]
    refine ⟨⟨?_, fun h => by cases h⟩, fun t h => by cases h⟩
    rintro (⟨t, heq, -⟩ | ⟨t, heq⟩) <;> cases heq
  | callIndirect hs hp =>
    have hf := List.getElem?_eq_getElem (show i < m.funcs.length by
      rw [hvf.typeFp.2.2.2.2, hvf.translated.length]
      omega)
    obtain ⟨hno, hpc⟩ := callIndirect_import hp hf _
    refine ⟨⟨fun h => absurd h hno, fun h => by cases h⟩, fun t ht => ⟨?_, hlen⟩⟩
    rw [hpc t ht]
    exact hplace _ hf
  | entry hf hargs =>
    refine ⟨⟨?_, fun h => by cases h⟩, fun t ht => ?_⟩
    · rintro (⟨t, heq, -⟩ | ⟨t, heq⟩) <;> cases heq
    · cases ht
      exact ⟨hplace _ hf, hlen⟩

/-- A module with an import that stands in the table and is exported, a function that returns 7, and
a function that calls through the table. -/
def slotModule : Module where
  types := [[.func ([], [.i64])]]
  imports := [⟨"x", "3", .func 0⟩]
  funcs := [0, 0]
  tables := [{ initial := 1 }]
  exports := [⟨"sequence", true, 0⟩]
  elems := [⟨.active none [.ok (.const (.i32 0)), .ok .end_], .functions [.ok 0]⟩]
  code := [{ locals := [], body := .op (.const (.i64 7)) .nil },
    { locals := [], body := .op (.const (.i32 0)) (.op (.callIndirect 0 0) .nil) }]

/-- The code of the module. -/
def slotCode : List CuOp :=
  [⟨.i64Const, 0, 0⟩, ⟨.endFunc, 1, 0⟩, ⟨.i64Const, 0, 1⟩, ⟨.callIndirect, 0, 0⟩, ⟨.endFunc, 1, 0⟩]

/-- The function that calls through the table. -/
def slotMeta : FuncMeta := ⟨2, 3, 0, 1, 0, 1⟩

/-- A host that knows no function. -/
def refuseHost : HostFn Unit := fun h _ _ mem => ⟨.error "not available", mem, h⟩

theorem slotModule_valid : slotModule.Valid := by
  refine ⟨by decide, rfl, fun k ft c hty hc => ?_⟩
  match k with
  | 0 =>
    cases hc
    cases hty
    exact .op (.const (.i64 7)) .nil
  | 1 =>
    cases hc
    cases hty
    set C := slotModule.ctx ([], [.i64])
      { locals := [], body := .op (.const (.i32 0)) (.op (.callIndirect 0 0) .nil) }
    have htype : C.types[0]? = some ([], [.i64]) := rfl
    have hcall : OpTyped C (.callIndirect 0 0) [.i32] [.i64] := .callIndirect htype (by decide)
    have hrest : Typed C [[.i64]] true ([.i32] ++ []) (.op (.callIndirect 0 0) .nil) ([.i64] ++ []) :=
      .op hcall .nil
    exact .op (.const (.i32 0)) hrest
  | k + 2 => cases hc

/-- The module is loaded as expected, the state in which its last function comes to its call, and
what that function returns. -/
def slotRuns : Option (Bool × Option (Nat × Nat) × Option (Status × List Nat)) :=
  (loadWasm slotModule.payloads).toOption.bind fun m0 =>
    (verifyCuop m0).toOption.map fun m =>
      (m.code == slotCode && m.table == [0] && m.funcs[2]? == some slotMeta && m.nHostImports == 1 &&
          m.funcTypeidx[0]? == some 0 && m.typeFp[0]?.isSome,
        (match Run.step m.cpuViews m.dev ((cpuEntry m slotMeta [] CPU_FUEL ()).mach m) with
          | .ok _ s => some (s.pc, (u32 (s.stack (m.cpuViews.stack.idx (dec32 s.sp)))).toNat)
          | .error _ _ => none),
        (runCpu m 2 [] 10 refuseHost () 9).map seen)

/-- A call of an import through the table executes the first function of the module. -/
theorem table_skips_host : slotModule.Valid ∧ ∃ m0 m r, loadWasm slotModule.payloads = .ok m0 ∧
    verifyCuop m0 = .ok m ∧ Invoked m slotModule 0 ([], [.i64]) .callIndirect [] r ∧
    ¬ AsHostCall m 0 [] r ∧ (runCpu m 2 [] 10 refuseHost () 9).map seen = some (.ok, [7]) := by
  have hload : slotRuns = some (true, some (3, 0), some (.ok, [7])) := by decide +kernel
  obtain ⟨m0, m, hm, hv, heval⟩ := loaded_eval hload
  simp only [Prod.mk.injEq, Bool.and_eq_true, beq_iff_eq] at heval
  obtain ⟨⟨⟨⟨⟨⟨hcode, htable⟩, hfunc⟩, himp⟩, hidx⟩, hfp⟩, hstep, hrun⟩ := heval
  obtain ⟨want, hwant⟩ := Option.isSome_iff_exists.mp hfp
  cases hs : Run.step m.cpuViews m.dev ((cpuEntry m slotMeta [] CPU_FUEL ()).mach m) with
  | error e s =>
    rw [hs] at hstep
    cases hstep
  | ok a s =>
    rw [hs] at hstep
    simp only [Option.some.injEq, Prod.mk.injEq] at hstep
    obtain ⟨hpc, htop⟩ := hstep
    have hoff : OffImports m.cpuViews m ((cpuEntry m slotMeta [] CPU_FUEL ()).mach m) := by
      rintro fi ⟨i, want, tidx, hi, hop, -⟩
      rw [hcode] at hi
      cases hi
      cases hop
    have hreach : Reaches m s :=
      ⟨2, slotMeta, [], CPU_FUEL, by omega, hfunc, Relation.ReflTransGen.single ⟨hoff, .step hs⟩⟩
    have hsel : Selects m.cpuViews m s 0 := by
      refine ⟨⟨.callIndirect, 0, 0⟩, want, 0, ?_, rfl, ?_, hwant, hidx, hwant⟩
      · rw [hpc, hcode]
        rfl
      · rw [htop, htable]
        rfl
    have hlen : 0 < m.funcs.length := by
      have := (List.getElem?_eq_some_iff.mp hfunc).1
      omega
    have hno := (callIndirect_import hsel (List.getElem?_eq_getElem hlen) []).1
    exact ⟨slotModule_valid, m0, m, _, hm, hv, .callIndirect hreach hsel, hno, hrun⟩

theorem askModule_valid : (askModule (.op (.call 0) .nil)).Valid := by
  refine ⟨by decide, rfl, fun k ft c hty hc => ?_⟩
  match k with
  | 0 =>
    cases hc
    cases hty
    have htype : ((askModule (.op (.call 0) .nil)).ctx ([], [.i64])
        { locals := [], body := .op (.call 0) .nil }).types[0]? = some ([], [.i64]) := rfl
    exact .op (.call rfl htype) .nil
  | k + 1 => cases hc

/-- The first instruction of the loaded code. -/
def askFirst : Option (Bool × Option FuncMeta) :=
  (loadWasm (askModule (.op (.call 0) .nil)).payloads).toOption.bind fun m0 =>
    (verifyCuop m0).toOption.map fun m =>
      (m.code.map (·.op) == [.callHost, .endFunc] && m.nHostImports == 1, m.funcs[1]?)

/-- A direct call of the import suspends. -/
theorem direct_call_suspends : ∃ m0 m r, loadWasm (askModule (.op (.call 0) .nil)).payloads = .ok m0 ∧
    verifyCuop m0 = .ok m ∧
    Invoked m (askModule (.op (.call 0) .nil)) 0 ([], [.i64]) .call [] r ∧ AsHostCall m 0 [] r := by
  have hload : askFirst = some (true, some askMeta) := by decide +kernel
  obtain ⟨m0, m, hm, hv, heval⟩ := loaded_eval hload
  simp only [Prod.mk.injEq, Bool.and_eq_true, beq_iff_eq] at heval
  obtain ⟨⟨hcode, himp⟩, hfunc⟩ := heval
  have ht := loadWasm_translated (M := askModule (.op (.call 0) .nil)) rfl hm
  obtain ⟨s, ft, f, code', consts', hb, -, -, -, hty, -, hplaced, -, hpre, -⟩ := ht.entry 0 _ rfl
  have hvf : Verified (askModule (.op (.call 0) .nil)) m0 m := ⟨ht, askModule_valid, hv⟩
  rw [hvf.typeFp.2.2.2.1] at hcode
  have hlow : (askModule (.op (.call 0) .nil)).Lowers 0 := by
    cases hplaced with
    | lowered hlow => exact ⟨_, ft, s, f, code', consts', ⟨rfl, hty, hb⟩, hlow⟩
    | stub _ _ hc =>
      -- the code has no trap instruction
      have hmem : Opcode.unreachable ∈ m0.code.map (·.op) := by
        refine List.mem_map.mpr ⟨{ op := .unreachable }, hpre.subset ?_, rfl⟩
        rw [hc]
        exact List.mem_append_right _ (.head _)
      rw [hcode] at hmem
      exact absurd hmem (by decide)
  have hstart : s.code = [] := by
    unfold Module.before at hb
    rw [List.take_zero, List.map_nil, List.append_nil] at hb
    exact (header_ok hb).code
  have hcomes : (askModule (.op (.call 0) .nil)).ComesTo 0 (.call 0) 0 :=
    ⟨_, ft, s, [], [.end_], Module.entryStart s ft, ⟨rfl, hty, hb⟩, rfl, rfl,
      congrArg List.length hstart.symm⟩
  have hinv : Invoked m (askModule (.op (.call 0) .nil)) 0 ([], [.i64]) .call []
      (Run.step m.cpuViews m.dev ((cpuEntry m askMeta [] CPU_FUEL ()).mach m)) :=
    .call ⟨1, askMeta, [], CPU_FUEL, himp.le, hfunc, .refl⟩ hlow hcomes
  have hcall := import_hostCall_iff askModule_valid rfl hm hv (by decide) rfl hinv
  exact ⟨m0, m, _, hm, hv, hinv, hcall.1.mpr rfl⟩

end CuWasm
