import CuWasm.Lib.Exit
import CuWasm.Structured

/-!
# The one-pass lowering is the structured one

`Refines x y` says that the computation `x` of the lowering appends the items of `y` to the code, with
placeholders for branches to blocks that are still open, and records exactly those branches in the
`patches` of the open blocks. It is established operator by operator and then for whole bodies, where
an `end` turns the recorded branches into resolved ones.
-/

namespace CuWasm

open Wasm Exit Structured

namespace Structured

/-! ## Positions of open branches -/

/-- The positions of the branches to the block `k` levels out, for items that start at `off`. -/
def jumps (k : Nat) : Nat → Items → List Nat
  | _, [] => []
  | off, p :: is => (if p.1 = .jump k then [off] else []) ++ jumps k (off + 1) is

/-- The code of items whose open branches have no target yet. -/
def draft (is : Items) : List CuOp := is.map fun p => p.1.placeholder

@[simp] theorem draft_nil : draft [] = [] := rfl

@[simp] theorem draft_cons (p : Item × Int) (is : Items) :
    draft (p :: is) = p.1.placeholder :: draft is := rfl

@[simp] theorem draft_append (is js : Items) : draft (is ++ js) = draft is ++ draft js :=
  List.map_append

@[simp] theorem draft_length (is : Items) : (draft is).length = is.length := List.length_map ..

theorem jumps_append (k off : Nat) (is js : Items) :
    jumps k off (is ++ js) = jumps k off is ++ jumps k (off + is.length) js := by
  induction is generalizing off with
  | nil => rfl
  | cons p is ih =>
    rw [List.cons_append, jumps, ih, jumps, List.append_assoc, List.length_cons,
      Nat.add_right_comm, Nat.add_assoc]

theorem close_cons (t : Nat) (p : Item × Int) (is : Items) :
    close t (p :: is) = (p.1.resolve t, p.2) :: close t is := rfl

@[simp] theorem close_length (t : Nat) (is : Items) : (close t is).length = is.length :=
  List.length_map ..

theorem Item.resolve_eq_jump {t k : Nat} {i : Item} : i.resolve t = .jump k ↔ i = .jump (k + 1) := by
  cases i with
  | code i => simp [Item.resolve]
  | jump j => cases j <;> simp [Item.resolve]

/-- Resolving a block brings the open branches of the outer blocks one level closer. -/
theorem jumps_close (k off t : Nat) (is : Items) : jumps k off (close t is) = jumps (k + 1) off is := by
  induction is generalizing off with
  | nil => rfl
  | cons p is ih =>
    rw [close_cons, jumps, jumps, ih]
    simp only [Item.resolve_eq_jump]

theorem patchB_append (pre post : List CuOp) (i : CuOp) (b : Nat) :
    patchB (pre ++ i :: post) pre.length b = pre ++ { i with b := b } :: post := by
  unfold patchB
  induction pre with
  | nil => rfl
  | cons j pre ih => rw [List.cons_append, List.length_cons, List.modify_succ_cons, ih,
      List.cons_append]

/-- Patching the recorded branches of a block resolves its items. -/
theorem patch_jumps (pre post : List CuOp) (is : Items) (t : Nat) :
    (jumps 0 pre.length is).foldl (fun code p => patchB code p t) (pre ++ (draft is ++ post)) =
      pre ++ (draft (close t is) ++ post) := by
  induction is generalizing pre with
  | nil => rfl
  | cons p is ih =>
    obtain ⟨i, h⟩ := p
    have hrest := fun j : CuOp => ih (pre ++ [j])
    simp only [List.length_append, List.length_singleton, List.append_assoc,
      List.singleton_append] at hrest
    rw [jumps, List.foldl_append, draft_cons, close_cons, draft_cons, List.cons_append]
    by_cases hj : i = .jump 0
    · subst hj
      rw [if_pos rfl, List.foldl_cons, List.foldl_nil, patchB_append, hrest]
      rfl
    · rw [if_neg hj, List.foldl_nil, hrest]
      congr 2
      cases i with
      | code i => rfl
      | jump k =>
        cases k with
        | zero => exact absurd rfl hj
        | succ k => rfl

/-! ## States of the lowering -/

/-- What the structured pass keeps of an open block. -/
def label (c : Ctrl) : Label where
  start := if c.kind = .loop then some c.start else none
  base := c.base
  arity := labelArity c

/-- The open blocks once the branches of `is`, which start at `off`, have been recorded. -/
def record (off : Nat) (is : Items) (ctrl : List Ctrl) : List Ctrl :=
  ctrl.mapIdx fun k c => { c with patches := c.patches ++ jumps k off is }

/-- The structured view of a state of the lowering. -/
def view (s : LState) : State := ⟨s.code.length, s.consts, s.h, s.dead⟩

/-- The state of the lowering after the items `is` have been emitted. -/
def extend (s : LState) (is : Items) (st : State) : LState where
  code := s.code ++ draft is
  consts := st.consts
  h := st.h
  dead := st.dead
  ctrl := record s.code.length is s.ctrl

theorem record_nil (off : Nat) (ctrl : List Ctrl) : record off [] ctrl = ctrl := by
  refine List.ext_getElem? fun k => ?_
  unfold record
  rw [List.getElem?_mapIdx]
  cases ctrl[k]? <;> simp [jumps]

theorem record_record (off : Nat) (is js : Items) (ctrl : List Ctrl) :
    record (off + is.length) js (record off is ctrl) = record off (is ++ js) ctrl := by
  refine List.ext_getElem? fun k => ?_
  unfold record
  simp only [List.getElem?_mapIdx, Option.map_map]
  cases ctrl[k]? with
  | none => rfl
  | some c => simp [jumps_append, List.append_assoc]

theorem record_code (off : Nat) (i : CuOp) (h : Int) (ctrl : List Ctrl) :
    record off [(.code i, h)] ctrl = ctrl := by
  refine List.ext_getElem? fun k => ?_
  unfold record
  rw [List.getElem?_mapIdx]
  cases ctrl[k]? <;> simp [jumps]

theorem record_code_cons (off : Nat) (i : CuOp) (h : Int) (is : Items) (ctrl : List Ctrl) :
    record off ((.code i, h) :: is) ctrl = record (off + 1) is ctrl := by
  rw [← List.singleton_append, ← record_record, record_code]
  rfl

theorem map_label_record (off : Nat) (is : Items) (ctrl : List Ctrl) :
    (record off is ctrl).map label = ctrl.map label := by
  refine List.ext_getElem? fun k => ?_
  unfold record
  rw [List.getElem?_map, List.getElem?_mapIdx, List.getElem?_map]
  cases ctrl[k]? <;> rfl

theorem record_cons (off : Nat) (is : Items) (c : Ctrl) (ctrl : List Ctrl) (t : Nat) :
    record off is (c :: ctrl) =
      { c with patches := c.patches ++ jumps 0 off is } :: record off (close t is) ctrl := by
  unfold record
  rw [List.mapIdx_cons]
  simp only [jumps_close]

theorem view_extend {s : LState} {is : Items} {st : State} (h : st.pc = s.code.length + is.length) :
    view (extend s is st) = st := by
  unfold view extend
  simp only [List.length_append, draft_length, ← h]

theorem extend_extend {s : LState} {is js : Items} {st st' : State} :
    extend (extend s is st) js st' = extend s (is ++ js) st' := by
  unfold extend
  simp only [List.length_append, draft_length, record_record, draft_append, List.append_assoc]

theorem extend_nil (s : LState) : extend s [] (view s) = s := by
  unfold extend view
  simp only [draft_nil, List.append_nil, record_nil]

/-- The result `r` of a computation from the state `s` is what the outcome of a structured pass
says. -/
def Matches (s : LState) (r : EStateM.Result String LState Unit) : Option (Items × State) → Prop
  | none => ∃ e s', r = .error e s'
  | some (is, st) => st.pc = s.code.length + is.length ∧ r = .ok () (extend s is st)

/-- From the state `s`, the computation `x` does what the outcome `y` of a structured pass says. -/
def Refines (x : Lower Unit) (s : LState) (y : Option (Items × State)) : Prop := Matches s (x s) y

theorem Refines.seq {x x' : Lower Unit} {s : LState} {y : Option (Items × State)}
    {y' : State → Option (Items × State)} (h : Refines x s y)
    (h' : ∀ s', s'.ctrl.map label = s.ctrl.map label → Refines x' s' (y' (view s'))) :
    Refines (x >>= fun _ => x') s (andThen y y') := by
  cases y with
  | none =>
    obtain ⟨e, s', he⟩ := h
    exact ⟨e, s', bind_error he⟩
  | some p =>
    obtain ⟨is, st⟩ := p
    obtain ⟨hpc, hx⟩ := h
    have h2 := h' (extend s is st) (map_label_record _ _ _)
    rw [view_extend hpc] at h2
    unfold andThen
    rw [Option.bind_some]
    cases hy' : y' st with
    | none =>
      rw [hy'] at h2
      obtain ⟨e, s', he⟩ := h2
      exact ⟨e, s', (bind_ok hx).trans he⟩
    | some q =>
      obtain ⟨js, st'⟩ := q
      rw [hy'] at h2
      obtain ⟨hpc', hx'⟩ := h2
      refine ⟨?_, ?_⟩
      · simp only [extend, List.length_append, draft_length] at hpc'
        simp only [List.length_append]
        omega
      · rw [bind_ok hx, hx', extend_extend]

/-! ## Operators -/

section Operators

variable (env : LowerEnv) (ghost : Bool) (s : LState)

theorem ofExcept_apply {α : Type} (x : Except String α) :
    Lower.ofExcept x s = match x with
      | .ok a => .ok a s
      | .error e => .error e s := by
  cases x <;> rfl

theorem emit_apply (op : Opcode) (a b : Nat) :
    Lower.emit op a b s = .ok s.code.length { s with code := s.code ++ [⟨op, a, b⟩] } := rfl

theorem consume_apply (pops pushes : Nat) :
    Lower.consume pops pushes s =
      if s.dead then .ok () s
      else if s.h < pops then .error "operand stack underflow" s
      else .ok () { s with h := s.h - pops + pushes } := by
  simp only [Lower.consume, bind_apply, get_apply, ite_run, throw_apply, pure_apply, set_apply]

theorem patch_apply (pc b : Nat) :
    Lower.patch pc b s = .ok () { s with code := patchB s.code pc b } := rfl

theorem intern_apply (x : Slot) :
    Lower.intern x s = .ok (intern x s.consts).1 { s with consts := (intern x s.consts).2 } := by
  simp only [Lower.intern, bind_apply, get_apply, intern]
  cases s.consts.findIdx? (· == x) <;> rfl

/-- A computation that emits nothing. -/
theorem extend_silent (st : State) :
    extend s [] st = { s with consts := st.consts, h := st.h, dead := st.dead } := by
  unfold extend
  simp only [draft_nil, List.append_nil, record_nil]

theorem extend_code (i : CuOp) (h : Int) (st : State) :
    extend s [(.code i, h)] st =
      { code := s.code ++ [i], consts := st.consts, h := st.h, dead := st.dead, ctrl := s.ctrl } := by
  unfold extend
  simp only [draft_cons, draft_nil, record_code, Item.placeholder]

theorem refines_consume (pops pushes : Nat) :
    Refines (Lower.consume pops pushes) s
      ((consume pops pushes (view s)).map fun st => ([], st)) := by
  unfold Refines
  rw [consume_apply]
  unfold consume view
  simp only
  split_ifs
  · exact ⟨rfl, by rw [extend_silent]⟩
  · exact ⟨_, _, rfl⟩
  · exact ⟨rfl, by rw [extend_silent]⟩

theorem refines_plain (op : Opcode) (a b pops pushes : Nat) :
    Refines (Lower.plain op a b pops pushes) s (plain ghost op a b pops pushes (view s)) := by
  unfold Refines
  simp only [Lower.plain, bind_apply, emit_apply, consume_apply]
  unfold plain emit consume view
  simp only
  split_ifs
  · exact ⟨rfl, by rw [extend_code]⟩
  · exact ⟨_, _, rfl⟩
  · exact ⟨rfl, by rw [extend_code]⟩

theorem record_jump (off k : Nat) (h : Int) (ctrl : List Ctrl) :
    record off [(.jump k, h)] ctrl =
      ctrl.modify k fun c => { c with patches := c.patches ++ [off] } := by
  refine List.ext_getElem? fun j => ?_
  unfold record
  rw [List.getElem?_mapIdx, List.getElem?_modify]
  cases ctrl[j]? with
  | none => rfl
  | some c =>
    by_cases hj : k = j
    · simp [jumps, hj]
    · simp [jumps, hj]

/-- The jump at the end of a branch. -/
def jumpItem (l : Label) (k : Nat) : Item :=
  match l.start with
  | some pc => .code ⟨.br, 0, pc⟩
  | none => .jump k

theorem emitJump_apply (k : Nat) (c : Ctrl) (h : Int) :
    Lower.emitJump k c s =
      .ok () (extend s [(jumpItem (label c) k, h)] { view s with pc := s.code.length + 1 }) := by
  unfold Lower.emitJump jumpItem label
  by_cases hk : c.kind = .loop
  · simp only [if_pos hk, bind_apply, emit_apply, pure_apply, extend_code, view]
  · simp only [if_neg hk, bind_apply, emit_apply, modify_apply, extend, view, draft_cons, draft_nil,
      record_jump, Item.placeholder]

theorem emitUnwind_apply (c : Ctrl) :
    Lower.emitUnwind env c s =
      if s.h < c.base + labelArity c then .error "branch stack underflow" s
      else if s.h > c.base + labelArity c then
        .ok () { s with code := s.code ++
          [⟨.unwind, labelArity c, env.nParams + env.nLocals + (c.base + labelArity c)⟩] }
      else .ok () s := by
  simp only [Lower.emitUnwind, bind_apply, get_apply, ite_run, throw_apply, emit_apply, pure_apply]

theorem refines_branch (k : Nat) :
    Refines (Lower.branch env k) s (branch env (s.ctrl.map label) ghost k (view s)) := by
  obtain ⟨code, consts, h, dead, ctrl⟩ := s
  have hL : (ctrl.map label)[k]? = ctrl[k]?.map label := List.getElem?_map ..
  unfold Refines
  simp only [Lower.branch, Lower.resolveBr, bind_apply, get_apply]
  unfold branch
  rw [hL]
  cases hc : ctrl[k]? with
  | none => exact ⟨_, _, rfl⟩
  | some c =>
    simp only [Option.map_some, pure_apply, ite_run, view]
    cases dead with
    | true =>
      simp only [not_true_eq_false, false_and, if_false, List.nil_append, List.length_nil,
        Nat.add_zero]
      exact ⟨rfl, emitJump_apply _ k c _⟩
    | false =>
      simp only [Bool.false_eq_true, not_false_eq_true, true_and, if_true, bind_apply,
        emitUnwind_apply]
      by_cases h1 : h < c.base + labelArity c
      · have h1' : h < (label c).base + (label c).arity := h1
        simp only [if_pos h1, if_pos h1']
        exact ⟨_, _, rfl⟩
      · have h1' : ¬ h < (label c).base + (label c).arity := h1
        simp only [if_neg h1, if_neg h1']
        by_cases h2 : h > c.base + labelArity c
        · have h2' : h > (label c).base + (label c).arity := h2
          simp only [if_pos h2, if_pos h2', List.length_singleton]
          refine ⟨rfl, ?_⟩
          rw [emitJump_apply _ k c (State.mark ⟨code.length, consts, h, false⟩ ghost
            (c.base + labelArity c)), ← @extend_extend _ _ _ ⟨code.length + 1, consts, h, false⟩,
            extend_code]
          simp only [view, List.length_append, List.length_singleton]
          rfl
        · have h2' : ¬ h > (label c).base + (label c).arity := h2
          simp only [if_neg h2, if_neg h2', List.nil_append, List.length_nil, Nat.add_zero]
          exact ⟨rfl, emitJump_apply _ k c _⟩

/-- The common end of `br_if` and of a `br_table` comparison. -/
def lowerBranchIf (k : Nat) : Lower Unit := do
  Lower.consume 1 0
  let skip ← Lower.emit .brIfNot 0 0
  Lower.branch env k
  Lower.patch skip (← get).code.length

theorem refines_branchIf (k : Nat) :
    Refines (lowerBranchIf env k) s (branchIf env (s.ctrl.map label) ghost k (view s)) := by
  have hc := refines_consume s 1 0
  unfold Refines lowerBranchIf branchIf
  cases h1 : consume 1 0 (view s) with
  | none =>
    rw [h1] at hc
    obtain ⟨e, s', he⟩ := hc
    exact ⟨e, s', bind_error he⟩
  | some st1 =>
    rw [h1] at hc
    obtain ⟨hpc1, hx1⟩ := hc
    rw [extend_silent] at hx1
    have hb := refines_branch env ghost
      ⟨s.code ++ [⟨.brIfNot, 0, 0⟩], st1.consts, st1.h, st1.dead, s.ctrl⟩ k
    have hview : view ⟨s.code ++ [⟨.brIfNot, 0, 0⟩], st1.consts, st1.h, st1.dead, s.ctrl⟩ =
        ⟨(view s).pc + 1, st1.consts, st1.h, st1.dead⟩ := by
      simp [view]
    rw [hview] at hb
    simp only [Option.bind_some, bind_apply, hx1, emit_apply]
    cases h2 : branch env (s.ctrl.map label) ghost k
        ⟨(view s).pc + 1, st1.consts, st1.h, st1.dead⟩ with
    | none =>
      rw [h2] at hb
      obtain ⟨e, s', he⟩ := hb
      rw [he]
      exact ⟨e, s', rfl⟩
    | some p =>
      obtain ⟨is, st2⟩ := p
      rw [h2] at hb
      obtain ⟨hpc2, hx2⟩ := hb
      rw [hx2]
      simp only [List.length_append, List.length_singleton] at hpc2
      refine ⟨by simp only [List.length_cons]; omega, ?_⟩
      have hlen : (extend ⟨s.code ++ [⟨.brIfNot, 0, 0⟩], st1.consts, st1.h, st1.dead, s.ctrl⟩ is
          st2).code.length = st2.pc := by
        simp only [extend, List.length_append, List.length_singleton, draft_length]
        omega
      simp only [get_apply, patch_apply, hlen]
      simp only [extend, draft_cons, Item.placeholder, record_code_cons, List.append_assoc,
        List.singleton_append, List.length_append, List.length_singleton, patchB_append]

/-- A result is compared with the code and the open blocks only. -/
theorem Matches.of_consts {r : EStateM.Result String LState Unit} {y : Option (Items × State)}
    {consts : List Slot} (h : Matches { s with consts := consts } r y) : Matches s r y := by
  cases y with
  | none => exact h
  | some p => exact h

theorem refines_intern (x : Slot) {f : Nat → Lower Unit} {y : Option (Items × State)}
    (h : Refines (f (intern x s.consts).1) { s with consts := (intern x s.consts).2 } y) :
    Refines (Lower.intern x >>= f) s y := by
  unfold Refines at h ⊢
  rw [bind_ok (intern_apply s x)]
  exact h.of_consts

theorem refines_tableArm (scratch i k : Nat) :
    Refines (do
        let c ← Lower.intern (BitVec.ofNat 64 (i % 2 ^ 32))
        Lower.plain .localGet scratch 0 0 1
        Lower.plain .i64Const 0 c 0 1
        Lower.plain (.bin .i32Eq) 0 0 2 1
        lowerBranchIf env k) s
      (tableArm env (s.ctrl.map label) ghost scratch i k (view s)) := by
  unfold tableArm
  refine refines_intern s _ (Refines.seq (refines_plain ghost _ _ _ _ _ _) fun s1 h1 => ?_)
  refine Refines.seq (refines_plain ghost _ _ _ _ _ _) fun s2 h2 => ?_
  refine Refines.seq (refines_plain ghost _ _ _ _ _ _) fun s3 h3 => ?_
  have h := refines_branchIf env ghost s3 k
  rwa [h3, h2, h1] at h

theorem refines_tableArms (scratch i : Nat) (ks : List Nat) :
    Refines (Lower.brTableArms env scratch i ks) s
      (tableArms env (s.ctrl.map label) ghost scratch i ks (view s)) := by
  induction ks generalizing i s with
  | nil => exact ⟨rfl, by rw [extend_nil]; rfl⟩
  | cons k ks ih =>
    have heq : Lower.brTableArms env scratch i (k :: ks) = ((do
        let c ← Lower.intern (BitVec.ofNat 64 (i % 2 ^ 32))
        Lower.plain .localGet scratch 0 0 1
        Lower.plain .i64Const 0 c 0 1
        Lower.plain (.bin .i32Eq) 0 0 2 1
        lowerBranchIf env k) >>= fun _ => Lower.brTableArms env scratch (i + 1) ks) := by
      simp only [Lower.brTableArms, lowerBranchIf, bind_assoc]
    rw [heq]
    refine Refines.seq (refines_tableArm env ghost s scratch i k) fun s1 h1 => ?_
    rw [← h1]
    exact ih _ _

theorem refines_kill {x : Lower Unit} {y : Option (Items × State)} (h : Refines x s y) :
    Refines (x >>= fun _ => Lower.markDead) s (y.map kill) := by
  unfold Refines at h ⊢
  cases y with
  | none =>
    obtain ⟨e, s', he⟩ := h
    exact ⟨e, s', bind_error he⟩
  | some p =>
    obtain ⟨hpc, hx⟩ := h
    refine ⟨hpc, ?_⟩
    rw [bind_ok hx]
    rfl

theorem refines_table (ks : List Nat) (k : Nat) :
    Refines (Lower.brTableArm env ks k) s
      (table env (s.ctrl.map label) ghost ks k (view s)) := by
  unfold Lower.brTableArm table
  cases env.scratch with
  | none => exact ⟨_, _, rfl⟩
  | some scratch =>
    refine Refines.seq (refines_plain ghost _ _ _ _ _ _) fun s1 h1 => ?_
    rw [← h1]
    refine Refines.seq (refines_tableArms env ghost _ scratch 0 ks) fun s2 h2 => ?_
    rw [← h2]
    exact refines_kill _ (refines_branch env ghost _ k)

theorem refines_emit (op : Opcode) (a b : Nat) :
    Refines (do let _ ← Lower.emit op a b) s (some (emit ghost ⟨op, a, b⟩ (view s))) := by
  refine ⟨rfl, ?_⟩
  rw [extend_code]
  rfl

theorem refines_throw (e : String) : Refines (throw e) s none := ⟨e, s, rfl⟩

theorem refines_memArm (mem : Nat) (op : Opcode) (a pops pushes : Nat) :
    Refines (Lower.memArm mem op a pops pushes) s
      (if mem ≠ 0 then none else plain ghost op a 0 pops pushes (view s)) := by
  unfold Lower.memArm
  by_cases h : mem ≠ 0
  · simp only [if_pos h]
    exact ⟨_, _, rfl⟩
  · simp only [if_neg h]
    exact refines_plain ghost s _ _ _ _ _

theorem refines_callArm (fi : Nat) :
    Refines (Lower.callArm env fi) s
      (operator env (s.ctrl.map label) ghost (.call fi) (view s)) := by
  simp only [Lower.callArm, operator]
  cases funcArity fi env.funcTypes env.funcTypeidx with
  | error e => exact ⟨_, _, rfl⟩
  | ok a =>
    obtain ⟨np, nr⟩ := a
    show Refines (if fi < env.nImports then _ else _) s _
    simp only
    split_ifs
    · cases env.hostFnIds[fi]? with
      | none => exact refines_throw s _
      | some fnId => exact refines_plain ghost s _ _ _ _ _
    · exact refines_plain ghost s _ _ _ _ _

theorem refines_callIndirectArm (ti tab : Nat) :
    Refines (Lower.callIndirectArm env ti tab) s
      (operator env (s.ctrl.map label) ghost (.callIndirect ti tab) (view s)) := by
  simp only [Lower.callIndirectArm, operator]
  by_cases h : tab ≠ 0
  · simp only [if_pos h]
    exact ⟨_, _, rfl⟩
  · simp only [if_neg h]
    cases env.funcTypes[ti]? with
    | none => exact refines_throw s _
    | some ft => exact refines_plain ghost s _ _ _ _ _

/-- Every operator without a block of its own. -/
theorem refines_operator (o : Operator) (ho : o.isStructured = false) :
    Refines (Lower.operator env o) s (operator env (s.ctrl.map label) ghost o (view s)) := by
  cases o with
  | nop => exact ⟨rfl, by rw [extend_nil]; rfl⟩
  | unreachable => exact refines_kill s (refines_emit ghost s .unreachable 0 0)
  | const c => exact refines_intern s _ (refines_plain ghost _ _ _ _ _ _)
  | drop => exact refines_plain ghost s _ _ _ _ _
  | select => exact refines_plain ghost s _ _ _ _ _
  | typedSelect t => exact refines_plain ghost s _ _ _ _ _
  | num o => exact refines_plain ghost s _ _ _ _ _
  | globalGet i => exact refines_plain ghost s _ _ _ _ _
  | globalSet i => exact refines_plain ghost s _ _ _ _ _
  | localGet i => exact refines_plain ghost s _ _ _ _ _
  | localSet i => exact refines_plain ghost s _ _ _ _ _
  | localTee i =>
    refine ⟨rfl, ?_⟩
    simp only [extend, draft_cons, draft_nil, record_code_cons, record_nil, Item.placeholder]
    show EStateM.Result.ok () _ = _
    rw [List.append_assoc]
    rfl
  | block ty => cases ho
  | loop ty => cases ho
  | if_ ty => cases ho
  | else_ => cases ho
  | end_ => cases ho
  | br k => exact refines_kill s (refines_branch env ghost s k)
  | brIf k => exact refines_branchIf env ghost s k
  | brTable ks k => exact refines_table env ghost s ks k
  | return_ => exact refines_kill s (refines_emit ghost s .ret env.nResults 0)
  | call fi => exact refines_callArm env ghost s fi
  | returnCall fi =>
    simp only [Lower.operator, operator]
    by_cases h : fi < env.nImports
    · simp only [if_pos h]
      exact ⟨_, _, rfl⟩
    · simp only [if_neg h]
      exact refines_kill s (refines_emit ghost s .returnCall 0 fi)
  | callIndirect ti tab => exact refines_callIndirectArm env ghost s ti tab
  | load o ma =>
    simp only [Lower.operator, operator]
    cases checkMemarg ma with
    | error e => exact ⟨_, _, rfl⟩
    | ok off => exact refines_plain ghost s _ _ _ _ _
  | store o ma =>
    simp only [Lower.operator, operator]
    cases checkMemarg ma with
    | error e => exact ⟨_, _, rfl⟩
    | ok off => exact refines_plain ghost s _ _ _ _ _
  | memorySize mem => exact refines_memArm ghost s _ _ _ _ _
  | memoryGrow mem => exact refines_memArm ghost s _ _ _ _ _
  | memoryCopy dst src =>
    simp only [Lower.operator, operator]
    by_cases h : dst ≠ 0 ∨ src ≠ 0
    · simp only [if_pos h]
      exact ⟨_, _, rfl⟩
    · simp only [if_neg h]
      exact refines_plain ghost s _ _ _ _ _
  | memoryFill mem => exact refines_memArm ghost s _ _ _ _ _
  | memoryInit di mem => exact refines_memArm ghost s _ _ _ _ _
  | dataDrop di => exact refines_emit ghost s .dataDrop (di % 2 ^ 16) 0
  | reinterpret x => exact refines_consume s 1 1
  | refFunc fi => exact refines_throw s _
  | refNull => exact refines_throw s _
  | other text => exact refines_throw s _

end Operators

/-! ## Blocks -/

section Blocks

variable (env : LowerEnv) (ghost : Bool) (s : LState)

theorem operators_append (xs ys : List Operator) :
    Lower.operators env (xs ++ ys) = (Lower.operators env xs >>= fun _ => Lower.operators env ys) := by
  induction xs with
  | nil => rw [List.nil_append, Lower.operators, pure_bind]
  | cons x xs ih => simp only [List.cons_append, Lower.operators, ih, bind_assoc]

/-- A structured instruction up to its `end`, and the rest of the sequence. -/
theorem operators_scope (o : Operator) (xs ys : List Operator) :
    Lower.operators env (o :: (xs ++ .end_ :: ys)) =
      ((Lower.operator env o >>= fun _ => Lower.operators env xs >>= fun _ => Lower.endArm env) >>=
        fun _ => Lower.operators env ys) := by
  simp only [Lower.operators, operators_append, bind_assoc, Lower.operator]

/-- The same for an `if` with `else`. -/
theorem operators_ifElse (bt : BlockType) (xs ys zs : List Operator) :
    Lower.operators env (.if_ bt :: (xs ++ .else_ :: (ys ++ .end_ :: zs))) =
      ((Lower.ifArm env bt >>= fun _ => Lower.operators env xs >>= fun _ => Lower.elseArm >>=
        fun _ => Lower.operators env ys >>= fun _ => Lower.endArm env) >>=
        fun _ => Lower.operators env zs) := by
  simp only [Lower.operators, operators_append, bind_assoc, Lower.operator]

theorem forM_patch_apply (ps : List Nat) (t : Nat) :
    (ps.forM fun p => Lower.patch p t) s =
      .ok () { s with code := ps.foldl (fun code p => patchB code p t) s.code } := by
  induction ps generalizing s with
  | nil => rfl
  | cons p ps ih =>
    have hstep : ((p :: ps).forM fun p => Lower.patch p t) s =
        (Lower.patch p t >>= fun _ => ps.forM fun p => Lower.patch p t) s := rfl
    rw [hstep, bind_ok (patch_apply s p t), ih]
    rfl

/-- The code once the branch over the block that ends here has been patched. -/
def endCode (c : Ctrl) (code : List CuOp) : List CuOp :=
  if c.kind = .if_ then
    if c.hasElse then
      match c.elseBr with
      | some br => patchB code br code.length
      | none => code
    else
      match c.brIfNot with
      | some pc => patchB code pc code.length
      | none => code
  else code

theorem endArm_apply {c : Ctrl} {ctrl : List Ctrl} (hc : s.ctrl = c :: ctrl) (hk : c.kind ≠ .func) :
    Lower.endArm env s = .ok ()
      { code := c.patches.foldl (fun code p => patchB code p s.code.length) (endCode c s.code)
        consts := s.consts, h := c.base + c.nResults, dead := c.deadOnEntry, ctrl := ctrl } := by
  have hend : ∀ t : LState, t.code.length = s.code.length →
      Lower.endPatches c s.code.length t = .ok () { t with
        code := c.patches.foldl (fun code p => patchB code p s.code.length) (endCode c t.code) } := by
    intro t ht
    unfold Lower.endPatches endCode
    by_cases h1 : c.kind = .if_
    · simp only [if_pos h1, ite_run]
      by_cases h2 : c.hasElse = true
      · simp only [if_pos h2]
        cases c.elseBr with
        | none => exact forM_patch_apply t _ _
        | some br =>
          simp only [bind_apply, patch_apply, ht]
          exact forM_patch_apply _ _ _
      · simp only [if_neg h2]
        cases c.brIfNot with
        | none => exact forM_patch_apply t _ _
        | some br =>
          simp only [bind_apply, patch_apply, ht]
          exact forM_patch_apply _ _ _
    · simp only [if_neg h1]
      exact forM_patch_apply t _ _
  simp only [Lower.endArm, bind_apply, get_apply, hc, modify_apply, if_neg hk, pure_apply]
  rw [hend { s with ctrl := ctrl } rfl]

theorem pushCtrl_apply (kind : CtrlKind) (np nr : Nat) (brIfNot : Option Nat) :
    Lower.pushCtrl kind np nr brIfNot s =
      match enter np (view s) with
      | none => .error "block params underflow" s
      | some base => .ok () { s with ctrl :=
          { kind := kind, start := s.code.length, brIfNot := brIfNot, base := base, nParams := np,
            nResults := nr, deadOnEntry := s.dead } :: s.ctrl } := by
  obtain ⟨code, consts, h, dead, ctrl⟩ := s
  simp only [Lower.pushCtrl, bind_apply, get_apply, ite_run, throw_apply, enter, view, set_apply]
  cases dead with
  | true => simp only [not_true_eq_false, false_and, if_false, if_true]
  | false =>
    by_cases hnp : h < np
    · simp [hnp]
    · simp [hnp]

theorem elseArm_apply {c : Ctrl} {ctrl : List Ctrl} {pc : Nat} (hc : s.ctrl = c :: ctrl)
    (hk : c.kind = .if_) (hpc : c.brIfNot = some pc) :
    Lower.elseArm s = .ok ()
      { code := patchB (s.code ++ [⟨.br, 0, 0⟩]) pc (s.code.length + 1)
        consts := s.consts, h := c.base + c.nParams, dead := false
        ctrl := { c with elseBr := some s.code.length, hasElse := true } :: ctrl } := by
  simp only [Lower.elseArm, bind_apply, get_apply, hc, hk, ne_eq, not_true_eq_false, if_false,
    emit_apply, modify_apply, hpc, patch_apply, List.length_append, List.length_singleton]

/-- A `block` or `loop` between its opening and its `end`. -/
theorem scope_matches {x : Lower Unit} {c : Ctrl} {y : Option (Items × State)}
    (hk : c.kind ≠ .func) (hif : c.kind ≠ .if_) (hp : c.patches = [])
    (hx : Refines x { s with ctrl := c :: s.ctrl } y) :
    Matches s ((x >>= fun _ => Lower.endArm env) { s with ctrl := c :: s.ctrl })
      (y.map fun p => (close p.2.pc p.1,
        { p.2 with h := c.base + c.nResults, dead := c.deadOnEntry })) := by
  cases y with
  | none =>
    obtain ⟨e, s', he⟩ := hx
    exact ⟨e, s', bind_error he⟩
  | some p =>
    obtain ⟨is, st⟩ := p
    obtain ⟨hpc, hx⟩ := hx
    refine ⟨by simpa using hpc, ?_⟩
    have hpc' : (s.code ++ draft is).length = st.pc := by simpa using hpc.symm
    have hctrl := record_cons s.code.length is c s.ctrl st.pc
    have hend := endArm_apply env (extend { s with ctrl := c :: s.ctrl } is st) hctrl hk
    rw [bind_ok hx, hend]
    simp only [extend, endCode, if_neg hif, hp, List.nil_append, hpc']
    have hpatch := patch_jumps s.code [] is st.pc
    simp only [List.append_nil] at hpatch
    rw [hpatch]

/-- The state in which an `if` with the frame `c` has been opened, after its items `is`. -/
theorem extend_if (c : Ctrl) (h : Nat) (is : Items) (st : State) :
    extend { s with code := s.code ++ [⟨.brIfNot, 0, 0⟩], h := h, ctrl := c :: s.ctrl } is st =
      { code := s.code ++ ⟨.brIfNot, 0, 0⟩ :: draft is, consts := st.consts, h := st.h
        dead := st.dead, ctrl := record (s.code.length + 1) is (c :: s.ctrl) } := by
  simp only [extend, List.length_append, List.length_singleton, List.append_assoc,
    List.singleton_append]

/-- An `if` without `else` between its opening and its `end`. -/
theorem ifThen_matches {x : Lower Unit} {c : Ctrl} {h : Nat} {m : Int} {y : Option (Items × State)}
    (hk : c.kind = .if_) (hp : c.patches = []) (hpc : c.brIfNot = some s.code.length)
    (hels : c.hasElse = false)
    (hx : Refines x { s with code := s.code ++ [⟨.brIfNot, 0, 0⟩], h := h, ctrl := c :: s.ctrl } y) :
    Matches s ((x >>= fun _ => Lower.endArm env)
        { s with code := s.code ++ [⟨.brIfNot, 0, 0⟩], h := h, ctrl := c :: s.ctrl })
      (y.map fun p => ((.code ⟨.brIfNot, 0, p.2.pc⟩, m) :: close p.2.pc p.1,
        { p.2 with h := c.base + c.nResults, dead := c.deadOnEntry })) := by
  cases y with
  | none =>
    obtain ⟨e, s', he⟩ := hx
    exact ⟨e, s', bind_error he⟩
  | some p =>
    obtain ⟨is, st⟩ := p
    obtain ⟨hpc', hx⟩ := hx
    rw [extend_if] at hx
    have hlen : (s.code ++ ⟨.brIfNot, 0, 0⟩ :: draft is).length = st.pc := by
      simp at hpc' ⊢
      omega
    refine ⟨by simp at hlen ⊢; omega, ?_⟩
    have hctrl := record_cons (s.code.length + 1) is c s.ctrl st.pc
    have hend := endArm_apply env
      { code := s.code ++ ⟨.brIfNot, 0, 0⟩ :: draft is, consts := st.consts, h := st.h
        dead := st.dead, ctrl := record (s.code.length + 1) is (c :: s.ctrl) } hctrl (by simp [hk])
    rw [bind_ok hx, hend]
    simp only [extend, endCode, if_pos hk, hels, Bool.false_eq_true, if_false, hpc, hp,
      List.nil_append, hlen, record_code_cons, patchB_append]
    have hpatch := patch_jumps (s.code ++ [⟨.brIfNot, 0, st.pc⟩]) [] is st.pc
    simp only [List.append_nil, List.length_append, List.length_singleton, List.append_assoc,
      List.singleton_append] at hpatch
    rw [hpatch]
    rfl

theorem record_close (off t t' : Nat) (is : Items) (ctrl : List Ctrl) :
    record off (close t is) ctrl = record off (close t' is) ctrl := by
  unfold record
  simp only [jumps_close]

/-- The state behind the `else` of an `if` with the frame `c` whose first arm has the items `is`. -/
def atElse (c : Ctrl) (is : Items) (st : State) : LState where
  code := s.code ++ ⟨.brIfNot, 0, st.pc + 1⟩ :: (draft is ++ [⟨.br, 0, 0⟩])
  consts := st.consts
  h := c.base + c.nParams
  dead := false
  ctrl := { c with elseBr := some st.pc, patches := jumps 0 (s.code.length + 1) is, hasElse := true }
    :: record (s.code.length + 1) (close 0 is) s.ctrl

theorem elseArm_atElse {c : Ctrl} {is : Items} {st : State} (hk : c.kind = .if_)
    (hp : c.patches = []) (hpc : c.brIfNot = some s.code.length)
    (hlen : s.code.length + 1 + is.length = st.pc) :
    Lower.elseArm { code := s.code ++ ⟨.brIfNot, 0, 0⟩ :: draft is, consts := st.consts, h := st.h
                    dead := st.dead, ctrl := record (s.code.length + 1) is (c :: s.ctrl) } =
      .ok () (atElse s c is st) := by
  have hlen' : (s.code ++ ⟨.brIfNot, 0, 0⟩ :: draft is).length = st.pc := by
    simp
    omega
  have helse := elseArm_apply
    { code := s.code ++ ⟨.brIfNot, 0, 0⟩ :: draft is, consts := st.consts, h := st.h
      dead := st.dead, ctrl := record (s.code.length + 1) is (c :: s.ctrl) }
    (record_cons _ is c s.ctrl 0) hk hpc
  rw [helse]
  simp only [hlen', hp, List.nil_append]
  rw [List.append_assoc, List.cons_append, patchB_append]
  rfl

theorem endArm_atElse {c : Ctrl} {is js : Items} {st st' : State} {m m' : Int} (hk : c.kind = .if_)
    (hlen : s.code.length + 1 + is.length = st.pc) (hlen' : st.pc + 1 + js.length = st'.pc) :
    Lower.endArm env (extend (atElse s c is st) js st') =
      .ok () (extend s ((.code ⟨.brIfNot, 0, st.pc + 1⟩, m) ::
          (close st'.pc is ++ (.code ⟨.br, 0, st'.pc⟩, m') :: close st'.pc js))
        { st' with h := c.base + c.nResults, dead := c.deadOnEntry }) := by
  have hcode : (atElse s c is st).code.length = st.pc + 1 := by
    simp [atElse]
    omega
  have hall : (extend (atElse s c is st) js st').code.length = st'.pc := by
    simp [extend, hcode]
    omega
  have hctrl := record_cons (st.pc + 1) js
    { c with elseBr := some st.pc, patches := jumps 0 (s.code.length + 1) is, hasElse := true }
    (record (s.code.length + 1) (close 0 is) s.ctrl) st'.pc
  have hctrl' : (extend (atElse s c is st) js st').ctrl = _ :=
    (congrArg (record · js (atElse s c is st).ctrl) hcode).trans hctrl
  rw [endArm_apply env _ hctrl' (by simp [hk]), hall]
  have hpre : (s.code ++ (⟨.brIfNot, 0, st.pc + 1⟩ : CuOp) :: draft is).length = st.pc := by
    simp
    omega
  have hbr := patchB_append (s.code ++ (⟨.brIfNot, 0, st.pc + 1⟩ : CuOp) :: draft is) (draft js)
    ⟨.br, 0, 0⟩ st'.pc
  have hp1 := patch_jumps (s.code ++ [⟨.brIfNot, 0, st.pc + 1⟩]) (⟨.br, 0, st'.pc⟩ :: draft js) is
    st'.pc
  have hp2 := patch_jumps (s.code ++ (⟨.brIfNot, 0, st.pc + 1⟩ : CuOp) ::
    (draft (close st'.pc is) ++ [⟨.br, 0, st'.pc⟩])) [] js st'.pc
  have hlen2 : (s.code ++ (⟨.brIfNot, 0, st.pc + 1⟩ : CuOp) ::
      (draft (close st'.pc is) ++ [⟨.br, 0, st'.pc⟩])).length = st.pc + 1 := by
    simp
    omega
  rw [hpre] at hbr
  rw [hlen2] at hp2
  simp only [List.length_append, List.length_singleton, List.append_assoc, List.nil_append,
    List.cons_append, List.append_nil] at hbr hp1 hp2
  have hall' : (s.code ++ (⟨.brIfNot, 0, st.pc + 1⟩ : CuOp) ::
      (draft is ++ ⟨.br, 0, 0⟩ :: draft js)).length = st'.pc := by
    simp
    omega
  simp only [extend, atElse, endCode, if_pos hk, if_true, List.append_assoc, List.cons_append,
    List.nil_append, hall', hbr, List.foldl_append]
  rw [hp1, hp2]
  have hrec : record (st.pc + 1) (close st'.pc js) (record (s.code.length + 1) (close 0 is) s.ctrl) =
      record s.code.length ((Item.code ⟨.brIfNot, 0, st.pc + 1⟩, m) ::
        (close st'.pc is ++ (Item.code ⟨.br, 0, st'.pc⟩, m') :: close st'.pc js)) s.ctrl := by
    rw [record_code_cons, ← record_record, record_code_cons, record_close _ 0 st'.pc, close_length,
      hlen]
  rw [hrec]
  simp only [draft_cons, draft_append, Item.placeholder]

/-- An `if` with `else` between its opening and its `end`. -/
theorem ifElse_matches {x x' : Lower Unit} {c : Ctrl} {h : Nat} {m : Int}
    {y : Option (Items × State)} (m' : State → Int) (y' : State → Option (Items × State))
    (hk : c.kind = .if_) (hp : c.patches = []) (hpc : c.brIfNot = some s.code.length)
    (hx : Refines x { s with code := s.code ++ [⟨.brIfNot, 0, 0⟩], h := h, ctrl := c :: s.ctrl } y)
    (hx' : ∀ s', s'.ctrl.map label = (c :: s.ctrl).map label → Refines x' s' (y' (view s'))) :
    Matches s ((x >>= fun _ => Lower.elseArm >>= fun _ => x' >>= fun _ => Lower.endArm env)
        { s with code := s.code ++ [⟨.brIfNot, 0, 0⟩], h := h, ctrl := c :: s.ctrl })
      (y.bind fun p =>
        (y' { p.2 with pc := p.2.pc + 1, h := c.base + c.nParams, dead := false }).map fun q =>
          ((.code ⟨.brIfNot, 0, p.2.pc + 1⟩, m) ::
              (close q.2.pc p.1 ++ (.code ⟨.br, 0, q.2.pc⟩, m' p.2) :: close q.2.pc q.1),
            { q.2 with h := c.base + c.nResults, dead := c.deadOnEntry })) := by
  cases y with
  | none =>
    obtain ⟨e, s', he⟩ := hx
    exact ⟨e, s', bind_error he⟩
  | some p =>
    obtain ⟨is, st⟩ := p
    obtain ⟨hpc', hx⟩ := hx
    rw [extend_if] at hx
    have hlen : s.code.length + 1 + is.length = st.pc := by simpa using hpc'.symm
    have hcode : (atElse s c is st).code.length = st.pc + 1 := by
      simp [atElse]
      omega
    have h2 := hx' (atElse s c is st) (by
      rw [atElse, List.map_cons, map_label_record]
      rfl)
    have hview : view (atElse s c is st) =
        { st with pc := st.pc + 1, h := c.base + c.nParams, dead := false } := by
      rw [view, hcode]
      rfl
    rw [hview] at h2
    rw [bind_ok hx, bind_ok (elseArm_atElse s hk hp hpc hlen), Option.bind_some]
    cases hy : y' { st with pc := st.pc + 1, h := c.base + c.nParams, dead := false } with
    | none =>
      rw [hy] at h2
      obtain ⟨e, s', he⟩ := h2
      exact ⟨e, s', bind_error he⟩
    | some q =>
      obtain ⟨js, st'⟩ := q
      rw [hy] at h2
      obtain ⟨hpc2, hx2⟩ := h2
      rw [hcode] at hpc2
      refine ⟨by simp; omega, ?_⟩
      rw [bind_ok hx2, endArm_atElse env s hk hlen hpc2.symm]

/-- The frame an opening operator pushes. -/
def opened (kind : CtrlKind) (start : Nat) (brIfNot : Option Nat) (base np nr : Nat) (dead : Bool) :
    Ctrl where
  kind := kind
  start := start
  brIfNot := brIfNot
  base := base
  nParams := np
  nResults := nr
  deadOnEntry := dead

theorem refines_scope (o : Operator) (bt : BlockType) (kind : CtrlKind) {x x' : Lower Unit}
    {y : Nat × Nat → Nat → Option (Items × State)} {y' : State → Option (Items × State)}
    (hk : kind ≠ .func) (hif : kind ≠ .if_)
    (ho : Lower.operator env o = (do
      let (np, nr) ← Lower.ofExcept (blockArity bt env.funcTypes)
      Lower.pushCtrl kind np nr))
    (hx : ∀ a base, Refines x
      { s with ctrl := opened kind s.code.length none base a.1 a.2 s.dead :: s.ctrl } (y a base))
    (hx' : ∀ s', s'.ctrl.map label = s.ctrl.map label → Refines x' s' (y' (view s'))) :
    Refines ((Lower.operator env o >>= fun _ => x >>= fun _ => Lower.endArm env) >>= fun _ => x') s
      ((blockArity bt env.funcTypes).toOption.bind fun a =>
        (enter a.1 (view s)).bind fun base =>
          andThen ((y a base).map fun p => (close p.2.pc p.1, (view s).leave base a.2 p.2))
            y') := by
  cases hbt : blockArity bt env.funcTypes with
  | error e =>
    have hopen : Lower.operator env o s = .error e s := by
      simp only [ho, hbt, bind_apply, ofExcept_apply]
    exact ⟨e, s, bind_error (bind_error hopen)⟩
  | ok a =>
    obtain ⟨np, nr⟩ := a
    have hopen : Lower.operator env o s = Lower.pushCtrl kind np nr none s := by
      simp only [ho, hbt, bind_apply, ofExcept_apply]
    rw [pushCtrl_apply] at hopen
    simp only [Except.toOption, Option.bind_some]
    cases hbase : enter np (view s) with
    | none =>
      rw [hbase] at hopen
      exact ⟨_, _, bind_error (bind_error hopen)⟩
    | some base =>
      rw [hbase] at hopen
      rw [Option.bind_some]
      refine Refines.seq ?_ hx'
      rw [Refines, bind_ok hopen]
      exact scope_matches env s hk hif rfl (hx (np, nr) base)

/-- The state behind `Operator::If`. -/
def atIf (h base np nr : Nat) : LState :=
  { s with
    code := s.code ++ [⟨.brIfNot, 0, 0⟩], h := h
    ctrl := opened .if_ (s.code.length + 1) (some s.code.length) base np nr s.dead :: s.ctrl }

theorem consume_dead {pops pushes : Nat} {st st' : State} (h : consume pops pushes st = some st') :
    st'.dead = st.dead ∧ st'.pc = st.pc ∧ st'.consts = st.consts := by
  unfold consume at h
  split_ifs at h <;> cases h <;> exact ⟨rfl, rfl, rfl⟩

/-- `Operator::If` fails, or opens a block behind a `BR_IF_NOT`. -/
theorem ifArm_cases (bt : BlockType) :
    (∃ e s', Lower.ifArm env bt s = .error e s') ∧
        (∀ a st0, blockArity bt env.funcTypes = .ok a → consume 1 0 (view s) = some st0 →
          enter a.1 st0 = none) ∨
      ∃ np nr st0 base, blockArity bt env.funcTypes = .ok (np, nr) ∧
        consume 1 0 (view s) = some st0 ∧ enter np st0 = some base ∧
        Lower.ifArm env bt s = .ok () (atIf s st0.h base np nr) := by
  unfold Lower.ifArm
  cases hbt : blockArity bt env.funcTypes with
  | error e => exact .inl ⟨⟨e, s, by simp only [bind_apply, ofExcept_apply]⟩, nofun⟩
  | ok a =>
    obtain ⟨np, nr⟩ := a
    have hcons := refines_consume s 1 0
    cases hc : consume 1 0 (view s) with
    | none =>
      rw [hc] at hcons
      obtain ⟨e, s', he⟩ := hcons
      exact .inl ⟨⟨e, s', by simp only [bind_apply, ofExcept_apply, he]⟩, nofun⟩
    | some st0 =>
      rw [hc] at hcons
      obtain ⟨-, hx⟩ := hcons
      rw [extend_silent] at hx
      obtain ⟨hd, hpc, hco⟩ := consume_dead hc
      have hpush := pushCtrl_apply { s with code := s.code ++ [⟨.brIfNot, 0, 0⟩], h := st0.h } .if_ np
        nr (some s.code.length)
      have henter : enter np (view { s with code := s.code ++ [⟨.brIfNot, 0, 0⟩], h := st0.h }) =
          enter np st0 := by
        unfold enter view
        rw [hd]
        rfl
      have hs : ({ s with consts := st0.consts, h := st0.h, dead := st0.dead } : LState) =
          { s with h := st0.h } := by
        rw [hd, hco]
        rfl
      rw [henter] at hpush
      rw [hs] at hx
      cases he : enter np st0 with
      | none =>
        rw [he] at hpush
        refine .inl ⟨⟨"block params underflow",
          { s with code := s.code ++ [⟨.brIfNot, 0, 0⟩], h := st0.h }, ?_⟩, ?_⟩
        · simp only [bind_apply, ofExcept_apply, hx, emit_apply]
          exact hpush
        · rintro a st0' ⟨⟩ ⟨⟩
          exact he
      | some base =>
        rw [he] at hpush
        refine .inr ⟨np, nr, st0, base, rfl, rfl, he, ?_⟩
        simp only [bind_apply, ofExcept_apply, hx, emit_apply]
        rw [hpush]
        simp only [atIf, opened, List.length_append, List.length_singleton]

theorem view_atIf {st0 : State} (h : consume 1 0 (view s) = some st0) (base np nr : Nat) :
    view (atIf s st0.h base np nr) = { st0 with pc := s.code.length + 1 } := by
  obtain ⟨hd, -, hco⟩ := consume_dead h
  simp only [view, atIf, List.length_append, List.length_singleton, hd, hco]

theorem bind_none {β : Type} {x : Except String (Nat × Nat)} {y : Option State}
    {f : Nat × Nat → State → Nat → Option β}
    (h : ∀ a st0, x = .ok a → y = some st0 → enter a.1 st0 = none) :
    (x.toOption.bind fun a => y.bind fun st0 => (enter a.1 st0).bind fun base => f a st0 base) =
      none := by
  cases x with
  | error e => rfl
  | ok a =>
    cases y with
    | none => rfl
    | some st0 =>
      simp only [Except.toOption, Option.bind_some, h a st0 rfl rfl, Option.bind_none]

/-- The lowering of an instruction sequence is the structured one. -/
theorem refines_body (b : Body) (hb : b.Plain) :
    ∀ (L : List Label) (ghost : Bool) (s : LState), s.ctrl.map label = L →
      Refines (Lower.operators env b.flatten) s (body env L ghost (view s) b) := by
  induction b with
  | nil =>
    rintro L ghost s rfl
    exact ⟨rfl, by rw [extend_nil]; rfl⟩
  | op o rest ih =>
    rintro L ghost s rfl
    exact (refines_operator env ghost s o hb.1).seq fun s' hs' => ih hb.2 _ ghost s' hs'
  | block bt b rest ihb ihr =>
    rintro L ghost s rfl
    rw [Body.flatten, operators_scope, body]
    refine refines_scope env s (.block bt) bt .block (by decide) (by decide) rfl ?_ ?_
    · exact fun a base => ihb hb.1 _ ghost _ rfl
    · exact fun s' hs' => ihr hb.2 _ ghost s' hs'
  | loop bt b rest ihb ihr =>
    rintro L ghost s rfl
    rw [Body.flatten, operators_scope, body]
    refine refines_scope env s (.loop bt) bt .loop (by decide) (by decide) rfl ?_ ?_
    · exact fun a base => ihb hb.1 _ ghost _ rfl
    · exact fun s' hs' => ihr hb.2 _ ghost s' hs'
  | ifThen bt b rest ihb ihr =>
    rintro L ghost s rfl
    rw [Body.flatten, operators_scope, body]
    obtain ⟨⟨e, s', he⟩, hnone⟩ | ⟨np, nr, st0, base, hbt, hc, hbase, hopen⟩ := ifArm_cases env s bt
    · rw [bind_none hnone]
      exact ⟨e, s', bind_error (bind_error he)⟩
    · simp only [hbt, Except.toOption, Option.bind_some, hc, hbase]
      refine Refines.seq ?_ fun s' hs' => ihr hb.2 _ ghost s' hs'
      rw [Refines, Lower.operator, bind_ok hopen]
      refine ifThen_matches env s rfl rfl rfl rfl ?_
      have hbody := ihb hb.1 _ ghost (atIf s st0.h base np nr) rfl
      rw [view_atIf s hc] at hbody
      exact hbody
  | ifElse bt b els rest ihb ihe ihr =>
    rintro L ghost s rfl
    rw [Body.flatten, operators_ifElse, body]
    obtain ⟨⟨e, s', he⟩, hnone⟩ | ⟨np, nr, st0, base, hbt, hc, hbase, hopen⟩ := ifArm_cases env s bt
    · rw [bind_none hnone]
      exact ⟨e, s', bind_error (bind_error he)⟩
    · simp only [hbt, Except.toOption, Option.bind_some, hc, hbase]
      refine Refines.seq ?_ fun s' hs' => ihr hb.2.2 _ ghost s' hs'
      rw [Refines, bind_ok hopen]
      refine ifElse_matches env s
        (c := opened .if_ (s.code.length + 1) (some s.code.length) base np nr s.dead)
        (fun st => st.mark ghost st.h)
        (fun st => body env (⟨none, base, nr⟩ :: s.ctrl.map label) (ghost || s.dead) st els)
        rfl rfl rfl ?_ ?_
      · have hbody := ihb hb.1 _ ghost (atIf s st0.h base np nr) rfl
        rw [view_atIf s hc] at hbody
        exact hbody
      · exact fun s' hs' => ihe hb.2.1 _ _ s' hs'

theorem endArm_func {c : Ctrl} (hc : s.ctrl = [c]) (hk : c.kind = .func) :
    Lower.endArm env s = .ok ()
      { code := c.patches.foldl (fun code p => patchB code p s.code.length)
          (s.code ++ [⟨.endFunc, env.nResults, 0⟩])
        consts := s.consts, h := c.base + c.nResults, dead := c.deadOnEntry, ctrl := [] } := by
  have hif : c.kind ≠ .if_ := by rw [hk]; decide
  simp only [Lower.endArm, bind_apply, get_apply, hc, modify_apply, if_pos hk, emit_apply,
    Lower.endPatches, if_neg hif]
  rw [forM_patch_apply]

end Blocks

/-- What the structured pass says about a whole function body holds of `lower_operators`. -/
theorem lowerOperators_function (lm : LowerModule) (b : Body) (hb : b.Plain)
    (nParams nResults nLocals : Nat) (code : List CuOp) (consts : List Slot) :
    match function (lowerEnv lm b.function nParams nResults nLocals) code.length consts b with
    | none => ∃ e code' consts',
        lowerOperators lm b.function nParams nResults nLocals code consts = (.error e, code', consts')
    | some (is, consts') =>
      lowerOperators lm b.function nParams nResults nLocals code consts =
        (.ok { codeOff := code.length, codeLen := is.length, nParams := nParams, nResults := nResults
               nLocals := scratchLocals b.function nLocals },
          code ++ draft is, consts') := by
  set env := lowerEnv lm b.function nParams nResults nLocals with henv
  have hres : env.nResults = nResults := rfl
  set init : LState := { code := code, consts := consts, h := 0, dead := false
                         ctrl := [funcCtrl code.length nResults] } with hinit
  have hbody := refines_body env b hb [⟨none, 0, nResults⟩] false init rfl
  have hops : Lower.operators env b.function =
      (Lower.operators env b.flatten >>= fun _ => Lower.endArm env) := by
    rw [Body.function, operators_append]
    simp only [Lower.operators, Lower.operator, bind_pure_unit]
  unfold lowerOperators
  simp only [← henv, ← hinit, hops]
  unfold function
  rw [hres]
  rw [show view init = ⟨code.length, consts, 0, false⟩ from rfl] at hbody
  cases hy : body env [⟨none, 0, nResults⟩] false ⟨code.length, consts, 0, false⟩ b with
  | none =>
    rw [hy] at hbody
    obtain ⟨e, s', he⟩ := hbody
    rw [bind_error he]
    exact ⟨e, _, _, rfl⟩
  | some p =>
    obtain ⟨is, st⟩ := p
    rw [hy] at hbody
    obtain ⟨hpc, hx⟩ := hbody
    have hlen : (extend init is st).code.length = st.pc := by
      simp [extend, hpc, hinit]
    have hctrl := record_cons code.length is (funcCtrl code.length nResults) [] st.pc
    have hend := endArm_func env (extend init is st) hctrl rfl
    have hpatch := patch_jumps code [⟨.endFunc, nResults, 0⟩] is st.pc
    rw [hlen] at hend
    have hcode : (extend init is st).code = code ++ draft is := rfl
    rw [hcode, List.append_assoc, hres] at hend
    simp only [funcCtrl, List.nil_append] at hend
    rw [hpatch] at hend
    rw [bind_ok hx, hend]
    simp only [Option.map_some, ne_eq, not_true_eq_false, if_false, draft_append, draft_cons,
      draft_nil, Item.placeholder, List.length_append, draft_length, close_length,
      List.length_singleton, Nat.add_sub_cancel_left]
    rfl

end Structured

end CuWasm
