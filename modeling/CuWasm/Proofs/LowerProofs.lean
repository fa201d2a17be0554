import CuWasm.Proofs.StructuredProofs
import CuWasm.Wasm.Heights

/-!
# Lowering valid bodies

In a valid body the height the lowering tracks is the length of the stack type, counted from the
bottom of the innermost block. So the underflow tests of the lowering can fail in one place only: a
branch out of the else arm of an `if` in dead code, where tracking has started anew from zero.
-/

namespace CuWasm

open Wasm Structured

namespace Structured

/-- The arguments of the pass describe the module of the validation context. The type section's
reader limits the lengths of parameter and result lists (to 1000), so they fit 16 bits. -/
structure Describes (env : LowerEnv) (C : Ctx) : Prop where
  types : env.funcTypes = C.types
  funcs : env.funcTypeidx = C.funcs
  results : env.nResults = C.results.length
  hostIds : env.hostFnIds.length = env.nImports
  small : ∀ ft ∈ C.types, ft.1.length < 2 ^ 16 ∧ ft.2.length < 2 ^ 16

variable {env : LowerEnv} {C : Ctx}

theorem typed_plain {L : List (List ValType)} {r : Bool} {ts us : List ValType} {b : Body}
    (h : Typed C L r ts b us) : b.Plain := by
  induction h with
  | nil => trivial
  | op ho _ ih => exact ⟨by cases ho <;> rfl, ih⟩
  | unreachable _ ih | br _ _ ih | brIf _ _ ih | brTable _ _ _ ih | return_ _ ih
    | returnCall _ _ _ _ ih => exact ⟨rfl, ih⟩
  | block _ _ _ ihb ihr | loop _ _ _ ihb ihr | ifThen _ _ _ _ ihb ihr => exact ⟨ihb, ihr⟩
  | ifElse _ _ _ _ ihb ihe ihr => exact ⟨ihb, ihe, ihr⟩

/-! ## Arities -/

theorem NumOp.lower_arity (o : NumOp) :
    (NumOp.lower o).2.2.1 = o.type.1.1 ∧ (NumOp.lower o).2.2.2 = o.type.2.1 := by
  cases o <;> exact ⟨rfl, rfl⟩

theorem Describes.blockArity (hd : Describes env C) {bt : BlockType} {ft : FuncType} {a : Nat × Nat}
    (he : bt.expand C.types = some ft) (ha : blockArity bt env.funcTypes = .ok a) :
    a = (ft.1.length, ft.2.length) := by
  rw [hd.types] at ha
  cases bt with
  | empty =>
    cases he
    cases ha
    rfl
  | type t =>
    cases he
    unfold CuWasm.blockArity at ha
    simp only at ha
    split_ifs at ha
    cases ha
    rfl
  | funcType idx =>
    have hft : C.types[idx]? = some ft := he
    obtain ⟨h1, h2⟩ := hd.small ft (List.mem_of_getElem? hft)
    unfold CuWasm.blockArity at ha
    simp only [hft] at ha
    cases ha
    rw [Nat.mod_eq_of_lt h1, Nat.mod_eq_of_lt h2]

theorem Describes.funcArity (hd : Describes env C) {fi ti : Nat} {ft : FuncType}
    (hf : C.funcs[fi]? = some ti) (ht : C.types[ti]? = some ft) :
    funcArity fi env.funcTypes env.funcTypeidx = .ok (ft.1.length, ft.2.length) := by
  obtain ⟨h1, h2⟩ := hd.small ft (List.mem_of_getElem? ht)
  unfold CuWasm.funcArity
  rw [hd.funcs, hd.types]
  simp only [hf, ht]
  rw [Nat.mod_eq_of_lt h1, Nat.mod_eq_of_lt h2]

/-! ## What the parts of the pass do to the height -/

/-- The height behind an instruction that takes `pops` operands and leaves `pushes`. -/
def State.after (st : State) (pops pushes : Nat) : Nat :=
  if st.dead then st.h else st.h - pops + pushes

theorem consume_some {pops pushes : Nat} {st : State} (h : st.dead = false → pops ≤ st.h) :
    consume pops pushes st = some { st with h := st.after pops pushes } := by
  unfold consume State.after
  cases hd : st.dead with
  | true =>
    rw [if_pos rfl, if_pos rfl, ← hd]
  | false =>
    have := h hd
    rw [if_neg (by simp), if_neg (by omega), if_neg (by simp), ← hd]

variable {L : List Label} {ghost : Bool} {st : State}

theorem plain_some {op : Opcode} {a b pops pushes : Nat} (h : st.dead = false → pops ≤ st.h) :
    plain ghost op a b pops pushes st =
      some ([(.code ⟨op, a, b⟩, st.mark ghost st.h)],
        { st with pc := st.pc + 1, h := st.after pops pushes }) := by
  unfold plain emit
  simp only
  rw [consume_some (by exact h)]
  rfl

/-- The operators of one fixed type that the lowering does not reject for an index or for having no
case. -/
def accepted : Operator → Bool
  | .refFunc _ | .refNull | .other _ => false
  | .callIndirect _ tab => tab == 0
  | .load _ ma | .store _ ma => ma.memory == 0
  | .memorySize mem | .memoryGrow mem | .memoryFill mem | .memoryInit _ mem => mem == 0
  | .memoryCopy dst src => dst == 0 && src == 0
  | _ => true

theorem operator_rejected {o : Operator} {ps qs : List ValType} (ho : OpTyped C o ps qs)
    (ha : accepted o = false) : operator env L ghost o st = none := by
  cases ho with
  | callIndirect ht hb =>
    simp only [accepted, beq_eq_false_iff_ne] at ha
    simp only [operator, if_pos ha]
  | load o hm hoff | store o hm hoff =>
    simp only [accepted, beq_eq_false_iff_ne] at ha
    simp only [operator, checkMemarg, if_pos ha]
  | memorySize hm | memoryGrow hm | memoryFill hm | memoryInit hdi hm =>
    simp only [accepted, beq_eq_false_iff_ne] at ha
    simp only [operator, if_pos ha]
  | memoryCopy hm hm' =>
    simp only [accepted, Bool.and_eq_false_iff, beq_eq_false_iff_ne] at ha
    simp only [operator, if_pos ha]
  | refFunc _ | refNull _ | other _ _ _ => rfl
  | _ => cases ha

theorem after_zero (st : State) : st.after 0 0 = st.h := by
  unfold State.after
  split_ifs <;> rfl

/-- The outcome of an operator of one fixed type. -/
theorem operator_accepted (L : List Label) (ghost : Bool) (hd : Describes env C) {o : Operator} {ps qs : List ValType}
    (ho : OpTyped C o ps qs) (ha : accepted o = true) (hn : st.dead = false → ps.length ≤ st.h) :
    ∃ is consts, operator env L ghost o st =
      some (is, ⟨st.pc + is.length, consts, st.after ps.length qs.length, st.dead⟩) := by
  cases ho with
  | nop =>
    refine ⟨[], st.consts, ?_⟩
    simp only [operator, List.length_nil, after_zero, Nat.add_zero]
  | localTee h =>
    rename_i i t
    have hh : st.after 1 1 = st.h := by
      unfold State.after
      split_ifs with hdead
      · rfl
      · have := hn (by simpa using hdead)
        simp only [List.length_singleton] at this
        omega
    refine ⟨[(.code ⟨.localSet, i % 2 ^ 16, 0⟩, st.mark ghost st.h),
      (.code ⟨.localGet, i % 2 ^ 16, 0⟩, st.mark ghost (st.h - 1))], st.consts, ?_⟩
    simp only [operator, List.length_cons, List.length_nil, Nat.zero_add, hh]
  | dataDrop h =>
    simp only [operator, emit, List.length_nil, after_zero]
    exact ⟨[_], st.consts, rfl⟩
  | reinterpret x =>
    refine ⟨[], st.consts, ?_⟩
    simp only [operator]
    rw [consume_some (by exact hn)]
    rfl
  | num o =>
    obtain ⟨h1, h2⟩ := NumOp.lower_arity o
    simp only [NumOp.pops, NumOp.pushes, List.length_replicate] at hn ⊢
    simp only [operator]
    rw [← h1] at hn
    rw [plain_some hn, ← h1, ← h2]
    exact ⟨[_], st.consts, rfl⟩
  | const c =>
    simp only [operator]
    rw [plain_some (by simp)]
    exact ⟨[_], _, rfl⟩
  | call hf ht =>
    rename_i fi ti ft
    simp only [List.length_reverse] at hn ⊢
    simp only [operator, hd.funcArity hf ht]
    by_cases hi : fi < env.nImports
    · have hlt : fi < env.hostFnIds.length := hd.hostIds.symm ▸ hi
      rw [if_pos hi, List.getElem?_eq_getElem hlt]
      exact ⟨[_], st.consts, plain_some hn⟩
    · rw [if_neg hi]
      exact ⟨[_], st.consts, plain_some hn⟩
  | callIndirect ht hb =>
    rename_i ti tab ft
    simp only [accepted, beq_iff_eq] at ha
    simp only [List.length_cons, List.length_reverse] at hn ⊢
    simp only [operator, ha, ne_eq, not_true_eq_false, if_false, hd.types, ht]
    rw [Nat.add_comm ft.1.length] at hn ⊢
    exact ⟨[_], st.consts, plain_some hn⟩
  | load o hm hoff | store o hm hoff =>
    simp only [accepted, beq_iff_eq] at ha
    simp only [operator, checkMemarg, ha, ne_eq, not_true_eq_false, if_false]
    rw [if_neg (by omega)]
    simp only
    exact ⟨[_], st.consts, plain_some hn⟩
  | memorySize hm | memoryGrow hm | memoryFill hm | memoryInit hdi hm =>
    simp only [accepted, beq_iff_eq] at ha
    simp only [operator, ha, ne_eq, not_true_eq_false, if_false]
    exact ⟨[_], st.consts, plain_some hn⟩
  | memoryCopy hm hm' =>
    simp only [accepted, Bool.and_eq_true, beq_iff_eq] at ha
    simp only [operator, ha.1, ha.2, ne_eq, not_true_eq_false, or_self, if_false]
    exact ⟨[_], st.consts, plain_some hn⟩
  | drop _ | select _ | typedSelect _ | globalGet _ | globalSet _ | localGet _ | localSet _ =>
    simp only [operator]
    exact ⟨[_], st.consts, plain_some hn⟩
  | refFunc _ | refNull _ | other _ _ _ => cases ha

/-! ## Branches -/

/-- A branch to the label `l` finds its operands in `st`, or nothing is known about the height. -/
def Label.Fits (l : Label) (st : State) : Prop := st.dead = false → l.base + l.arity ≤ st.h

theorem Label.fits_congr {l : Label} {st st' : State} (hd : st'.dead = st.dead) (hh : st'.h = st.h) :
    l.Fits st' ↔ l.Fits st := by
  unfold Label.Fits
  rw [hd, hh]

/-- The items of a branch to the label `l`, which is `k` levels out. -/
def branchItems (env : LowerEnv) (ghost : Bool) (l : Label) (k : Nat) (st : State) : Items :=
  (if ¬ st.dead ∧ st.h > l.base + l.arity then
    [(.code ⟨.unwind, l.arity, env.nParams + env.nLocals + (l.base + l.arity)⟩, st.mark ghost st.h)]
  else []) ++ [(jumpItem l k, st.mark ghost (l.base + l.arity))]

theorem branchItems_congr {l : Label} {k : Nat} {st st' : State} (hd : st'.dead = st.dead)
    (hh : st'.h = st.h) : branchItems env ghost l k st' = branchItems env ghost l k st := by
  unfold branchItems State.mark
  rw [hd, hh]

section Branches

variable (env L ghost st)

theorem branch_some {k : Nat} {l : Label} (hk : L[k]? = some l) (hf : l.Fits st) :
    branch env L ghost k st = some (branchItems env ghost l k st,
      { st with pc := st.pc + (branchItems env ghost l k st).length }) := by
  unfold branch branchItems
  simp only [hk]
  rw [if_neg (by
    rintro ⟨hdead, hlt⟩
    have := hf (by simpa using hdead)
    omega), List.length_append]
  rfl

theorem branch_none {k : Nat} {l : Label} (hk : L[k]? = some l) (hf : ¬ l.Fits st) :
    branch env L ghost k st = none := by
  unfold branch
  simp only [hk]
  rw [if_pos]
  unfold Label.Fits at hf
  push Not at hf
  exact ⟨by simp [hf.1], hf.2⟩

/-- The state in which a conditional branch is taken. -/
def State.taken (st : State) : State := { st with h := st.after 1 0 }

/-- The items of a conditional branch at `st`. -/
def branchIfItems (l : Label) (k : Nat) (st : State) : Items :=
  (.code ⟨.brIfNot, 0, st.pc + 1 + (branchItems env ghost l k st.taken).length⟩,
    st.mark ghost st.h) :: branchItems env ghost l k st.taken

theorem branchIf_some {k : Nat} {l : Label} (hk : L[k]? = some l) (h1 : st.dead = false → 1 ≤ st.h)
    (hf : l.Fits st.taken) :
    branchIf env L ghost k st = some (branchIfItems env ghost l k st,
      { st.taken with pc := st.pc + (branchIfItems env ghost l k st).length }) := by
  have hb := branch_some env L ghost { st.taken with pc := st.pc + 1 } hk hf
  have hit : branchItems env ghost l k { st.taken with pc := st.pc + 1 } =
      branchItems env ghost l k st.taken := rfl
  unfold branchIf branchIfItems
  rw [consume_some h1, Option.bind_some]
  unfold State.taken at hb hit ⊢
  rw [hb, hit]
  simp only [Option.map_some, List.length_cons]
  rw [Nat.add_assoc, Nat.add_comm 1]

theorem branchIf_none {k : Nat} {l : Label} (hk : L[k]? = some l) (h1 : st.dead = false → 1 ≤ st.h)
    (hf : ¬ l.Fits st.taken) : branchIf env L ghost k st = none := by
  have hb := branch_none env L ghost { st.taken with pc := st.pc + 1 } hk hf
  unfold branchIf
  rw [consume_some h1, Option.bind_some]
  unfold State.taken at hb
  rw [hb]
  rfl

/-- The state in front of the conditional branch of a `br_table` comparison. -/
def State.compared (st : State) (consts : List Slot) : State :=
  { pc := st.pc + 3, consts := consts, h := st.after 0 1, dead := st.dead }

theorem compared_taken (consts : List Slot) :
    (st.compared consts).taken.h = st.h ∧ (st.compared consts).taken.dead = st.dead := by
  refine ⟨?_, rfl⟩
  simp only [State.taken, State.compared, State.after]
  split_ifs <;> omega

theorem tableArm_eq (scratch i k : Nat) :
    tableArm env L ghost scratch i k st =
      (branchIf env L ghost k
        (st.compared (intern (BitVec.ofNat 64 (i % 2 ^ 32)) st.consts).2)).map fun p =>
        ((.code ⟨.localGet, scratch, 0⟩, st.mark ghost st.h) ::
          (.code ⟨.i64Const, 0, (intern (BitVec.ofNat 64 (i % 2 ^ 32)) st.consts).1⟩,
            st.mark ghost (st.after 0 1)) ::
          (.code ⟨.bin .i32Eq, 0, 0⟩, st.mark ghost (st.after 0 2)) :: p.1, p.2) := by
  obtain ⟨pc, consts, h, dead⟩ := st
  unfold tableArm
  simp only
  rw [plain_some (by simp)]
  unfold andThen
  rw [Option.bind_some]
  simp only
  rw [plain_some (by simp), Option.bind_some]
  simp only
  rw [plain_some (by
    intro hdead
    simp only at hdead
    simp [State.after, hdead]), Option.bind_some]
  simp only [State.compared]
  cases dead with
  | true =>
    simp only [State.after, if_true, Option.map_map]
    rfl
  | false =>
    simp only [State.after, Bool.false_eq_true, if_false, Option.map_map]
    rfl

theorem tableArm_some (scratch i : Nat) {k : Nat} {l : Label} (hk : L[k]? = some l)
    (hf : l.Fits st) :
    ∃ is consts, tableArm env L ghost scratch i k st =
      some (is, ⟨st.pc + is.length, consts, st.h, st.dead⟩) := by
  set c := intern (BitVec.ofNat 64 (i % 2 ^ 32)) st.consts with hc
  obtain ⟨hh, hdead⟩ := compared_taken st c.2
  have hb := branchIf_some env L ghost (st.compared c.2) hk
    (fun h => by simp only [State.compared] at h; simp [State.compared, State.after, h])
    ((Label.fits_congr hdead hh).mpr hf)
  rw [tableArm_eq, ← hc, hb]
  refine ⟨_, c.2, congrArg some (Prod.ext rfl ?_)⟩
  rw [State.mk.injEq]
  exact ⟨by simp only [State.compared, List.length_cons]; omega, rfl, hh, hdead⟩

theorem tableArm_none (scratch i : Nat) {k : Nat} {l : Label} (hk : L[k]? = some l)
    (hf : ¬ l.Fits st) : tableArm env L ghost scratch i k st = none := by
  set c := intern (BitVec.ofNat 64 (i % 2 ^ 32)) st.consts with hc
  obtain ⟨hh, hdead⟩ := compared_taken st c.2
  rw [tableArm_eq, ← hc, branchIf_none env L ghost (st.compared c.2) hk
    (fun h => by simp only [State.compared] at h; simp [State.compared, State.after, h])
    (mt (Label.fits_congr hdead hh).mp hf)]
  rfl

theorem tableArms_some (scratch : Nat) {ks : List Nat} (i : Nat)
    (hks : ∀ k ∈ ks, ∃ l, L[k]? = some l ∧ l.Fits st) :
    ∃ is consts, tableArms env L ghost scratch i ks st =
      some (is, ⟨st.pc + is.length, consts, st.h, st.dead⟩) := by
  induction ks generalizing i st with
  | nil => exact ⟨[], st.consts, rfl⟩
  | cons k ks ih =>
    obtain ⟨l, hk, hf⟩ := hks k (List.mem_cons_self ..)
    obtain ⟨is, consts, harm⟩ := tableArm_some env L ghost st scratch i hk hf
    obtain ⟨js, consts', hrest⟩ := ih ⟨st.pc + is.length, consts, st.h, st.dead⟩ (i + 1)
      (fun k' hk' => hks k' (List.mem_cons_of_mem _ hk'))
    refine ⟨is ++ js, consts', ?_⟩
    rw [tableArms, harm, andThen, Option.bind_some, hrest, List.length_append, ← Nat.add_assoc]
    rfl

theorem tableArms_none (scratch : Nat) {ks : List Nat} (i : Nat)
    (hks : ∀ k ∈ ks, ∃ l, L[k]? = some l) (hbad : ∃ k ∈ ks, ∃ l, L[k]? = some l ∧ ¬ l.Fits st) :
    tableArms env L ghost scratch i ks st = none := by
  induction ks generalizing i st with
  | nil =>
    obtain ⟨k, hk, -⟩ := hbad
    cases hk
  | cons k ks ih =>
    obtain ⟨l, hk⟩ := hks k (List.mem_cons_self ..)
    by_cases hf : l.Fits st
    · obtain ⟨is, consts, harm⟩ := tableArm_some env L ghost st scratch i hk hf
      have hbad' : ∃ k ∈ ks, ∃ l, L[k]? = some l ∧ ¬ l.Fits ⟨st.pc + is.length, consts, st.h, st.dead⟩ := by
        obtain ⟨k', hk', l', hl', hf'⟩ := hbad
        obtain rfl | hk' := List.mem_cons.mp hk'
        · rw [hk] at hl'
          cases hl'
          exact absurd hf hf'
        · exact ⟨k', hk', l', hl', hf'⟩
      rw [tableArms, harm, andThen, Option.bind_some,
        ih _ (i + 1) (fun k' hk' => hks k' (List.mem_cons_of_mem _ hk')) hbad']
      rfl
    · rw [tableArms, tableArm_none env L ghost st scratch i hk hf]
      rfl

theorem table_some {scratch : Nat} (hs : env.scratch = some scratch) {ks : List Nat} {k : Nat}
    (h1 : st.dead = false → 1 ≤ st.h)
    (hks : ∀ k' ∈ ks ++ [k], ∃ l, L[k']? = some l ∧ l.Fits st.taken) :
    ∃ is consts, table env L ghost ks k st =
      some (is, ⟨st.pc + is.length, consts, st.after 1 0, true⟩) := by
  obtain ⟨is, consts, harms⟩ := tableArms_some env L ghost { st.taken with pc := st.pc + 1 } scratch 0
    (fun k' hk' => hks k' (List.mem_append_left _ hk'))
  obtain ⟨l, hk, hf⟩ := hks k (by simp)
  have hb := branch_some env L ghost ⟨st.pc + 1 + is.length, consts, st.after 1 0, st.dead⟩ hk hf
  unfold table
  simp only [hs]
  rw [plain_some h1, andThen, Option.bind_some]
  unfold State.taken at harms
  rw [harms]
  simp only [andThen, Option.bind_some]
  rw [hb]
  refine ⟨_, consts, congrArg some (Prod.ext rfl ?_)⟩
  simp only [kill, List.length_append, List.length_singleton]
  rw [State.mk.injEq]
  exact ⟨by omega, rfl, rfl, rfl⟩

theorem table_none {ks : List Nat} {k : Nat} (h1 : st.dead = false → 1 ≤ st.h)
    (hks : ∀ k' ∈ ks ++ [k], ∃ l, L[k']? = some l)
    (hbad : ∃ k' ∈ ks ++ [k], ∃ l, L[k']? = some l ∧ ¬ l.Fits st.taken) :
    table env L ghost ks k st = none := by
  unfold table
  cases hs : env.scratch with
  | none => rfl
  | some scratch =>
    simp only
    rw [plain_some h1, andThen, Option.bind_some]
    by_cases hbad' : ∃ k' ∈ ks, ∃ l, L[k']? = some l ∧ ¬ l.Fits st.taken
    · have harms := tableArms_none env L ghost { st.taken with pc := st.pc + 1 } scratch 0
        (fun k' hk' => hks k' (List.mem_append_left _ hk')) hbad'
      unfold State.taken at harms
      rw [harms]
      rfl
    · push Not at hbad'
      obtain ⟨is, consts, harms⟩ := tableArms_some env L ghost { st.taken with pc := st.pc + 1 }
        scratch 0 (fun k' hk' => by
          obtain ⟨l, hl⟩ := hks k' (List.mem_append_left _ hk')
          exact ⟨l, hl, hbad' k' hk' l hl⟩)
      obtain ⟨k', hk', l, hl, hf⟩ := hbad
      obtain hk' | hk' := List.mem_append.mp hk'
      · exact absurd (hbad' k' hk' l hl) hf
      · obtain rfl := List.mem_singleton.mp hk'
        have hb := branch_none env L ghost ⟨st.pc + 1 + is.length, consts, st.after 1 0, st.dead⟩ hl hf
        unfold State.taken at harms
        rw [harms]
        simp only [andThen, Option.bind_some]
        rw [hb]
        rfl

end Branches

/-! ## Typed operators -/

/-- The typing rule of one operator: the stack type in front of it and behind it. -/
inductive OpStep (C : Ctx) (Lt : List (List ValType)) :
    Operator → List ValType → List ValType → Prop where
  | op {o : Operator} {ps qs ts : List ValType} (ho : OpTyped C o ps qs) :
      OpStep C Lt o (ps ++ ts) (qs ++ ts)
  | unreachable {ts ts' : List ValType} : OpStep C Lt .unreachable ts ts'
  | br {l : Nat} {lt ts ts' : List ValType} (hl : Lt[l]? = some lt) :
      OpStep C Lt (.br l) (lt ++ ts) ts'
  | brIf {l : Nat} {lt ts : List ValType} (hl : Lt[l]? = some lt) :
      OpStep C Lt (.brIf l) (.i32 :: (lt ++ ts)) (lt ++ ts)
  | brTable {ls : List Nat} {l : Nat} {lt ts ts' : List ValType}
      (hls : ∀ k ∈ ls ++ [l], ∃ lt', Lt[k]? = some lt' ∧ lt'.length = lt.length) :
      OpStep C Lt (.brTable ls l) (.i32 :: (lt ++ ts)) ts'
  | return_ {ts ts' : List ValType} : OpStep C Lt .return_ (C.results.reverse ++ ts) ts'
  | returnCall {fi ti : Nat} {ft : FuncType} {ts ts' : List ValType} (hf : C.funcs[fi]? = some ti)
      (ht : C.types[ti]? = some ft) (hres : ft.2 = C.results) :
      OpStep C Lt (.returnCall fi) (ft.1.reverse ++ ts) ts'

theorem typed_op {Lt : List (List ValType)} {r : Bool} {ts us : List ValType} {o : Operator}
    {rest : Body} (h : Typed C Lt r ts (.op o rest) us) :
    ∃ r' ts', OpStep C Lt o ts ts' ∧ Typed C Lt r' ts' rest us := by
  cases h with
  | op ho hr => exact ⟨_, _, .op ho, hr⟩
  | unreachable hr => exact ⟨_, _, .unreachable, hr⟩
  | br hl hr => exact ⟨_, _, .br hl, hr⟩
  | brIf hl hr => exact ⟨_, _, .brIf hl, hr⟩
  | brTable hl hls hr =>
    refine ⟨_, _, .brTable fun k hk => ?_, hr⟩
    obtain hk | hk := List.mem_append.mp hk
    · obtain ⟨lt', h1, h2, -⟩ := hls k hk
      exact ⟨lt', h1, h2⟩
    · obtain rfl := List.mem_singleton.mp hk
      exact ⟨_, hl, rfl⟩
  | return_ hr => exact ⟨_, _, .return_, hr⟩
  | returnCall hf ht hres hr => exact ⟨_, _, .returnCall hf ht hres, hr⟩

theorem OpTyped.arity_eq {o : Operator} {ps qs : List ValType} (ho : OpTyped C o ps qs)
    (ha : accepted o = true) : o.arity C = (ps.length, qs.length) := by
  cases ho with
  | num o => simp [Operator.arity, NumOp.pops, NumOp.pushes]
  | call hf ht => simp [Operator.arity, Ctx.funcType, hf, ht]
  | callIndirect ht hb =>
    simp only [Operator.arity, ht, List.length_cons, List.length_reverse]
    rw [Nat.add_comm]
  | refFunc _ | refNull _ | other _ _ _ => cases ha
  | _ => rfl

theorem OpTyped.transfers_eq {o : Operator} {ps qs : List ValType} (ho : OpTyped C o ps qs) :
    o.transfers = false ∧ o.targets = [] := by
  cases ho <;> exact ⟨rfl, rfl⟩

/-- The labels and the height of the pass agree with the types of the labels and of the stack above
the innermost block, whose operands start at the height `B`. -/
structure Tracks (L : List Label) (Lt : List (List ValType)) (B : Nat) (ts : List ValType)
    (st : State) : Prop where
  arity : L.map Label.arity = Lt.map List.length
  height : st.dead = false → st.h = B + ts.length

/-- The height the pass knows about. -/
def State.height (st : State) : Option Nat := if st.dead then none else some st.h

variable {Lt : List (List ValType)} {B : Nat} {ts ts' us : List ValType} {o : Operator}

theorem Tracks.label (h : Tracks L Lt B ts st) {k : Nat} {lt : List ValType} (hk : Lt[k]? = some lt) :
    ∃ l, L[k]? = some l ∧ l.arity = lt.length := by
  have := congrArg (·[k]?) h.arity
  simp only [List.getElem?_map, hk, Option.map_some] at this
  obtain ⟨l, hl, ha⟩ := Option.map_eq_some_iff.mp this
  exact ⟨l, hl, ha⟩

/-- What a typed operator leaves behind, when it is lowered. -/
structure OpOutcome (C : Ctx) (L : List Label) (Lt : List (List ValType)) (B : Nat)
    (ts' : List ValType) (o : Operator) (st : State) (is : Items) (st' : State) : Prop where
  tracks : Tracks L Lt B ts' st'
  pc : st'.pc = st.pc + is.length
  dead : st'.dead = (st.dead || o.transfers)
  height : st'.height = o.height C st.height

/-- Every target of the operator finds its operands. -/
def TargetsFit (L : List Label) (o : Operator) (st : State) : Prop :=
  ∀ k ∈ o.targets, ∀ l, L[k]? = some l → st.dead = false → l.base + l.arity + o.condition ≤ st.h

/-- Nothing but the heights can make the lowering reject the operator. -/
structure Allowed (env : LowerEnv) (o : Operator) : Prop where
  accepted : accepted o = true
  imports : ∀ fi, o = .returnCall fi → env.nImports ≤ fi
  scratch : o.isBrTable = true → env.scratch.isSome = true

theorem allowed_of (ha : accepted o = true) (hret : ∀ fi, o ≠ .returnCall fi)
    (htab : o.isBrTable = false) : Allowed env o where
  accepted := ha
  imports fi h := absurd h (hret fi)
  scratch h := absurd (htab.symm.trans h) Bool.false_ne_true

theorem height_killed (st : State) (o : Operator) (ht : o.transfers = true) (pc h : Nat)
    (consts : List Slot) : State.height ⟨pc, consts, h, true⟩ = o.height C st.height := by
  simp [State.height, Operator.height, ht]

/-- The outcome of an operator behind which nothing is reached. -/
theorem outcome_killed (htr : Tracks L Lt B ts st) (ht : o.transfers = true) (is : Items)
    (consts : List Slot) (h : Nat) :
    OpOutcome C L Lt B ts' o st is ⟨st.pc + is.length, consts, h, true⟩ :=
  ⟨⟨htr.arity, fun h => by cases h⟩, rfl, by simp [ht], height_killed st o ht ..⟩

theorem taken_height (htr : Tracks L Lt B (.i32 :: ts) st) :
    (st.dead = false → 1 ≤ st.h) ∧ (st.dead = false → st.taken.h = B + ts.length) := by
  refine ⟨fun h => ?_, fun h => ?_⟩
  · have := htr.height h
    rw [List.length_cons] at this
    omega
  · have := htr.height h
    rw [List.length_cons] at this
    simp only [State.taken, State.after, h, Bool.false_eq_true, if_false]
    omega

theorem fits_taken {l : Label} (h1 : st.dead = false → 1 ≤ st.h) :
    l.Fits st.taken ↔ (st.dead = false → l.base + l.arity + 1 ≤ st.h) := by
  unfold Label.Fits State.taken State.after
  refine forall_congr' fun h => ?_
  have := h1 h
  simp only [show st.dead = false from h, Bool.false_eq_true, if_false]
  omega

/-- A typed operator is lowered if nothing but its height could be against it and its targets find
their operands. -/
theorem operator_some (ghost : Bool) (hd : Describes env C) (hstep : OpStep C Lt o ts ts')
    (htr : Tracks L Lt B ts st) (hall : Allowed env o) (hfit : TargetsFit L o st) :
    ∃ is st', operator env L ghost o st = some (is, st') ∧ OpOutcome C L Lt B ts' o st is st' := by
  cases hstep with
  | op ho =>
    rename_i ps qs ts
    have hn : st.dead = false → ps.length ≤ st.h := fun h => by
      have := htr.height h
      rw [List.length_append] at this
      omega
    obtain ⟨is, consts, hop⟩ := operator_accepted L ghost hd ho hall.accepted hn
    refine ⟨is, _, hop, ⟨htr.arity, fun h => ?_⟩, rfl, ?_, ?_⟩
    · have hh := htr.height h
      rw [List.length_append] at hh ⊢
      simp only [State.after, show st.dead = false from h, Bool.false_eq_true, if_false]
      omega
    · simp [(OpTyped.transfers_eq ho).1]
    · unfold State.height Operator.height
      rw [(OpTyped.transfers_eq ho).1, OpTyped.arity_eq ho hall.accepted]
      cases hdead : st.dead <;> simp [State.after, hdead]
  | unreachable => exact ⟨_, _, rfl, outcome_killed htr rfl [_] st.consts st.h⟩
  | br hl =>
    rename_i k lt ts
    obtain ⟨l, hk, ha⟩ := htr.label hl
    have hf : l.Fits st := fun h => hfit _ (List.mem_singleton_self _) l hk h
    refine ⟨_, _, ?_, outcome_killed htr rfl (branchItems env ghost l k st) st.consts st.h⟩
    simp only [operator]
    rw [branch_some env L ghost st hk hf]
    rfl
  | brIf hl =>
    obtain ⟨l, hk, ha⟩ := htr.label hl
    obtain ⟨h1, h2⟩ := taken_height htr
    have hf : l.Fits st.taken := (fits_taken h1).mpr fun h => hfit _ (List.mem_singleton_self _) l hk h
    refine ⟨_, _, branchIf_some env L ghost st hk h1 hf, ⟨htr.arity, h2⟩, rfl, ?_, ?_⟩
    · simp [State.taken, Operator.transfers]
    · unfold State.height Operator.height
      cases hdead : st.dead <;> simp [State.taken, State.after, hdead, Operator.transfers, Operator.arity]
  | brTable hls =>
    obtain ⟨h1, h2⟩ := taken_height htr
    obtain ⟨scratch, hs⟩ := Option.isSome_iff_exists.mp (hall.scratch rfl)
    obtain ⟨is, consts, htab⟩ := table_some env L ghost st hs h1 fun k hk => by
      obtain ⟨lt', hlt', -⟩ := hls k hk
      obtain ⟨l, hl, -⟩ := htr.label hlt'
      exact ⟨l, hl, (fits_taken h1).mpr fun h => hfit k hk l hl h⟩
    exact ⟨is, _, htab, outcome_killed htr rfl is consts _⟩
  | return_ => exact ⟨_, _, rfl, outcome_killed htr rfl [_] st.consts st.h⟩
  | returnCall hf ht hres =>
    rename_i fi ti ft ts
    have hop : operator env L ghost (.returnCall fi) st =
        some (kill (emit ghost ⟨.returnCall, 0, fi⟩ st)) := by
      simp only [operator]
      rw [if_neg (by have := hall.imports _ rfl; omega)]
    exact ⟨_, _, hop, outcome_killed htr rfl [_] st.consts st.h⟩

theorem operator_none (hstep : OpStep C Lt o ts ts') (htr : Tracks L Lt B ts st)
    (hno : ¬ (Allowed env o ∧ TargetsFit L o st)) : operator env L ghost o st = none := by
  cases hstep with
  | op ho =>
    refine operator_rejected ho (Bool.not_eq_true _ ▸ fun ha => hno ⟨⟨ha, ?_, ?_⟩, ?_⟩)
    · rintro fi rfl
      cases ho
    · intro ht
      cases ho <;> cases ht
    · intro k hk
      rw [(OpTyped.transfers_eq ho).2] at hk
      cases hk
  | unreachable =>
    exact absurd ⟨allowed_of rfl (fun fi h => by cases h) rfl, fun k hk => by cases hk⟩ hno
  | br hl =>
    obtain ⟨l, hk, ha⟩ := htr.label hl
    have hf : ¬ l.Fits st := by
      intro hf
      refine hno ⟨allowed_of rfl (fun fi h => by cases h) rfl, fun k' hk' l' hl' h => ?_⟩
      rw [List.mem_singleton.mp hk', hk] at hl'
      cases hl'
      exact hf h
    simp only [operator]
    rw [branch_none env L ghost st hk hf]
    rfl
  | brIf hl =>
    obtain ⟨l, hk, ha⟩ := htr.label hl
    obtain ⟨h1, h2⟩ := taken_height htr
    have hf : ¬ l.Fits st.taken := by
      intro hf
      refine hno ⟨allowed_of rfl (fun fi h => by cases h) rfl, fun k' hk' l' hl' h => ?_⟩
      rw [List.mem_singleton.mp hk', hk] at hl'
      cases hl'
      exact (fits_taken h1).mp hf h
    exact branchIf_none env L ghost st hk h1 hf
  | brTable hls =>
    rename_i ks k lt ts
    obtain ⟨h1, h2⟩ := taken_height htr
    have hlab : ∀ k' ∈ ks ++ [k], ∃ l, L[k']? = some l := fun k' hk' => by
      obtain ⟨lt', hlt', -⟩ := hls k' hk'
      obtain ⟨l, hl, -⟩ := htr.label hlt'
      exact ⟨l, hl⟩
    cases hs : env.scratch with
    | none => simp only [operator, table, hs]
    | some scratch =>
      refine table_none env L ghost st h1 hlab ?_
      by_contra hall
      push Not at hall
      have hallow : Allowed env (.brTable ks k) :=
        ⟨rfl, fun fi h => (by cases h), fun _ => by rw [hs]; rfl⟩
      refine hno ⟨hallow, fun k' hk' l' hl' h => ?_⟩
      exact (fits_taken h1).mp (hall k' hk' l' hl') h
  | return_ =>
    exact absurd ⟨allowed_of rfl (fun fi h => by cases h) rfl, fun k hk => by cases hk⟩ hno
  | returnCall hf ht hres =>
    simp only [operator]
    rw [if_pos]
    by_contra hi
    refine hno ⟨⟨rfl, fun fi h => ?_, fun h => (by cases h)⟩, fun k hk => by cases hk⟩
    cases h
    omega

/-! ## Inversion -/

section Inversion

variable {b els rest : Body} {bt : BlockType} {is : Items} {st' : State}

theorem andThen_eq_some {y : Option (Items × State)} {y' : State → Option (Items × State)} :
    andThen y y' = some (is, st') ↔
      ∃ is1 st1 is2, y = some (is1, st1) ∧ y' st1 = some (is2, st') ∧ is = is1 ++ is2 := by
  unfold andThen
  constructor
  · intro h
    obtain ⟨⟨is1, st1⟩, h1, h2⟩ := Option.bind_eq_some_iff.mp h
    obtain ⟨⟨is2, st2⟩, h3, h4⟩ := Option.map_eq_some_iff.mp h2
    cases h4
    exact ⟨is1, st1, is2, h1, h3, rfl⟩
  · rintro ⟨is1, st1, is2, h1, h2, rfl⟩
    rw [h1, Option.bind_some, h2]
    rfl

theorem toOption_eq_some {α : Type} {x : Except String α} {a : α} :
    x.toOption = some a ↔ x = .ok a := by
  cases x <;> simp [Except.toOption]

theorem body_op_some :
    body env L ghost st (.op o rest) = some (is, st') ↔
      ∃ is1 st1 is2, operator env L ghost o st = some (is1, st1) ∧
        body env L ghost st1 rest = some (is2, st') ∧ is = is1 ++ is2 := by
  rw [body, andThen_eq_some]

theorem andThen_map_some {y : Option (Items × State)} {f : Items × State → Items × State}
    {y' : State → Option (Items × State)} :
    andThen (y.map f) y' = some (is, st') ↔
      ∃ isb stb isr, y = some (isb, stb) ∧ y' (f (isb, stb)).2 = some (isr, st') ∧
        is = (f (isb, stb)).1 ++ isr := by
  rw [andThen_eq_some]
  constructor
  · rintro ⟨is1, st1, is2, h1, h2, rfl⟩
    obtain ⟨⟨isb, stb⟩, h3, h4⟩ := Option.map_eq_some_iff.mp h1
    exact ⟨isb, stb, is2, h3, by rw [h4]; exact h2, by rw [h4]⟩
  · rintro ⟨isb, stb, isr, h1, h2, rfl⟩
    exact ⟨_, _, isr, by rw [h1]; rfl, h2, rfl⟩

theorem body_block_some :
    body env L ghost st (.block bt b rest) = some (is, st') ↔
      ∃ a, blockArity bt env.funcTypes = .ok a ∧ ∃ base, enter a.1 st = some base ∧
        ∃ isb stb isr, body env (⟨none, base, a.2⟩ :: L) ghost st b = some (isb, stb) ∧
          body env L ghost (st.leave base a.2 stb) rest = some (isr, st') ∧
          is = close stb.pc isb ++ isr := by
  rw [body]
  simp only [Option.bind_eq_some_iff, toOption_eq_some, andThen_map_some]

theorem body_loop_some :
    body env L ghost st (.loop bt b rest) = some (is, st') ↔
      ∃ a, blockArity bt env.funcTypes = .ok a ∧ ∃ base, enter a.1 st = some base ∧
        ∃ isb stb isr, body env (⟨some st.pc, base, a.1⟩ :: L) ghost st b = some (isb, stb) ∧
          body env L ghost (st.leave base a.2 stb) rest = some (isr, st') ∧
          is = close stb.pc isb ++ isr := by
  rw [body]
  simp only [Option.bind_eq_some_iff, toOption_eq_some, andThen_map_some]

theorem body_ifThen_some :
    body env L ghost st (.ifThen bt b rest) = some (is, st') ↔
      ∃ a, blockArity bt env.funcTypes = .ok a ∧ ∃ st0, consume 1 0 st = some st0 ∧
        ∃ base, enter a.1 st0 = some base ∧
        ∃ isb stb isr,
          body env (⟨none, base, a.2⟩ :: L) ghost { st0 with pc := st.pc + 1 } b = some (isb, stb) ∧
          body env L ghost (st.leave base a.2 stb) rest = some (isr, st') ∧
          is = ((.code ⟨.brIfNot, 0, stb.pc⟩, st.mark ghost st.h) :: close stb.pc isb) ++ isr := by
  rw [body]
  simp only [Option.bind_eq_some_iff, toOption_eq_some, andThen_map_some]

theorem body_ifElse_some :
    body env L ghost st (.ifElse bt b els rest) = some (is, st') ↔
      ∃ a, blockArity bt env.funcTypes = .ok a ∧ ∃ st0, consume 1 0 st = some st0 ∧
        ∃ base, enter a.1 st0 = some base ∧
        ∃ isb stb ise ste isr,
          body env (⟨none, base, a.2⟩ :: L) ghost { st0 with pc := st.pc + 1 } b = some (isb, stb) ∧
          body env (⟨none, base, a.2⟩ :: L) (ghost || st.dead)
            { stb with pc := stb.pc + 1, h := base + a.1, dead := false } els = some (ise, ste) ∧
          body env L ghost (st.leave base a.2 ste) rest = some (isr, st') ∧
          is = ((.code ⟨.brIfNot, 0, stb.pc + 1⟩, st.mark ghost st.h) ::
            (close ste.pc isb ++ (.code ⟨.br, 0, ste.pc⟩, stb.mark ghost stb.h) ::
              close ste.pc ise)) ++ isr := by
  rw [body]
  simp only [Option.bind_eq_some_iff, toOption_eq_some, andThen_eq_some, Option.map_eq_some_iff]
  constructor
  · rintro ⟨a, ha, st0, h0, base, hb, is1, st1, is2, ⟨⟨isb, stb⟩, h1, ⟨ise, ste⟩, h2, h3⟩, h4, rfl⟩
    cases h3
    exact ⟨a, ha, st0, h0, base, hb, isb, stb, ise, ste, is2, h1, h2, h4, rfl⟩
  · rintro ⟨a, ha, st0, h0, base, hb, isb, stb, ise, ste, isr, h1, h2, h3, rfl⟩
    exact ⟨a, ha, st0, h0, base, hb, _, _, isr, ⟨_, h1, _, h2, rfl⟩, h3, rfl⟩

end Inversion

/-! ## Heights of bodies -/

/-- An operator that has been lowered. -/
theorem operator_outcome (hd : Describes env C) (hstep : OpStep C Lt o ts ts')
    (htr : Tracks L Lt B ts st) {is : Items} {st' : State}
    (h : operator env L ghost o st = some (is, st')) :
    Allowed env o ∧ TargetsFit L o st ∧ OpOutcome C L Lt B ts' o st is st' := by
  by_cases hall : Allowed env o ∧ TargetsFit L o st
  · obtain ⟨is', st'', h3, h4⟩ := operator_some ghost hd hstep htr hall.1 hall.2
    rw [h] at h3
    cases h3
    exact ⟨hall.1, hall.2, h4⟩
  · rw [operator_none hstep htr hall] at h
    cases h

/-- Entering a block of type `ft`: the height below its operands, and the state in its body. -/
theorem enter_tracks {ft : FuncType} {base : Nat} (htr : Tracks L Lt B (ft.1.reverse ++ ts) st)
    (he : enter ft.1.length st = some base) (l : Label) (lt : List ValType)
    (hb : l.base = base) (ha : l.arity = lt.length) :
    (st.dead = false → base = B + ts.length) ∧ Tracks (l :: L) (lt :: Lt) base ft.1.reverse st := by
  have hbase : st.dead = false → base = B + ts.length ∧ st.h = base + ft.1.length := by
    intro hdead
    have hh := htr.height hdead
    unfold enter at he
    rw [List.length_append, List.length_reverse] at hh
    simp only [hdead, Bool.false_eq_true, if_false] at he
    split_ifs at he with hlt
    cases he
    omega
  refine ⟨fun h => (hbase h).1, ⟨?_, fun h => ?_⟩⟩
  · rw [List.map_cons, List.map_cons, htr.arity, ha]
  · rw [List.length_reverse]
    exact (hbase h).2

theorem leave_tracks (ft : FuncType) {base : Nat} (stb : State)
    (htr : Tracks L Lt B us st) (hbase : st.dead = false → base = B + ts.length) :
    Tracks L Lt B (ft.2.reverse ++ ts) (st.leave base ft.2.length stb) := by
  refine ⟨htr.arity, fun h => ?_⟩
  have := hbase h
  simp only [State.leave, List.length_append, List.length_reverse]
  omega

theorem consume_tracks {st0 : State} (htr : Tracks L Lt B (.i32 :: ts) st)
    (hc : consume 1 0 st = some st0) (pc : Nat) :
    Tracks L Lt B ts { st0 with pc := pc } ∧ st0.dead = st.dead := by
  obtain ⟨h1, h2⟩ := taken_height htr
  rw [consume_some h1] at hc
  cases hc
  exact ⟨⟨htr.arity, h2⟩, rfl⟩

theorem enter_pc (np pc : Nat) (st : State) : enter np { st with pc := pc } = enter np st := rfl

/-- Behind a valid sequence the tracked height is the length of its result type. -/
theorem body_tracks (hd : Describes env C) (b : Body) :
    ∀ {Lt r ts us}, Typed C Lt r ts b us → ∀ {L ghost st B is st'}, Tracks L Lt B ts st →
      body env L ghost st b = some (is, st') →
      (st'.dead = false → st.dead = false ∧ st'.h = B + us.length) ∧ st'.pc = st.pc + is.length := by
  induction b with
  | nil =>
    intro Lt r ts us ht L ghost st B is st' htr hb
    cases ht
    cases hb
    exact ⟨fun h => ⟨h, htr.height h⟩, rfl⟩
  | op o rest ih =>
    intro Lt r ts us ht L ghost st B is st' htr hb
    obtain ⟨r', ts', hstep, hrest⟩ := typed_op ht
    obtain ⟨is1, st1, is2, h1, h2, rfl⟩ := body_op_some.mp hb
    obtain ⟨-, -, hout⟩ := operator_outcome hd hstep htr h1
    obtain ⟨h3, h4⟩ := ih hrest hout.tracks h2
    refine ⟨fun h => ?_, ?_⟩
    · obtain ⟨h5, h6⟩ := h3 h
      rw [hout.dead, Bool.or_eq_false_iff] at h5
      exact ⟨h5.1, h6⟩
    · rw [h4, hout.pc, List.length_append, Nat.add_assoc]
  | block bt b rest ihb ihr =>
    intro Lt r ts us ht L ghost st B is st' htr hb
    cases ht with
    | block hbt hbody hrest =>
      obtain ⟨a, ha, base, he, isb, stb, isr, h1, h2, rfl⟩ := body_block_some.mp hb
      obtain rfl := hd.blockArity hbt ha
      obtain ⟨hbase, hin⟩ := enter_tracks htr he ⟨none, base, _⟩ _ rfl (List.length_reverse ..).symm
      obtain ⟨h3, h4⟩ := ihr hrest (leave_tracks _ stb htr hbase) h2
      have h5 := (ihb hbody hin h1).2
      refine ⟨h3, ?_⟩
      rw [h4, List.length_append, close_length, State.leave, h5]
      omega
  | loop bt b rest ihb ihr =>
    intro Lt r ts us ht L ghost st B is st' htr hb
    cases ht with
    | loop hbt hbody hrest =>
      obtain ⟨a, ha, base, he, isb, stb, isr, h1, h2, rfl⟩ := body_loop_some.mp hb
      obtain rfl := hd.blockArity hbt ha
      obtain ⟨hbase, hin⟩ := enter_tracks htr he ⟨some st.pc, base, _⟩ _ rfl
        (List.length_reverse ..).symm
      obtain ⟨h3, h4⟩ := ihr hrest (leave_tracks _ stb htr hbase) h2
      have h5 := (ihb hbody hin h1).2
      refine ⟨h3, ?_⟩
      rw [h4, List.length_append, close_length, State.leave, h5]
      omega
  | ifThen bt b rest ihb ihr =>
    intro Lt r ts us ht L ghost st B is st' htr hb
    cases ht with
    | ifThen hbt heq hbody hrest =>
      obtain ⟨a, ha, st0, hc, base, he, isb, stb, isr, h1, h2, rfl⟩ := body_ifThen_some.mp hb
      obtain rfl := hd.blockArity hbt ha
      obtain ⟨htr0, hdead⟩ := consume_tracks htr hc (st.pc + 1)
      obtain ⟨hbase, hin⟩ := enter_tracks htr0 he ⟨none, base, _⟩ _ rfl (List.length_reverse ..).symm
      obtain ⟨h3, h4⟩ := ihr hrest (leave_tracks _ stb htr (hdead ▸ hbase)) h2
      have h5 := (ihb hbody hin h1).2
      refine ⟨h3, ?_⟩
      rw [h4, List.length_append, List.length_cons, close_length, State.leave, h5]
      simp only
      omega
  | ifElse bt b els rest ihb ihe ihr =>
    intro Lt r ts us ht L ghost st B is st' htr hb
    cases ht with
    | ifElse hbt hbody hels hrest =>
      obtain ⟨a, ha, st0, hc, base, he, isb, stb, ise, ste, isr, h1, h2, h3, rfl⟩ :=
        body_ifElse_some.mp hb
      obtain rfl := hd.blockArity hbt ha
      obtain ⟨htr0, hdead⟩ := consume_tracks htr hc (st.pc + 1)
      obtain ⟨hbase, hin⟩ := enter_tracks htr0 he ⟨none, base, _⟩ _ rfl (List.length_reverse ..).symm
      obtain ⟨h4, h5⟩ := ihr hrest (leave_tracks _ ste htr (hdead ▸ hbase)) h3
      have h6 := (ihb hbody hin h1).2
      have h7 := (ihe hels ⟨hin.arity, fun _ => by rw [List.length_reverse]⟩ h2).2
      refine ⟨h4, ?_⟩
      rw [h5, List.length_append, List.length_cons, List.length_append, List.length_cons, close_length,
        close_length, State.leave, h7]
      simp only [h6]
      omega

/-! ## Which valid bodies are lowered -/

/-- The height in front of the instruction a label leads to. -/
def Label.need (l : Label) : Nat := l.base + l.arity

theorem targets_typed (hstep : OpStep C Lt o ts ts') :
    ∀ k ∈ o.targets, ∃ lt, Lt[k]? = some lt ∧ lt.length + o.condition ≤ ts.length := by
  cases hstep with
  | op ho =>
    intro k hk
    rw [(OpTyped.transfers_eq ho).2] at hk
    cases hk
  | br hl =>
    intro k hk
    rw [List.mem_singleton.mp hk]
    exact ⟨_, hl, by simp [Operator.condition]⟩
  | brIf hl =>
    intro k hk
    rw [List.mem_singleton.mp hk]
    exact ⟨_, hl, by simp [Operator.condition]⟩
  | brTable hls =>
    intro k hk
    obtain ⟨lt', h1, h2⟩ := hls k hk
    exact ⟨lt', h1, by simp [Operator.condition, h2]⟩
  | unreachable | return_ | returnCall _ _ _ => exact nofun

/-- In code that is not ghost, the targets of a valid operator find their operands. -/
theorem targetsFit_of_le (hstep : OpStep C Lt o ts ts') (htr : Tracks L Lt B ts st)
    (hle : st.dead = false → ∀ l ∈ L, l.base ≤ B) : TargetsFit L o st := by
  intro k hk l hl hdead
  obtain ⟨lt, hlt, hlen⟩ := targets_typed hstep k hk
  obtain ⟨l', hl', ha⟩ := htr.label hlt
  rw [hl] at hl'
  cases hl'
  have h1 := hle hdead l (List.mem_of_getElem? hl)
  have h2 := htr.height hdead
  omega

/-- The condition of `Contained` at an operator. -/
theorem targetsFit_iff :
    TargetsFit L o st ↔ ∀ n, st.height = some n → ∀ k ∈ o.targets, ∀ d,
      (L.map Label.need)[k]? = some d → d + o.condition ≤ n := by
  unfold TargetsFit State.height
  constructor
  · intro h n hn k hk d hkd
    rw [List.getElem?_map] at hkd
    obtain ⟨l, hl, rfl⟩ := Option.map_eq_some_iff.mp hkd
    split_ifs at hn with hdead
    cases hn
    exact h k hk l hl (by simpa using hdead)
  · intro h k hk l hl hdead
    exact h st.h (by simp [hdead]) k hk l.need (by rw [List.getElem?_map, hl]; rfl)

/-- Nothing but the heights is against a supported operator. -/
theorem allowed_of_supported (hstep : OpStep C Lt o ts ts') (hs : o.supported = true)
    (himp : ∀ fi, o = .returnCall fi → env.nImports ≤ fi) (hm : C.memories ≤ 1) (ht : C.tables ≤ 1)
    (hscr : o.isBrTable = true → env.scratch.isSome = true) : Allowed env o := by
  refine ⟨?_, himp, hscr⟩
  cases hstep with
  | op ho =>
    cases ho with
    | callIndirect _ hb =>
      simp only [accepted, beq_iff_eq]
      omega
    | load _ hmem | store _ hmem | memorySize hmem | memoryGrow hmem | memoryFill hmem
      | memoryInit _ hmem =>
      simp only [accepted, beq_iff_eq]
      omega
    | memoryCopy hmem hmem' =>
      simp only [accepted, Bool.and_eq_true, beq_iff_eq]
      omega
    | refFunc _ | refNull _ | other _ _ _ => cases hs
    | _ => rfl
  | _ => rfl

theorem Describes.blockArity_ok (hd : Describes env C) {bt : BlockType} {ft : FuncType}
    (hs : bt.supported = true) (he : bt.expand C.types = some ft) :
    CuWasm.blockArity bt env.funcTypes = .ok (ft.1.length, ft.2.length) ∧
      bt.arity C.types = (ft.1.length, ft.2.length) := by
  refine ⟨?_, by simp only [BlockType.arity, he]⟩
  cases ha : CuWasm.blockArity bt env.funcTypes with
  | ok a => rw [hd.blockArity he ha]
  | error e =>
    unfold CuWasm.blockArity at ha
    cases bt with
    | empty => cases ha
    | type t => cases t <;> simp [BlockType.supported] at hs <;> simp at ha
    | funcType idx =>
      rw [hd.types] at ha
      have hft : C.types[idx]? = some ft := he
      simp only [hft] at ha
      cases ha

theorem enter_some {ft : FuncType} (htr : Tracks L Lt B (ft.1.reverse ++ ts) st) :
    enter ft.1.length st = some (below ft.1.length st.height) := by
  unfold enter State.height below
  cases hdead : st.dead with
  | true => rfl
  | false =>
    have := htr.height hdead
    rw [List.length_append, List.length_reverse] at this
    rw [if_neg (by simp), if_neg (by omega)]
    simp

theorem leave_height {np nr : Nat} {stb : State} :
    (st.leave (below np st.height) nr stb).height = behind np nr st.height := by
  unfold State.height State.leave below behind
  cases st.dead <;> rfl

/-- In code that is not ghost, the operands of every enclosing block start below those of the
innermost one. -/
def Nested (L : List Label) (ghost : Bool) (B : Nat) (st : State) : Prop :=
  st.dead = false → ghost = false → ∀ l ∈ L, l.base ≤ B

theorem Nested.enter {l : Label} (hn : Nested L ghost B st)
    (hbase : st.dead = false → l.base = B + ts.length) {ghost' : Bool} {st' : State}
    (h : st'.dead = false → ghost' = false → st.dead = false ∧ ghost = false) :
    Nested (l :: L) ghost' l.base st' := by
  intro h1 h2 l' hl'
  obtain ⟨h3, h4⟩ := h h1 h2
  obtain rfl | hl' := List.mem_cons.mp hl'
  · exact le_rfl
  · have := hn h3 h4 l' hl'
    have := hbase h3
    omega

/-- The condition of an `if` is taken off the stack. -/
theorem consume_condition (htr : Tracks L Lt B (.i32 :: ts) st) :
    ∃ st0, consume 1 0 st = some st0 ∧ st0.dead = st.dead ∧
      ∀ pc, State.height { st0 with pc := pc } = st.height.map (· - 1) := by
  refine ⟨_, consume_some (taken_height htr).1, rfl, fun pc => ?_⟩
  unfold State.height State.after
  cases hdead : st.dead <;> simp

section Accept

variable (hd : Describes env C) (hm : C.memories ≤ 1) (ht : C.tables ≤ 1)

include hd hm ht

/-- A valid supported body is lowered if and only if the branches out of its ghost code fit. -/
theorem body_some_iff (b : Body) :
    ∀ {Lt r ts us}, Typed C Lt r ts b us → b.Supported env.nImports →
      (∀ o ∈ b.flatten, o.isBrTable = true → env.scratch.isSome = true) →
      ∀ {L ghost st B}, Tracks L Lt B ts st → Nested L ghost B st →
      ((∃ is st', body env L ghost st b = some (is, st')) ↔
        b.Contained C (L.map Label.need) ghost st.height) := by
  induction b with
  | nil =>
    intro Lt r ts us _ _ _ L ghost st B _ _
    exact ⟨fun _ => trivial, fun _ => ⟨_, _, rfl⟩⟩
  | op o rest ih =>
    intro Lt r ts us hty hs hscr L ghost st B htr hn
    obtain ⟨r', ts', hstep, hrest⟩ := typed_op hty
    have hall := allowed_of_supported hstep hs.1 hs.2.1 hm ht (hscr o (List.mem_cons_self ..))
    have hfit : TargetsFit L o st ↔ (ghost = true → ∀ n, st.height = some n → ∀ k ∈ o.targets,
        ∀ d, (L.map Label.need)[k]? = some d → d + o.condition ≤ n) := by
      cases ghost with
      | true => simpa using targetsFit_iff
      | false => simpa using targetsFit_of_le hstep htr fun h => hn h rfl
    have hnext : ∀ {is1 st1}, operator env L ghost o st = some (is1, st1) →
        ((∃ is st', body env L ghost st1 rest = some (is, st')) ↔
          rest.Contained C (L.map Label.need) ghost (o.height C st.height)) := by
      intro is1 st1 h1
      obtain ⟨-, -, hout⟩ := operator_outcome hd hstep htr h1
      rw [← hout.height]
      refine ih hrest hs.2.2 (fun o' ho' => hscr o' (List.mem_cons_of_mem _ ho')) hout.tracks ?_
      intro h
      rw [hout.dead, Bool.or_eq_false_iff] at h
      exact hn h.1
    rw [Body.Contained, ← hfit]
    constructor
    · rintro ⟨is, st', hb⟩
      obtain ⟨is1, st1, is2, h1, h2, rfl⟩ := body_op_some.mp hb
      exact ⟨(operator_outcome hd hstep htr h1).2.1, (hnext h1).mp ⟨is2, st', h2⟩⟩
    · rintro ⟨h1, h2⟩
      obtain ⟨is1, st1, hop, -⟩ := operator_some ghost hd hstep htr hall h1
      obtain ⟨is2, st', hb⟩ := (hnext hop).mpr h2
      exact ⟨_, st', body_op_some.mpr ⟨is1, st1, is2, hop, hb, rfl⟩⟩
  | block bt b rest ihb ihr =>
    intro Lt r ts us hty hs hscr L ghost st B htr hn
    cases hty with
    | block hbt hbody hrest =>
      rename_i ft ts
      obtain ⟨hbt1, hbt2⟩ := hd.blockArity_ok hs.1 hbt
      have he := enter_some htr
      obtain ⟨hbase, hin⟩ := enter_tracks htr he ⟨none, below ft.1.length st.height, ft.2.length⟩ _ rfl
        (List.length_reverse ..).symm
      have h1 := ihb hbody hs.2.1 (fun o ho => hscr o (by simp [Body.flatten, ho])) hin
        (Nested.enter (l := ⟨none, below ft.1.length st.height, ft.2.length⟩) hn hbase
          fun h1 h2 => ⟨h1, h2⟩)
      have h2 := fun stb => ihr hrest hs.2.2 (fun o ho => hscr o (by simp [Body.flatten, ho]))
        (leave_tracks _ stb htr hbase) (hn : Nested L ghost B (st.leave _ _ stb))
      simp only [leave_height] at h2
      rw [Body.Contained, hbt2]
      constructor
      · rintro ⟨is, st', hb⟩
        obtain ⟨a, ha, base, he', isb, stb, isr, h3, h4, -⟩ := body_block_some.mp hb
        rw [hbt1] at ha
        cases ha
        rw [he] at he'
        cases he'
        exact ⟨h1.mp ⟨_, _, h3⟩, (h2 stb).mp ⟨_, _, h4⟩⟩
      · rintro ⟨h3, h4⟩
        obtain ⟨isb, stb, h5⟩ := h1.mpr h3
        obtain ⟨isr, st', h6⟩ := (h2 stb).mpr h4
        exact ⟨_, st', body_block_some.mpr ⟨_, hbt1, _, he, isb, stb, isr, h5, h6, rfl⟩⟩
  | loop bt b rest ihb ihr =>
    intro Lt r ts us hty hs hscr L ghost st B htr hn
    cases hty with
    | loop hbt hbody hrest =>
      rename_i ft ts
      obtain ⟨hbt1, hbt2⟩ := hd.blockArity_ok hs.1 hbt
      have he := enter_some htr
      obtain ⟨hbase, hin⟩ := enter_tracks htr he
        ⟨some st.pc, below ft.1.length st.height, ft.1.length⟩ _ rfl (List.length_reverse ..).symm
      have h1 := ihb hbody hs.2.1 (fun o ho => hscr o (by simp [Body.flatten, ho])) hin
        (Nested.enter (l := ⟨some st.pc, below ft.1.length st.height, ft.1.length⟩) hn hbase
          fun h1 h2 => ⟨h1, h2⟩)
      have h2 := fun stb => ihr hrest hs.2.2 (fun o ho => hscr o (by simp [Body.flatten, ho]))
        (leave_tracks _ stb htr hbase) (hn : Nested L ghost B (st.leave _ _ stb))
      simp only [leave_height] at h2
      rw [Body.Contained, hbt2]
      constructor
      · rintro ⟨is, st', hb⟩
        obtain ⟨a, ha, base, he', isb, stb, isr, h3, h4, -⟩ := body_loop_some.mp hb
        rw [hbt1] at ha
        cases ha
        rw [he] at he'
        cases he'
        exact ⟨h1.mp ⟨_, _, h3⟩, (h2 stb).mp ⟨_, _, h4⟩⟩
      · rintro ⟨h3, h4⟩
        obtain ⟨isb, stb, h5⟩ := h1.mpr h3
        obtain ⟨isr, st', h6⟩ := (h2 stb).mpr h4
        exact ⟨_, st', body_loop_some.mpr ⟨_, hbt1, _, he, isb, stb, isr, h5, h6, rfl⟩⟩
  | ifThen bt b rest ihb ihr =>
    intro Lt r ts us hty hs hscr L ghost st B htr hn
    cases hty with
    | ifThen hbt heq hbody hrest =>
      rename_i ft ts
      obtain ⟨hbt1, hbt2⟩ := hd.blockArity_ok hs.1 hbt
      obtain ⟨st0, hc, hdead, hh⟩ := consume_condition htr
      obtain ⟨htr0, -⟩ := consume_tracks htr hc (st.pc + 1)
      have he := enter_some htr0
      rw [hh] at he
      obtain ⟨hbase, hin⟩ := enter_tracks htr0 he
        ⟨none, below ft.1.length (st.height.map (· - 1)), ft.2.length⟩ _ rfl
        (List.length_reverse ..).symm
      have h1 := ihb hbody hs.2.1 (fun o ho => hscr o (by simp [Body.flatten, ho])) hin
        (Nested.enter (l := ⟨none, below ft.1.length (st.height.map (· - 1)), ft.2.length⟩) hn
          (hdead ▸ hbase) fun h1 h2 => ⟨hdead ▸ h1, h2⟩)
      have h2 := fun stb => ihr hrest hs.2.2 (fun o ho => hscr o (by simp [Body.flatten, ho]))
        (leave_tracks _ stb htr (hdead ▸ hbase)) (hn : Nested L ghost B (st.leave _ _ stb))
      have hleave : ∀ stb nr, (st.leave (below ft.1.length (st.height.map (· - 1))) nr stb).height =
          behind ft.1.length nr (st.height.map (· - 1)) := by
        intro stb nr
        unfold State.height State.leave below behind
        cases st.dead <;> rfl
      simp only [hleave] at h2
      simp only [hh] at h1
      rw [Body.Contained, hbt2]
      constructor
      · rintro ⟨is, st', hb⟩
        obtain ⟨a, ha, st0', hc', base, he', isb, stb, isr, h3, h4, -⟩ := body_ifThen_some.mp hb
        rw [hbt1] at ha
        cases ha
        rw [hc] at hc'
        cases hc'
        rw [← enter_pc _ (st.pc + 1), he] at he'
        cases he'
        exact ⟨h1.mp ⟨_, _, h3⟩, (h2 stb).mp ⟨_, _, h4⟩⟩
      · rintro ⟨h3, h4⟩
        obtain ⟨isb, stb, h5⟩ := h1.mpr h3
        obtain ⟨isr, st', h6⟩ := (h2 stb).mpr h4
        exact ⟨_, st', body_ifThen_some.mpr ⟨_, hbt1, st0, hc, _, he, isb, stb, isr, h5, h6, rfl⟩⟩
  | ifElse bt b els rest ihb ihe ihr =>
    intro Lt r ts us hty hs hscr L ghost st B htr hn
    cases hty with
    | ifElse hbt hbody hels hrest =>
      rename_i ft ts
      obtain ⟨hbt1, hbt2⟩ := hd.blockArity_ok hs.1 hbt
      obtain ⟨st0, hc, hdead, hh⟩ := consume_condition htr
      obtain ⟨htr0, -⟩ := consume_tracks htr hc (st.pc + 1)
      have he := enter_some htr0
      rw [hh] at he
      set base := below ft.1.length (st.height.map (· - 1)) with hbasedef
      obtain ⟨hbase, hin⟩ := enter_tracks htr0 he ⟨none, base, ft.2.length⟩ _ rfl
        (List.length_reverse ..).symm
      have h1 := ihb hbody hs.2.1 (fun o ho => hscr o (by simp [Body.flatten, ho])) hin
        (Nested.enter (l := ⟨none, base, ft.2.length⟩) hn (hdead ▸ hbase)
          fun h1 h2 => ⟨hdead ▸ h1, h2⟩)
      have h2 : ∀ stb : State, (∃ is st', body env (⟨none, base, ft.2.length⟩ :: L) (ghost || st.dead)
            { stb with pc := stb.pc + 1, h := base + ft.1.length, dead := false } els =
              some (is, st')) ↔
          els.Contained C ((base + ft.2.length) :: L.map Label.need) (ghost || st.dead)
            (some (base + ft.1.length)) := fun stb => by
        refine ihe hels hs.2.2.1 (fun o ho => hscr o (by simp [Body.flatten, ho]))
          ⟨hin.arity, fun _ => by rw [List.length_reverse]⟩
          (Nested.enter (l := ⟨none, base, ft.2.length⟩) hn (hdead ▸ hbase) fun _ h2 => ?_)
        rw [Bool.or_eq_false_iff] at h2
        exact ⟨h2.2, h2.1⟩
      have h3 := fun stb => ihr hrest hs.2.2.2 (fun o ho => hscr o (by simp [Body.flatten, ho]))
        (leave_tracks _ stb htr (hdead ▸ hbase)) (hn : Nested L ghost B (st.leave _ _ stb))
      have hleave : ∀ stb nr, (st.leave base nr stb).height =
          behind ft.1.length nr (st.height.map (· - 1)) := by
        intro stb nr
        rw [hbasedef]
        unfold State.height State.leave below behind
        cases st.dead <;> rfl
      have hnone : (st.height.map (· - 1)).isNone = st.dead := by
        unfold State.height
        cases st.dead <;> rfl
      simp only [hleave] at h3
      simp only [hh] at h1
      rw [Body.Contained, hbt2]
      simp only [hnone]
      constructor
      · rintro ⟨is, st', hb⟩
        obtain ⟨a, ha, st0', hc', base', he', isb, stb, ise, ste, isr, h4, h5, h6, -⟩ :=
          body_ifElse_some.mp hb
        rw [hbt1] at ha
        cases ha
        rw [hc] at hc'
        cases hc'
        rw [← enter_pc _ (st.pc + 1), he] at he'
        cases he'
        exact ⟨h1.mp ⟨_, _, h4⟩, (h2 stb).mp ⟨_, _, h5⟩, (h3 ste).mp ⟨_, _, h6⟩⟩
      · rintro ⟨h4, h5, h6⟩
        obtain ⟨isb, stb, h7⟩ := h1.mpr h4
        obtain ⟨ise, ste, h8⟩ := (h2 stb).mpr h5
        obtain ⟨isr, st', h9⟩ := (h3 ste).mpr h6
        exact ⟨_, st', body_ifElse_some.mpr
          ⟨_, hbt1, st0, hc, _, he, isb, stb, ise, ste, isr, h7, h8, h9, rfl⟩⟩

end Accept

end Structured

end CuWasm
