import CuWasm.Computation
import CuWasm.Proofs.LowerProofs

/-!
# The first instruction

Without operands a sequence that only computes begins with a jump or a push, or it ends at once.
-/

namespace CuWasm

open Wasm Structured

variable {H : Type} {I : Instance H} {again : Eval H} {env : LowerEnv} {L : List Label} {ghost : Bool}
  {st st' : State} {is : Items} {ls : List Nat} {s : Wasm.Store H} {w : Option (Wasm.Outcome H)}

/-- The outcome `w` of a sequence without operands, as far as the first of its items tells it. It begins
with a jump or with an instruction that pushes a value, unless it comes to an end at once. -/
def Opens (w : Option (Wasm.Outcome H)) (ls : List Nat) (s : Wasm.Store H) : Option Item → Prop
  | none => w = some (.next [] ls s)
  | some (.jump _) => True
  | some (.code i) =>
    match i.op with
    | .unreachable => w = some (.trap .unreachable s)
    | .ret => w = some (.ret [] s)
    | .globalGet => i.b < s.globals.length
    | .br | .i64Const | .localGet => True
    | _ => False

theorem Opens.resolve {i : Option Item} (h : Opens w ls s i) (t : Nat) : Opens w ls s (i.map (Item.resolve t)) := by
  cases i with
  | none => exact h
  | some i =>
    cases i with
    | code i => exact h
    | jump k => cases k <;> trivial

/-- The outcome may change where the first item tells nothing about it. -/
theorem Opens.imp {w' : Option (Wasm.Outcome H)} {i : Item} (h : Opens w ls s (some i))
    (htrap : w = some (.trap .unreachable s) → w' = some (.trap .unreachable s))
    (hret : w = some (.ret [] s) → w' = some (.ret [] s)) : Opens w' ls s (some i) := by
  cases i with
  | jump k => trivial
  | code i =>
    obtain ⟨op, a, b⟩ := i
    cases op <;> first | exact htrap h | exact hret h | exact h

theorem close_head (t : Nat) (is : Items) :
    (close t is).head?.map (·.1) = (is.head?.map (·.1)).map (Item.resolve t) := by
  cases is with
  | nil => rfl
  | cons p is => rfl

/-- A block without results has none in the lowering either. -/
theorem blockArity_zero {bt : BlockType} {types : List FuncType} {a : Nat × Nat} {ft : FuncType}
    (ha : blockArity bt types = .ok a) (hft : bt.expand types = some ft) (h0 : ft.2.length = 0) :
    a.2 = 0 := by
  cases bt with
  | empty =>
    cases ha
    rfl
  | type t =>
    cases hft
    cases h0
  | funcType idx =>
    have hft' : types[idx]? = some ft := hft
    simp only [blockArity, hft'] at ha
    cases ha
    rw [h0]
    rfl

/-- The pass comes to the height 0 behind a sequence without items, unless that goes wrong. -/
def OpensBody (w : Option (Wasm.Outcome H)) (ls : List Nat) (s : Wasm.Store H) (is : Items) (st' : State) :
    Prop :=
  w = some .wrong ∨
    Opens w ls s (is.head?.map (·.1)) ∧ (is = [] → st'.dead = false ∧ st'.h = 0)

/-- A sequence without operands, and what comes behind it. -/
theorem OpensBody.andThen {is2 : Items} {st1 : State} {f : List Nat → List Nat → Wasm.Store H → Option (Wasm.Outcome H)}
    (h : OpensBody w ls s is st1)
    (h' : st1.dead = false → st1.h = 0 → OpensBody (f [] ls s) ls s is2 st') :
    OpensBody (Wasm.Outcome.andThen w f) ls s (is ++ is2) st' := by
  rcases h with rfl | ⟨h, hnil⟩
  · exact .inl rfl
  cases is with
  | nil =>
    obtain ⟨hdead, hh⟩ := hnil rfl
    have hw : w = some (.next [] ls s) := h
    rw [hw]
    exact h' hdead hh
  | cons p is =>
    refine .inr ⟨h.imp ?_ ?_, nofun⟩
    all_goals
      rintro rfl
      rfl

theorem consume_empty {pops pushes : Nat} (hdead : st.dead = false) (hh : st.h = 0) (hpops : 0 < pops) :
    consume pops pushes st = none := by
  unfold consume
  rw [if_neg (by simp [hdead]), if_pos (by omega)]

theorem opens_plain {op : Opcode} {a b pops pushes : Nat} {consts : List Slot} (hdead : st.dead = false)
    (hh : st.h = 0)
    (hb : plain ghost op a b pops pushes { st with consts := consts } = some (is, st')) :
    pops = 0 ∧ is.head?.map (·.1) = some (.code ⟨op, a, b⟩) ∧ is ≠ [] := by
  obtain ⟨st1, h1, h2⟩ := Option.map_eq_some_iff.mp hb
  cases h2
  refine ⟨?_, rfl, List.cons_ne_nil _ _⟩
  by_contra hpops
  have hnone := h1.symm.trans (consume_empty hdead hh (Nat.pos_of_ne_zero hpops))
  cases hnone

theorem opens_branch {k : Nat} (hh : st.h = 0)
    (hb : branch env L ghost k st = some (is, st')) : Opens w ls s (is.head?.map (·.1)) ∧ is ≠ [] := by
  cases hk : L[k]? with
  | none => simp [branch, hk] at hb
  | some l =>
    by_cases hf : l.Fits st
    · rw [branch_some env L ghost st hk hf] at hb
      cases hb
      have hitems : branchItems env ghost l k st = [(jumpItem l k, st.mark ghost (l.base + l.arity))] := by
        unfold branchItems
        rw [if_neg (by omega), List.nil_append]
      rw [hitems]
      refine ⟨?_, List.cons_ne_nil _ _⟩
      simp only [List.head?_cons, Option.map_some, jumpItem]
      cases l.start <;> trivial
    · rw [branch_none env L ghost st hk hf] at hb
      cases hb

theorem operator_opens {call : Nat → List Nat → Wasm.Store H → Option (Wasm.Result H)} {o : Operator}
    (ho : o.computes = true) (hop : operator env L ghost o st = some (is, st')) (hdead : st.dead = false)
    (hh : st.h = 0) : OpensBody (I.operator call o [] ls s) ls s is st' := by
  have hpush : ∀ {op a b pops pushes consts},
      plain ghost op a b pops pushes { st with consts := consts } = some (is, st') →
      Opens (I.operator call o [] ls s) ls s (some (.code ⟨op, a, b⟩)) →
      OpensBody (I.operator call o [] ls s) ls s is st' := by
    intro op a b pops pushes consts hb hopens
    obtain ⟨-, hhead, hne⟩ := opens_plain hdead hh hb
    exact .inr ⟨hhead ▸ hopens, fun h => absurd h hne⟩
  cases o with
  | nop =>
    cases hop
    exact .inr ⟨rfl, fun _ => ⟨hdead, hh⟩⟩
  | unreachable | return_ =>
    cases hop
    exact .inr ⟨rfl, nofun⟩
  | const | localGet => exact hpush hop trivial
  | globalGet i =>
    cases hi : s.globals[i]? with
    | none =>
      left
      simp only [Instance.operator, Instance.simple, hi]
    | some a => exact hpush hop (List.getElem?_eq_some_iff.mp hi).1
  | localTee i => exact .inl rfl
  | drop | select | typedSelect | globalSet | localSet =>
    exact absurd (opens_plain hdead hh hop).1 (by decide)
  | num o => exact absurd (opens_plain hdead hh hop).1 (by cases o <;> decide)
  | br k =>
    obtain ⟨⟨is1, st1⟩, hb, heq⟩ := Option.map_eq_some_iff.mp hop
    cases heq
    obtain ⟨hopens, hne⟩ := opens_branch hh hb
    exact .inr ⟨hopens, fun h => absurd h hne⟩
  | brIf k =>
    have hop' : branchIf env L ghost k st = some (is, st') := hop
    rw [branchIf, consume_empty hdead hh Nat.one_pos] at hop'
    cases hop'
  | brTable ks k =>
    simp only [operator, table] at hop
    cases hscr : env.scratch with
    | none =>
      rw [hscr] at hop
      cases hop
    | some scratch =>
      rw [hscr] at hop
      obtain ⟨is1, st1, is2, h1, -, -⟩ := andThen_eq_some.mp hop
      exact absurd (opens_plain hdead hh h1).1 Nat.one_ne_zero
  | _ => cases ho

theorem enter_empty {np base : Nat} (hdead : st.dead = false) (hh : st.h = 0) (h : Structured.enter np st = some base) :
    base = 0 := by
  unfold Structured.enter at h
  rw [if_neg (by simp [hdead])] at h
  split_ifs at h
  cases h
  omega

/-- A block without operands begins as its body does. -/
theorem inBlock_opens (hI : I.types = env.funcTypes) {bt : BlockType} {a : Nat × Nat} {t base : Nat}
    {stb : State} (ha : blockArity bt env.funcTypes = .ok a) (he : Structured.enter a.1 st = some base)
    (hdead : st.dead = false) (hh : st.h = 0)
    {run : (np nr : Nat) → (args low : List Nat) → Option (Wasm.Outcome H)}
    (hrun : ∀ np nr o, w = some o → (∀ ys ls s, o ≠ .br 0 ys ls s) → run np nr [] [] = some (o.leave nr []))
    (h : OpensBody w ls s is stb) :
    OpensBody (I.inBlock bt [] run) ls s (close t is) (st.leave base a.2 stb) := by
  unfold Instance.inBlock
  rw [hI]
  cases hft : bt.expand env.funcTypes with
  | none => exact .inl rfl
  | some ft =>
    simp only [List.take_nil, List.drop_nil]
    split_ifs
    · exact .inl rfl
    rcases h with h | ⟨h, -⟩
    · exact .inl (hrun _ _ _ h fun _ _ _ hbr => nomatch hbr)
    cases is with
    | nil =>
      have hw : w = some (.next [] ls s) := h
      rw [hrun _ _ _ hw fun _ _ _ hbr => nomatch hbr]
      by_cases h0 : ft.2.length = 0
      · refine .inr ⟨?_, fun _ => ⟨hdead, ?_⟩⟩
        · simp only [Wasm.Outcome.leave, h0]
          rfl
        · show base + a.2 = 0
          rw [enter_empty hdead hh he, blockArity_zero ha hft h0]
      · left
        simp only [Wasm.Outcome.leave, List.length_nil]
        rw [if_neg (Ne.symm h0)]
    | cons p is =>
      refine .inr ⟨?_, nofun⟩
      rw [close_head]
      refine (Opens.imp h ?_ ?_).resolve t
      all_goals
        intro hw
        exact hrun _ _ _ hw fun _ _ _ hbr => nomatch hbr

/-- How the lowering of a sequence without operands begins. -/
theorem body_opens (hI : I.types = env.funcTypes) (b : Body) (hc : b.computes = true) :
    ∀ {L st is st'}, body env L ghost st b = some (is, st') → st.dead = false → st.h = 0 →
      OpensBody (I.body again b [] ls s) ls s is st' := by
  induction b with
  | nil =>
    intro L st is st' hb hdead hh
    cases hb
    exact .inr ⟨rfl, fun _ => ⟨hdead, hh⟩⟩
  | op o rest ih =>
    intro L st is st' hb hdead hh
    simp only [Body.computes, Bool.and_eq_true] at hc
    obtain ⟨is1, st1, is2, h1, h2, rfl⟩ := andThen_eq_some.mp hb
    exact (operator_opens hc.1 h1 hdead hh).andThen fun hd hz => ih hc.2 h2 hd hz
  | block bt b rest ihb ih =>
    intro L st is st' hb hdead hh
    simp only [Body.computes, Bool.and_eq_true] at hc
    obtain ⟨a, ha, base, he, isb, stb, isr, h1, h2, rfl⟩ := body_block_some.mp hb
    refine OpensBody.andThen ?_ fun hd hz => ih hc.2 h2 hd hz
    refine inBlock_opens hI ha he hdead hh (fun _ nr o hw _ => ?_) (ihb hc.1 h1 hdead hh)
    rw [hw]
    rfl
  | loop bt b rest ihb ih =>
    intro L st is st' hb hdead hh
    simp only [Body.computes, Bool.and_eq_true] at hc
    obtain ⟨a, ha, base, he, isb, stb, isr, h1, h2, rfl⟩ := body_loop_some.mp hb
    refine OpensBody.andThen ?_ fun hd hz => ih hc.2 h2 hd hz
    refine inBlock_opens hI ha he hdead hh (fun np nr o hw hbr => ?_) (ihb hc.1 h1 hdead hh)
    rw [hw]
    split
    · rename_i ys ls s heq
      exact absurd (Option.some.inj heq) (hbr ys ls s)
    · rfl
  | ifThen bt b rest ihb ih =>
    intro L st is st' hb hdead hh
    obtain ⟨a, ha, st0, hcons, -⟩ := body_ifThen_some.mp hb
    rw [consume_empty hdead hh Nat.one_pos] at hcons
    cases hcons
  | ifElse bt b els rest ihb ihe ih =>
    intro L st is st' hb hdead hh
    obtain ⟨a, ha, st0, hcons, -⟩ := body_ifElse_some.mp hb
    rw [consume_empty hdead hh Nat.one_pos] at hcons
    cases hcons

end CuWasm
