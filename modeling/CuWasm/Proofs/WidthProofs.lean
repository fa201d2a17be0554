import CuWasm.OperandTypes
import CuWasm.Proofs.AluProofs
import CuWasm.Proofs.HeightProofs

/-!
# Widths of operands in the emitted code

A flat type system for CuOp code: a list of widths, top first, for every position of a function, and a
rule for every instruction. The widths of the Wasm types solve these rules for the code of a lowered
body. Types themselves would not, because a reinterpretation emits no instruction; it keeps the width.
-/

namespace CuWasm

open Wasm

namespace Structured

/-- The widths of types. -/
def widths (ts : List ValType) : List Nat := ts.map ValType.width

@[simp] theorem widths_length (ts : List ValType) : (widths ts).length = ts.length :=
  List.length_map ..

@[simp] theorem widths_cons (t : ValType) (ts : List ValType) :
    widths (t :: ts) = t.width :: widths ts := rfl

@[simp] theorem widths_append (ts us : List ValType) : widths (ts ++ us) = widths ts ++ widths us :=
  List.map_append ..

section Rules

variable (m : HostModule) (C : Ctx) (loc : List Nat)

/-- The widths of the operands and of the results, top first, of an instruction that goes on with the
next one. The locals of the frame have the widths `loc`; where they leave no room for an operand, no
local is ever accessed. -/
inductive Shape : CuOp → List Nat → List Nat → Prop where
  | const {b w : Nat} (h : (m.consts.getD b 0).toNat < 2 ^ w) : Shape ⟨.i64Const, 0, b⟩ [] [w]
  | localGet {a w : Nat} (h : loc.length < 65535 → loc[a]? = some w) : Shape ⟨.localGet, a, 0⟩ [] [w]
  | localSet {a w w' : Nat} (h : loc.length < 65535 → loc[a]? = some w') (hw : w ≤ w') :
      Shape ⟨.localSet, a, 0⟩ [w] []
  | num (o : NumOp) : Shape ⟨(NumOp.lower o).1, (NumOp.lower o).2.1, 0⟩ (widths o.pops) (widths o.pushes)
  | drop (w : Nat) : Shape ⟨.drop, 0, 0⟩ [w] []
  | select (c w : Nat) : Shape ⟨.select, 0, 0⟩ [c, w, w] [w]
  | globalGet {b : Nat} {t : ValType} {mutable : Bool} (h : C.globals[b]? = some (t, mutable)) :
      Shape ⟨.globalGet, 0, b⟩ [] [t.width]
  | globalSet {b : Nat} {t : ValType} {mutable : Bool} (h : C.globals[b]? = some (t, mutable)) :
      Shape ⟨.globalSet, 0, b⟩ [t.width] []
  | load (o : LoadOp) (off w : Nat) : Shape ⟨.load, LoadOp.lower o, off⟩ [w] [o.type.width]
  | store (a off w w' : Nat) : Shape ⟨.store, a, off⟩ [w, w'] []
  | memorySize : Shape ⟨.memorySize, 0, 0⟩ [] [32]
  | memoryGrow (w : Nat) : Shape ⟨.memoryGrow, 0, 0⟩ [w] [32]
  | memoryCopy (w w' w'' : Nat) : Shape ⟨.memoryCopy, 0, 0⟩ [w, w', w''] []
  | memoryFill (w w' w'' : Nat) : Shape ⟨.memoryFill, 0, 0⟩ [w, w', w''] []
  | memoryInit (a w w' w'' : Nat) : Shape ⟨.memoryInit, a, 0⟩ [w, w', w''] []
  | dataDrop (a : Nat) : Shape ⟨.dataDrop, a, 0⟩ [] []

/-- The rule of the instruction at position `n` of a function, where `K` gives the widths of the
operands of that function by position. -/
inductive WidthOk (K : Nat → List Nat) (n : Nat) : CuOp → Prop where
  | plain {i : CuOp} {ps qs r : List Nat} (hs : Shape m C loc i ps qs) (hn : K n = ps ++ r)
      (hnext : K (n + 1) = qs ++ r) : WidthOk K n i
  | unwind {a b : Nat} {top mid low : List Nat} (ha : a = top.length)
      (hb : b = loc.length + (low.length + a)) (hn : K n = top ++ (mid ++ low))
      (hnext : K (n + 1) = top ++ low) : WidthOk K n ⟨.unwind, a, b⟩
  | br {b : Nat} (hb : K b = K n) : WidthOk K n ⟨.br, 0, b⟩
  | brIfNot {b w : Nat} {r : List Nat} (hn : K n = w :: r) (hnext : K (n + 1) = r) (hb : K b = r) :
      WidthOk K n ⟨.brIfNot, 0, b⟩
  | call {fi : Nat} {ft : FuncType} {r : List Nat} (hf : C.funcType fi = some ft)
      (hn : K n = widths ft.1.reverse ++ r) (hnext : K (n + 1) = widths ft.2.reverse ++ r) :
      WidthOk K n ⟨.call, 0, fi⟩
  | callIndirect {ti w : Nat} {ft : FuncType} {r : List Nat} (ht : C.types[ti]? = some ft)
      (hn : K n = w :: (widths ft.1.reverse ++ r)) (hnext : K (n + 1) = widths ft.2.reverse ++ r) :
      WidthOk K n ⟨.callIndirect, 0, ti⟩
  | returnCall {fi : Nat} {ft : FuncType} {r : List Nat} (hf : C.funcType fi = some ft)
      (hres : ft.2 = C.results) (hn : K n = widths ft.1.reverse ++ r) :
      WidthOk K n ⟨.returnCall, 0, fi⟩
  | leave {i : CuOp} {r : List Nat} (hop : i.op = .ret ∨ i.op = .endFunc)
      (hn : K n = widths C.results.reverse ++ r) : WidthOk K n i
  | unreachable {i : CuOp} (hop : i.op = .unreachable) : WidthOk K n i

/-- The item at position `n` obeys its rule if it is reached, and its height is the number of widths. -/
def Fits (K : Nat → List Nat) (T : Nat → Nat) (n : Nat) (p : Item × Int) : Prop :=
  0 ≤ p.2 → p.2 = (K n).length ∧ WidthOk m C loc K n (p.1.render T)

/-- An assumption on the widths at the ends of the enclosing blocks. -/
abbrev AtLabels := (Nat → List Nat) → (Nat → Nat) → Prop

/-- Widths exist for the items `is` that a pass from `st` to `st'` emits: whenever `K` gives them, with
`ws'` behind the items, it gives `ws` in front and agrees with the types listed in `os`, and if the
labels are as assumed it obeys the rules. -/
def Sound (lab : AtLabels) (st st' : State) (ws ws' : List Nat) (is : Items)
    (os : List (Nat × List ValType)) : Prop :=
  ∃ tys : List (List Nat), tys.length = is.length ∧ ∀ K, tys.AllFrom (fun n t => K n = t) st.pc →
    (st'.dead = false → K st'.pc = ws') →
    (st.dead = false → K st.pc = ws) ∧ (∀ q ∈ os, K q.1 = widths q.2) ∧
      ∀ T, lab K T → is.AllFrom (Fits m C loc K T) st.pc

end Rules

variable {m : HostModule} {f : FuncMeta} {env : LowerEnv} {C : Ctx} {loc : List Nat} {lab : AtLabels}
  {st st' st1 : State} {ws ws' ws1 : List Nat} {is is1 is2 : Items}
  {os os1 os2 : List (Nat × List ValType)}

/-! ## Composition -/

theorem fits_unreached {K : Nat → List Nat} {T : Nat → Nat} {pc : Nat} (h : ∀ p ∈ is, p.2 = -1) :
    is.AllFrom (Fits m C loc K T) pc := by
  refine List.allFrom_iff.mpr fun k p hp h0 => ?_
  have := h p (List.mem_of_getElem? hp)
  omega

theorem fits_close {K : Nat → List Nat} {T : Nat → Nat} {pc t : Nat} :
    (close t is).AllFrom (Fits m C loc K T) pc ↔ is.AllFrom (Fits m C loc K (ends t T)) pc := by
  unfold close
  rw [List.allFrom_map]
  unfold Fits
  simp only [resolve_render]

/-- Nothing is asked of code that is not reached. -/
theorem sound_unreached (hdead : st.dead = true) (h : ∀ p ∈ is, p.2 = -1) :
    Sound m C loc lab st st' ws ws' is [] := by
  refine ⟨List.replicate is.length [], List.length_replicate, fun K _ _ => ⟨fun hl => ?_, nofun,
    fun T _ => fits_unreached h⟩⟩
  rw [hdead] at hl
  cases hl

theorem sound_nil (hpc : st'.pc = st.pc) (hdead : st'.dead = st.dead) :
    Sound m C loc lab st st' ws ws [] [] := by
  refine ⟨[], rfl, fun K _ hexit => ⟨fun hl => ?_, nofun, fun _ _ => trivial⟩⟩
  rw [← hpc]
  exact hexit (hdead.trans hl)

/-- Two passes in sequence. -/
theorem Sound.append (h1 : Sound m C loc lab st st1 ws ws1 is1 os1)
    (h2 : Sound m C loc lab st1 st' ws1 ws' is2 os2) (hpc : st1.pc = st.pc + is1.length) :
    Sound m C loc lab st st' ws ws' (is1 ++ is2) (os1 ++ os2) := by
  obtain ⟨tys1, hlen1, hs1⟩ := h1
  obtain ⟨tys2, hlen2, hs2⟩ := h2
  refine ⟨tys1 ++ tys2, by rw [List.length_append, List.length_append, hlen1, hlen2],
    fun K hK hexit => ?_⟩
  obtain ⟨hK1, hK2⟩ := List.allFrom_append.mp hK
  rw [hlen1, ← hpc] at hK2
  obtain ⟨h3, h4, h5⟩ := hs2 K hK2 hexit
  obtain ⟨h6, h7, h8⟩ := hs1 K hK1 h3
  refine ⟨h6, fun q hq => ?_, fun T hT => List.allFrom_append.mpr ⟨h8 T hT, hpc ▸ h5 T hT⟩⟩
  rcases List.mem_append.mp hq with hq | hq
  · exact h7 q hq
  · exact h4 q hq

/-- The same without listed types. -/
theorem Sound.seq (st1 : State) (ws1 : List Nat) (h1 : Sound m C loc lab st st1 ws ws1 is1 [])
    (h2 : Sound m C loc lab st1 st' ws1 ws' is2 []) (hpc : st1.pc = st.pc + is1.length) :
    Sound m C loc lab st st' ws ws' (is1 ++ is2) [] :=
  h1.append h2 hpc

/-- The types in front of a sequence that is reached. -/
theorem Sound.here {ts : List ValType} (h : Sound m C loc lab st st' (widths ts) ws' is os)
    (hdead : st.dead = false) : Sound m C loc lab st st' (widths ts) ws' is ((st.pc, ts) :: os) := by
  obtain ⟨tys, hlen, hs⟩ := h
  refine ⟨tys, hlen, fun K hK hexit => ?_⟩
  obtain ⟨h1, h2, h3⟩ := hs K hK hexit
  refine ⟨h1, fun q hq => ?_, h3⟩
  rcases List.mem_cons.mp hq with rfl | hq
  · exact h1 hdead
  · exact h2 q hq

/-- A shorter list of types. -/
theorem Sound.mono (h : Sound m C loc lab st st' ws ws' is os1) (hos : os ⊆ os1) :
    Sound m C loc lab st st' ws ws' is os := by
  obtain ⟨tys, hlen, hs⟩ := h
  refine ⟨tys, hlen, fun K hK hexit => ?_⟩
  obtain ⟨h1, h2, h3⟩ := hs K hK hexit
  exact ⟨h1, fun q hq => h2 q (hos hq), h3⟩

/-- The end `t` of a block becomes known. -/
theorem Sound.close {lab' : AtLabels} {st2 : State} {t : Nat}
    (h : Sound m C loc lab' st st1 ws ws' is os) (hpc : st2.pc = st1.pc)
    (hlive : st1.dead = false → st2.dead = false)
    (hlab : ∀ K T, (st.dead = false → K st.pc = ws) → (st2.dead = false → K st2.pc = ws') →
      lab K T → lab' K (ends t T)) : Sound m C loc lab st st2 ws ws' (close t is) os := by
  obtain ⟨tys, hlen, hs⟩ := h
  refine ⟨tys, hlen.trans (close_length t is).symm, fun K hK hexit => ?_⟩
  obtain ⟨h1, h2, h3⟩ := hs K hK fun hd => hpc ▸ hexit (hlive hd)
  exact ⟨h1, h2, fun T hT => fits_close.mpr (h3 _ (hlab K T h1 hexit hT))⟩

/-- What is assumed of a label at the end of the items holds there, if the end is reached. -/
theorem Sound.exit {lab' : AtLabels} {st2 : State} (h : Sound m C loc lab' st st1 ws ws' is os)
    (hpc : st2.pc = st1.pc) (hdead : st2.dead = false)
    (hlab : ∀ K T, K st2.pc = ws' → lab K T → lab' K T) : Sound m C loc lab st st2 ws ws' is os := by
  obtain ⟨tys, hlen, hs⟩ := h
  refine ⟨tys, hlen, fun K hK hexit => ?_⟩
  obtain ⟨h1, h2, h3⟩ := hs K hK fun _ => hpc ▸ hexit hdead
  exact ⟨h1, h2, fun T hT => h3 T (hlab K T (hexit hdead) hT)⟩

/-! ## Single instructions -/

theorem plain_state {op : Opcode} {a b pops pushes : Nat} (consts : List Slot)
    (hp : plain false op a b pops pushes { st with consts := consts } = some (is, st'))
    (hdead : st.dead = false) (hn : pops ≤ st.h) :
    is = [(.code ⟨op, a, b⟩, st.mark false st.h)] ∧ st'.pc = st.pc + 1 ∧ st'.consts = consts ∧
      st'.h = st.h - pops + pushes ∧ st'.dead = false := by
  rw [plain_some (by exact fun _ => hn)] at hp
  cases hp
  refine ⟨rfl, rfl, rfl, ?_, hdead⟩
  simp only [State.after, hdead, Bool.false_eq_true, if_false]

/-- One instruction that goes on with the next one. -/
theorem sound_step {op : Opcode} {a b pops pushes : Nat} (consts : List Slot)
    (hp : plain false op a b pops pushes { st with consts := consts } = some (is, st'))
    (hdead : st.dead = false) (hn : pops ≤ st.h) (hh : st.h = ws.length)
    (hi : ∀ K, K st.pc = ws → K (st.pc + 1) = ws' → WidthOk m C loc K st.pc ⟨op, a, b⟩) :
    Sound m C loc lab st st' ws ws' is [] := by
  obtain ⟨rfl, hpc, -, -, hlive⟩ := plain_state _ hp hdead hn
  refine ⟨[ws], rfl, fun K hK hexit => ⟨fun _ => hK.1, nofun, fun T _ => ⟨fun _ => ⟨?_, ?_⟩,
    trivial⟩⟩⟩
  · rw [hK.1, ← hh]
    exact mark_live hdead rfl _
  · exact hi K hK.1 (hpc ▸ hexit hlive)

/-- The same for an instruction of the flat shape. -/
theorem sound_plain {op : Opcode} {a b pops pushes : Nat} (consts : List Slot) (ps qs : List Nat)
    {r : List Nat}
    (hp : plain false op a b pops pushes { st with consts := consts } = some (is, st'))
    (hdead : st.dead = false) (hh : st.h = ws.length) (hws : ws = ps ++ r) (hws' : ws' = qs ++ r)
    (hpops : pops = ps.length) (hs : Shape m C loc ⟨op, a, b⟩ ps qs) :
    Sound m C loc lab st st' ws ws' is [] := by
  refine sound_step _ hp hdead ?_ hh fun K h1 h2 => .plain hs (h1.trans hws) (h2.trans hws')
  rw [hh, hws, List.length_append]
  omega

/-- One instruction behind which nothing is reached. -/
theorem sound_last {i : CuOp} (hdead : st.dead = false) (hh : st.h = ws.length)
    (hi : ∀ K, K st.pc = ws → WidthOk m C loc K st.pc i) :
    Sound m C loc lab st st' ws ws' [(.code i, st.mark false st.h)] [] := by
  refine ⟨[ws], rfl, fun K hK _ => ⟨fun _ => hK.1, nofun, fun T _ => ⟨fun _ => ⟨?_, hi K hK.1⟩,
    trivial⟩⟩⟩
  rw [hK.1, ← hh]
  exact mark_live hdead rfl _

/-! ## Constants -/

theorem intern_get (x : Slot) (consts : List Slot) :
    (intern x consts).2[(intern x consts).1]? = some x := by
  unfold intern
  cases h : consts.findIdx? (· == x) with
  | none => simp
  | some i =>
    obtain ⟨hi, heq, -⟩ := List.findIdx?_eq_some_iff_getElem.mp h
    simp only [List.getElem?_eq_getElem hi]
    rw [eq_of_beq heq]

/-- The slot at an interned position, in a pool that has grown since. -/
theorem intern_getD {x : Slot} {consts : List Slot} (h : (intern x consts).2 <+: m.consts) :
    m.consts.getD (intern x consts).1 0 = x := by
  obtain ⟨rest, hrest⟩ := h
  rw [List.getD_eq_getElem?_getD, ← hrest, List.getElem?_append_left (intern_lt x consts),
    intern_get]
  rfl

/-! ## Branches -/

/-- With the operands `ws`, a branch to the label `k` finds those of the label, whose end has them on
top of what lay below the block. -/
def Leads (lab : AtLabels) (L : List Label) (ws : List Nat) (k : Nat) (l : Label) : Prop :=
  L[k]? = some l ∧ ∃ lt mid low : List Nat, l.arity = lt.length ∧ low.length = l.base ∧
    ws = lt ++ (mid ++ low) ∧ ∀ K T, lab K T → K (l.start.getD (T k)) = lt ++ low

variable {L : List Label} {l : Label} {k : Nat}

theorem Leads.fits (h : Leads lab L ws k l) (hh : st.h = ws.length) : l.Fits st := by
  obtain ⟨-, lt, mid, low, ha, hlow, rfl, -⟩ := h
  intro _
  rw [hh, List.length_append, List.length_append, ha, hlow]
  omega

section Branch

variable (hloc : loc.length = env.nParams + env.nLocals)

include hloc

theorem sound_branch (hdead : st.dead = false) (hh : st.h = ws.length) (h : Leads lab L ws k l) :
    Sound m C loc lab st st' ws ws' (branchItems env false l k st) [] := by
  obtain ⟨-, lt, mid, low, ha, hlow, hws, hlab⟩ := h
  have hjump : ∀ K T n, lab K T → K n = lt ++ low →
      Fits m C loc K T n (jumpItem l k, st.mark false (l.base + l.arity)) := by
    intro K T n hK hn _
    have hren : (jumpItem l k).render T = ⟨.br, 0, l.start.getD (T k)⟩ := by
      unfold jumpItem
      cases l.start <;> rfl
    constructor
    · rw [hn, List.length_append, mark_live hdead rfl, ha, hlow, Nat.add_comm]
    · rw [hren]
      exact .br ((hlab K T hK).trans hn.symm)
  have hlen : st.h = l.arity + (mid.length + l.base) := by
    rw [hh, hws, List.length_append, List.length_append, ha, hlow]
  unfold branchItems
  by_cases hgt : ¬ st.dead = true ∧ st.h > l.base + l.arity
  · rw [if_pos hgt]
    refine ⟨[ws, lt ++ low], rfl, fun K hK _ => ⟨fun _ => hK.1, nofun, fun T hl => ⟨fun _ => ⟨?_, ?_⟩,
      ?_, trivial⟩⟩⟩
    · rw [hK.1, ← hh]
      exact mark_live hdead rfl _
    · exact .unwind ha (by rw [hloc, hlow]) (hK.1.trans hws) hK.2.1
    · exact hjump K T _ hl hK.2.1
  · rw [if_neg hgt]
    have hmid : mid = [] := by
      simp only [hdead, Bool.false_eq_true, not_false_eq_true, true_and, not_lt] at hgt
      exact List.eq_nil_of_length_eq_zero (by omega)
    subst hmid
    exact ⟨[ws], rfl, fun K hK _ => ⟨fun _ => hK.1, nofun, fun T hl => ⟨hjump K T _ hl (hK.1.trans hws),
      trivial⟩⟩⟩

theorem sound_branchIf {w : Nat} (hdead : st.dead = false) (hh : st.h = ws.length + 1)
    (h : Leads lab L ws k l) (hb : branchIf env L false k st = some (is, st')) :
    Sound m C loc lab st st' (w :: ws) ws is [] := by
  have htaken : st.taken.h = ws.length := by
    simp only [State.taken, State.after, hdead, Bool.false_eq_true, if_false]
    omega
  rw [branchIf_some env L false st h.1 (fun _ => by omega) (h.fits htaken)] at hb
  cases hb
  have hsound : Sound m C loc lab { st.taken with pc := st.pc + 1 } { st with dead := true } ws [] _ [] :=
    sound_branch hloc hdead htaken h
  obtain ⟨tys, hlen, hs⟩ := hsound
  have hit : branchItems env false l k { st.taken with pc := st.pc + 1 } =
      branchItems env false l k st.taken := branchItems_congr rfl rfl
  rw [hit] at hlen hs
  refine ⟨(w :: ws) :: tys, congrArg (· + 1) hlen, fun K hK hexit => ?_⟩
  obtain ⟨h1, -, h2⟩ := hs K hK.2 fun h => by cases h
  have hnext : K (st.pc + 1) = ws := h1 hdead
  have htgt : K (st.pc + 1 + (branchItems env false l k st.taken).length) = ws := by
    have := hexit hdead
    simp only [branchIfItems, List.length_cons] at this
    rw [← this]
    congr 1
    omega
  refine ⟨fun _ => hK.1, List.forall_mem_nil _, fun T hT => ⟨fun _ => ⟨?_, .brIfNot hK.1 hnext htgt⟩, h2 T hT⟩⟩
  rw [hK.1, List.length_cons, ← hh]
  exact mark_live hdead rfl _

/-- One comparison of a `br_table`. -/
theorem sound_tableArm {scratch i : Nat} (hscr : loc.length < 65535 → loc[scratch]? = some 32)
    (hdead : st.dead = false) (hh : st.h = ws.length) (h : Leads lab L ws k l)
    (harm : tableArm env L false scratch i k st = some (is, st')) (hpool : st'.consts <+: m.consts) :
    Sound m C loc lab st st' ws ws is [] := by
  unfold tableArm at harm
  obtain ⟨is1, st1, is2, h1, h2, rfl⟩ := andThen_eq_some.mp harm
  obtain ⟨is3, st3, is4, h3, h4, rfl⟩ := andThen_eq_some.mp h2
  obtain ⟨is5, st5, is6, h5, h6, rfl⟩ := andThen_eq_some.mp h4
  obtain ⟨i1, p1, c1, e1, d1⟩ := plain_state _ h1 hdead (Nat.zero_le _)
  obtain ⟨i3, p3, c3, e3, d3⟩ := plain_state st1.consts h3 d1 (Nat.zero_le _)
  obtain ⟨i5, p5, c5, e5, d5⟩ := plain_state st3.consts h5 d3 (by omega)
  have hgrow := (grows_branchIf k is6 st' h6).trans hpool
  rw [c5, c3, c1] at hgrow
  have hconst : (m.consts.getD (intern (BitVec.ofNat 64 (i % 2 ^ 32)) st.consts).1 0).toNat < 2 ^ 32 := by
    rw [intern_getD hgrow, BitVec.toNat_ofNat]
    omega
  refine Sound.seq _ (32 :: ws) ?_ ?_ (by rw [p1, i1]; rfl)
  · exact sound_plain _ [] [32] h1 hdead hh rfl rfl rfl (.localGet hscr)
  refine Sound.seq _ (32 :: 32 :: ws) ?_ ?_ (by rw [p3, i3]; rfl)
  · refine sound_plain st1.consts [] [32] h3 d1 ?_ rfl rfl rfl (.const hconst)
    rw [e1, hh, List.length_cons]
    omega
  refine Sound.seq _ (32 :: ws) ?_ ?_ (by rw [p5, i5]; rfl)
  · refine sound_plain st3.consts [32, 32] [32] h5 d3 ?_ rfl rfl rfl
      (.num .i32Eq)
    rw [e3, e1, hh, List.length_cons, List.length_cons]
    omega
  · refine sound_branchIf hloc d5 ?_ h h6
    rw [e5, e3, e1, hh]
    omega

theorem sound_tableArms {scratch : Nat} (hscr : loc.length < 65535 → loc[scratch]? = some 32)
    {ks : List Nat} (hks : ∀ k ∈ ks, ∃ l, Leads lab L ws k l) {i : Nat} (hdead : st.dead = false)
    (hh : st.h = ws.length) (harms : tableArms env L false scratch i ks st = some (is, st'))
    (hpool : st'.consts <+: m.consts) : Sound m C loc lab st st' ws ws is [] := by
  induction ks generalizing i st is with
  | nil =>
    cases harms
    exact sound_nil rfl rfl
  | cons k ks ih =>
    obtain ⟨is1, st1, is2, h1, h2, rfl⟩ := andThen_eq_some.mp harms
    obtain ⟨l, hl⟩ := hks k (List.mem_cons_self ..)
    obtain ⟨is1', consts, harm⟩ := tableArm_some env L false st scratch i hl.1 (hl.fits hh)
    rw [h1] at harm
    cases harm
    have hgrow := grows_tableArms scratch ks (i + 1) is2 st' h2
    refine Sound.seq ⟨st.pc + is1.length, consts, st.h, st.dead⟩ ws ?_ ?_ rfl
    · exact sound_tableArm hloc hscr hdead hh hl h1 (hgrow.trans hpool)
    · exact ih (fun k' hk' => hks k' (List.mem_cons_of_mem _ hk')) hdead hh h2

/-- A whole `br_table`. -/
theorem sound_table {scratch : Nat} (hs : env.scratch = some scratch)
    (hscr : loc.length < 65535 → loc[scratch]? = some 32) {ks : List Nat}
    (hks : ∀ k' ∈ ks ++ [k], ∃ l, Leads lab L ws k' l) (hdead : st.dead = false)
    (hh : st.h = ws.length + 1) (ht : table env L false ks k st = some (is, st'))
    (hpool : st'.consts <+: m.consts) : Sound m C loc lab st st' (32 :: ws) ws' is [] := by
  simp only [table, hs] at ht
  obtain ⟨is1, st1, is2, h1, h2, rfl⟩ := andThen_eq_some.mp ht
  obtain ⟨is3, st3, is4, h3, h4, rfl⟩ := andThen_eq_some.mp h2
  obtain ⟨⟨is5, st5⟩, h5, h6⟩ := Option.map_eq_some_iff.mp h4
  cases h6
  obtain ⟨i1, p1, c1, e1, d1⟩ := plain_state st.consts h1 hdead (by omega)
  have hh1 : st1.h = ws.length := by
    rw [e1, hh]
    omega
  have harms := fun k' hk' => hks k' (List.mem_append_left _ hk')
  obtain ⟨is3', consts, h3'⟩ := tableArms_some env L false st1 scratch 0
    (fun k' hk' => (harms k' hk').imp fun l h => ⟨h.1, h.fits hh1⟩)
  rw [h3] at h3'
  cases h3'
  obtain ⟨l, hl⟩ := hks k (by simp)
  rw [branch_some env L false ⟨st1.pc + is3.length, consts, st1.h, st1.dead⟩ hl.1 (hl.fits hh1)] at h5
  cases h5
  refine Sound.seq _ ws ?_ ?_ (by rw [p1, i1]; rfl)
  · exact sound_plain st.consts [32] [] h1 hdead (by rw [hh]; rfl) rfl rfl
      rfl (.localSet hscr le_rfl)
  refine Sound.seq ⟨st1.pc + is3.length, consts, st1.h, st1.dead⟩ ws ?_ ?_ rfl
  · exact sound_tableArms hloc hscr harms d1 hh1 h3 hpool
  · exact sound_branch hloc d1 hh1 hl

end Branch

/-! ## Operators -/

/-- The widths of the locals of a frame; the scratch local behind the declared ones holds an index. -/
def localWidths (env : LowerEnv) (C : Ctx) : List Nat :=
  widths C.locals ++ List.replicate (env.nParams + env.nLocals - C.locals.length) 32

/-- The scratch local is not a declared one, unless the frame is too large to hold an operand. -/
def ScratchApart (env : LowerEnv) (C : Ctx) : Prop :=
  env.nParams + env.nLocals < 65535 → ∀ k, env.scratch = some k → C.locals.length ≤ k

theorem Linked.localWidths_length (hl : Linked m f env C) :
    (localWidths env C).length = env.nParams + env.nLocals := by
  have := hl.locals
  rw [localWidths, List.length_append, widths_length, List.length_replicate]
  omega

theorem Linked.localWidths_get (hl : Linked m f env C) {i : Nat} {t : ValType}
    (h : C.locals[i]? = some t) : (localWidths env C)[i % 2 ^ 16]? = some t.width := by
  have hlt := (List.getElem?_eq_some_iff.mp h).1
  have h1 := hl.locals
  have h2 := hl.frame
  rw [Nat.mod_eq_of_lt (by omega), localWidths, List.getElem?_append_left (by rwa [widths_length]),
    widths, List.getElem?_map, h]
  rfl

theorem Linked.localWidths_scratch (hl : Linked m f env C) (hap : ScratchApart env C) {k : Nat}
    (hs : env.scratch = some k) :
    (localWidths env C).length < 65535 → (localWidths env C)[k]? = some 32 := by
  intro hlt
  rw [hl.localWidths_length] at hlt
  have h1 := hap hlt k hs
  have h2 := hl.scratch k hs
  rw [localWidths, List.getElem?_append_right (by rwa [widths_length]), widths_length,
    List.getElem?_replicate, if_pos (by omega)]

theorem constOp_canonical (c : ConstOp) : (ConstOp.slot c).toNat < 2 ^ c.type.width := by
  cases c with
  | i32 x | f32 x => exact slot32_canonical (t := .i32) x
  | i64 x | f64 x => exact x.isLt

section Operator

variable {Lt : List (List ValType)} {B : Nat} {ts ts' ps qs bel : List ValType} {o : Operator}

/-- The operators of one fixed type. -/
theorem opTyped_sound (hl : Linked m f env C) (himp : env.nImports = 0) (ho : OpTyped C o ps qs)
    (hop : operator env L false o st = some (is, st')) (hdead : st.dead = false)
    (hh : st.h = (ps ++ ts).length) (hpool : st'.consts <+: m.consts) :
    Sound m C (localWidths env C) lab st st' (widths (ps ++ ts)) (widths (qs ++ ts)) is [] := by
  have hd := hl.describes
  have hh' : st.h = (widths (ps ++ ts)).length := by rw [hh, widths_length]
  have hwp := widths_append ps ts
  have hwq := widths_append qs ts
  cases ho with
  | nop =>
    cases hop
    exact sound_nil rfl rfl
  | reinterpret x =>
    simp only [operator] at hop
    obtain ⟨st1, h1, h2⟩ := Option.map_eq_some_iff.mp hop
    cases h2
    obtain ⟨h3, h4, -⟩ := consume_dead h1
    have hw : widths ([x.type.1] ++ ts) = widths ([x.type.2] ++ ts) := by cases x <;> rfl
    rw [hw]
    exact sound_nil h4 h3
  | const c =>
    simp only [operator] at hop
    obtain ⟨-, -, hc, -⟩ := plain_state _ hop hdead (Nat.zero_le _)
    refine sound_plain _ _ _ hop hdead hh' hwp hwq rfl (.const ?_)
    rw [intern_getD (hc ▸ hpool)]
    exact constOp_canonical c
  | drop t => exact sound_plain st.consts _ _ hop hdead hh' hwp hwq rfl (.drop _)
  | select h | typedSelect t =>
    exact sound_plain st.consts _ _ hop hdead hh' hwp hwq rfl (.select _ _)
  | num o =>
    have hpops : (NumOp.lower o).2.2.1 = (widths o.pops).length := by
      rw [widths_length, NumOp.pops, List.length_replicate, (NumOp.lower_arity o).1]
    exact sound_plain st.consts _ _ hop hdead hh' hwp hwq hpops (.num o)
  | globalGet h => exact sound_plain st.consts _ _ hop hdead hh' hwp hwq rfl (.globalGet h)
  | globalSet h => exact sound_plain st.consts _ _ hop hdead hh' hwp hwq rfl (.globalSet h)
  | localGet h =>
    exact sound_plain st.consts _ _ hop hdead hh' hwp hwq rfl
      (.localGet fun _ => hl.localWidths_get h)
  | localSet h =>
    exact sound_plain st.consts _ _ hop hdead hh' hwp hwq rfl
      (.localSet (fun _ => hl.localWidths_get h) le_rfl)
  | localTee h =>
    rename_i i t
    have hget := hl.localWidths_get h
    cases hop
    refine ⟨[widths ([t] ++ ts), widths ts], rfl, fun K hK hexit => ⟨fun _ => hK.1, List.forall_mem_nil _,
      fun T _ => ⟨fun _ => ⟨?_, ?_⟩, fun _ => ⟨?_, ?_⟩, trivial⟩⟩⟩
    · rw [hK.1, ← hh']
      exact mark_live hdead rfl _
    · exact .plain (.localSet (fun _ => hget) le_rfl) hK.1 hK.2.1
    · rw [hK.2.1, widths_length]
      refine (mark_live hdead rfl _).trans ?_
      rw [List.length_append, List.length_singleton] at hh
      omega
    · exact .plain (.localGet fun _ => hget) hK.2.1 (hexit hdead)
  | call hf ht =>
    rename_i fi ti ft
    simp only [operator, hd.funcArity hf ht, himp, Nat.not_lt_zero, if_false] at hop
    refine sound_step st.consts hop hdead ?_ hh' fun K h1 h2 => ?_
    · rw [hh, List.length_append, List.length_reverse]
      omega
    · exact .call (by simp [Ctx.funcType, hf, ht]) (h1.trans hwp) (h2.trans hwq)
  | callIndirect ht hb =>
    rename_i ti tab ft
    simp only [operator, hd.types, ht] at hop
    split_ifs at hop
    refine sound_step st.consts hop hdead ?_ hh' fun K h1 h2 => ?_
    · rw [hh, List.length_append, List.length_cons, List.length_reverse]
      omega
    · exact .callIndirect ht (h1.trans hwp) (h2.trans hwq)
  | load x hm hoff =>
    rename_i ma
    simp only [operator] at hop
    cases hc : checkMemarg ma with
    | error e => simp [hc] at hop
    | ok off =>
      simp only [hc] at hop
      exact sound_plain st.consts _ _ hop hdead hh' hwp hwq rfl (.load x off _)
  | store x hm hoff =>
    rename_i ma
    simp only [operator] at hop
    cases hc : checkMemarg ma with
    | error e => simp [hc] at hop
    | ok off =>
      simp only [hc] at hop
      exact sound_plain st.consts _ _ hop hdead hh' hwp hwq rfl (.store _ off _ _)
  | memorySize hm =>
    simp only [operator] at hop
    split_ifs at hop
    exact sound_plain st.consts _ _ hop hdead hh' hwp hwq rfl .memorySize
  | memoryGrow hm =>
    simp only [operator] at hop
    split_ifs at hop
    exact sound_plain st.consts _ _ hop hdead hh' hwp hwq rfl (.memoryGrow _)
  | memoryCopy hm hm' =>
    simp only [operator] at hop
    split_ifs at hop
    exact sound_plain st.consts _ _ hop hdead hh' hwp hwq rfl (.memoryCopy _ _ _)
  | memoryFill hm =>
    simp only [operator] at hop
    split_ifs at hop
    exact sound_plain st.consts _ _ hop hdead hh' hwp hwq rfl (.memoryFill _ _ _)
  | memoryInit hdi hm =>
    simp only [operator] at hop
    split_ifs at hop
    exact sound_plain st.consts _ _ hop hdead hh' hwp hwq rfl (.memoryInit _ _ _ _)
  | dataDrop h =>
    cases hop
    refine ⟨[widths ([] ++ ts)], rfl, fun K hK hexit => ⟨fun _ => hK.1, List.forall_mem_nil _,
      fun T _ => ⟨fun _ => ⟨?_, ?_⟩, trivial⟩⟩⟩
    · rw [hK.1, ← hh']
      exact mark_live hdead rfl _
    · exact .plain (.dataDrop _) hK.1 (hexit hdead)
  | refFunc _ | refNull _ | other _ _ _ => cases hop

/-! ### Labels -/

/-- Inside the blocks with the labels `L` of types `Lt`, where the innermost block lies above the
operands `bel`: the end (or the start) of each block has the operands of its label on top of what lay
below the block. -/
def AtEnds (L : List Label) (Lt : List (List ValType)) (bel : List ValType) : AtLabels := fun K T =>
  ∀ (k : Nat) (l : Label) (lt : List ValType), L[k]? = some l → Lt[k]? = some lt →
    K (l.start.getD (T k)) = widths (lt ++ bel.drop (bel.length - l.base))

/-- One more block, above the operands `ts`. -/
theorem AtEnds.cons {K : Nat → List Nat} {T : Nat → Nat} {lt : List ValType} {t : Nat}
    (h : AtEnds L Lt bel K T) (hle : ∀ l ∈ L, l.base ≤ bel.length)
    (hbase : l.base = (ts ++ bel).length) (ht : K (l.start.getD t) = widths (lt ++ (ts ++ bel))) :
    AtEnds (l :: L) (lt :: Lt) (ts ++ bel) K (ends t T) := by
  intro k l' lt' hk hkt
  cases k with
  | zero =>
    cases hk
    cases hkt
    rw [hbase, Nat.sub_self, List.drop_zero]
    exact ht
  | succ k =>
    have hb := hle l' (List.mem_of_getElem? hk)
    refine (h k l' lt' hk hkt).trans ?_
    rw [show (ts ++ bel).length - l'.base = ts.length + (bel.length - l'.base) by
      rw [List.length_append]
      omega, ← List.drop_drop, List.drop_left]

/-- A branch from operands that end with those of the label. -/
theorem leads_of (ha : L.map Label.arity = Lt.map List.length) (hle : ∀ l ∈ L, l.base ≤ bel.length)
    {lt : List ValType} (hk : Lt[k]? = some lt) (ts : List ValType) :
    ∃ l, Leads (AtEnds L Lt bel) L (widths (lt ++ ts ++ bel)) k l := by
  have hmap := congrArg (·[k]?) ha
  simp only [List.getElem?_map, hk, Option.map_some] at hmap
  obtain ⟨l, hl, harity⟩ := Option.map_eq_some_iff.mp hmap
  have hb := hle l (List.mem_of_getElem? hl)
  refine ⟨l, hl, widths lt, widths (ts ++ bel.take (bel.length - l.base)),
    widths (bel.drop (bel.length - l.base)), ?_, ?_, ?_, fun K T h => ?_⟩
  · rw [harity, widths_length]
  · rw [widths_length, List.length_drop]
    omega
  · rw [← widths_append, ← widths_append, List.append_assoc, List.append_assoc,
      List.take_append_drop]
  · rw [h k l lt hl hk, widths_append]

/-- An operator that is reached: its typing rule, and what reachability adds to it. -/
theorem typed_op_reached {us : List ValType} {rest : Body} (h : Typed C Lt true ts (.op o rest) us) :
    ∃ r ts', OpStep C Lt o ts ts' ∧ Typed C Lt r ts' rest us ∧ (o.transfers = false → r = true) ∧
      (o.isBrTable = true → ∀ k ∈ o.targets, ∃ lt ts1, Lt[k]? = some lt ∧ ts = .i32 :: (lt ++ ts1)) := by
  cases h with
  | op ho hr =>
    refine ⟨_, _, .op ho, hr, fun _ => rfl, fun _ k hk => ?_⟩
    rw [(OpTyped.transfers_eq ho).2] at hk
    cases hk
  | unreachable hr => exact ⟨_, _, .unreachable, hr, nofun, nofun⟩
  | br hl hr => exact ⟨_, _, .br hl, hr, nofun, nofun⟩
  | brIf hl hr => exact ⟨_, _, .brIf hl, hr, fun _ => rfl, nofun⟩
  | brTable hl hls hr =>
    refine ⟨_, _, .brTable fun k hk => ?_, hr, nofun, fun _ k hk => ?_⟩
    · rcases List.mem_append.mp hk with hk | hk
      · obtain ⟨lt', h1, h2, -⟩ := hls k hk
        exact ⟨lt', h1, h2⟩
      · obtain rfl := List.mem_singleton.mp hk
        exact ⟨_, hl, rfl⟩
    · rcases List.mem_append.mp hk with hk | hk
      · obtain ⟨lt', h1, -, h3⟩ := hls k hk
        exact ⟨lt', _, h1, by rw [h3 rfl]⟩
      · obtain rfl := List.mem_singleton.mp hk
        exact ⟨_, _, hl, rfl⟩
  | return_ hr => exact ⟨_, _, .return_, hr, nofun, nofun⟩
  | returnCall hf ht hres hr => exact ⟨_, _, .returnCall hf ht hres, hr, nofun, nofun⟩

/-- The operand types behind an operator of one fixed type. -/
theorem OpTyped.behind_eq (ho : OpTyped C o ps qs) (ha : accepted o = true) :
    o.behind C (ps ++ ts) = qs ++ ts := by
  have harity := OpTyped.arity_eq ho ha
  cases ho with
  | select h | typedSelect t => rfl
  | call hf ht =>
    simp only [Operator.behind, harity, List.drop_left]
    simp [Operator.pushes, Ctx.funcType, hf, ht]
  | callIndirect ht hb =>
    simp only [Operator.behind, harity, List.drop_left]
    simp [Operator.pushes, ht]
  | globalGet h | localGet h | localTee h =>
    simp only [Operator.behind, harity, List.drop_left]
    simp [Operator.pushes, h]
  | refFunc _ | refNull _ | other _ _ _ => cases ha
  | _ =>
    simp only [Operator.behind, harity, List.drop_left]
    rfl

theorem OpStep.behind_eq (hstep : OpStep C Lt o ts ts') (ha : accepted o = true)
    (ht : o.transfers = false) : o.behind C (ts ++ bel) = ts' ++ bel := by
  cases hstep with
  | op ho =>
    rw [List.append_assoc, List.append_assoc]
    exact OpTyped.behind_eq ho ha
  | brIf hl => rfl
  | unreachable | br _ | brTable _ | return_ | returnCall _ _ _ => cases ht

/-- One operator that is reached. -/
theorem operator_sound (hl : Linked m f env C) (himp : env.nImports = 0) (hap : ScratchApart env C)
    (hstep : OpStep C Lt o ts ts')
    (hbr : o.isBrTable = true → ∀ k ∈ o.targets, ∃ lt ts1, Lt[k]? = some lt ∧ ts = .i32 :: (lt ++ ts1))
    (htr : Tracks L Lt bel.length ts st) (hle : ∀ l ∈ L, l.base ≤ bel.length)
    (hop : operator env L false o st = some (is, st')) (hdead : st.dead = false)
    (hpool : st'.consts <+: m.consts) :
    Sound m C (localWidths env C) (AtEnds L Lt bel) st st' (widths (ts ++ bel)) (widths (ts' ++ bel))
      is [] := by
  have hd := hl.describes
  have hh : st.h = (widths (ts ++ bel)).length := by
    rw [htr.height hdead, widths_length, List.length_append, Nat.add_comm]
  have hloc := hl.localWidths_length
  obtain ⟨hall, -, -⟩ := operator_outcome hd hstep htr hop
  cases hstep with
  | op ho =>
    rw [List.append_assoc, List.append_assoc]
    refine opTyped_sound hl himp ho hop hdead ?_ hpool
    rw [hh, widths_length, List.append_assoc]
  | unreachable =>
    cases hop
    exact sound_last hdead hh fun K _ => .unreachable rfl
  | br hk =>
    rename_i k lt ts
    obtain ⟨l, hlead⟩ := leads_of htr.arity hle hk ts
    simp only [operator, branch_some env L false st hlead.1 (hlead.fits hh), Option.map_some, kill,
      Option.some.injEq, Prod.mk.injEq] at hop
    obtain ⟨rfl, -⟩ := hop
    exact sound_branch hloc hdead hh hlead
  | brIf hk =>
    rename_i k lt ts
    obtain ⟨l, hlead⟩ := leads_of htr.arity hle hk ts
    exact sound_branchIf hloc hdead hh hlead hop
  | brTable hls =>
    rename_i ks k lt ts
    obtain ⟨scratch, hs⟩ := Option.isSome_iff_exists.mp (hall.scratch rfl)
    refine sound_table hloc hs (hl.localWidths_scratch hap hs) (fun k' hk' => ?_) hdead hh hop hpool
    obtain ⟨lt', ts1, hk, heq⟩ := hbr rfl k' hk'
    obtain ⟨l, hlead⟩ := leads_of htr.arity hle hk ts1
    rw [← List.tail_eq_of_cons_eq heq] at hlead
    exact ⟨l, hlead⟩
  | return_ =>
    cases hop
    exact sound_last hdead hh fun K h => .leave (.inl rfl)
      (h.trans (by rw [List.append_assoc]; exact widths_append _ _))
  | returnCall hf ht hres =>
    rename_i fi ti ft ts
    simp only [operator] at hop
    split_ifs at hop
    cases hop
    exact sound_last hdead hh fun K h => .returnCall (by simp [Ctx.funcType, hf, ht]) hres
      (h.trans (by rw [List.append_assoc]; exact widths_append _ _))

end Operator

/-! ## Bodies -/

/-- The `BR_IF_NOT` of an `if` in front of the arms. -/
theorem sound_if {st0 : State} {w t : Nat} (hdead : st.dead = false) (hh : st.h = ws.length + 1)
    (hdead0 : st0.dead = false) (hpc : st0.pc = st.pc + 1)
    (h : Sound m C loc lab st0 st' ws ws' is os)
    (ht : ∀ K : Nat → List Nat, (st'.dead = false → K st'.pc = ws') → (∀ q ∈ os, K q.1 = widths q.2) → K t = ws) :
    Sound m C loc lab st st' (w :: ws) ws' ((.code ⟨.brIfNot, 0, t⟩, st.mark false st.h) :: is) os := by
  obtain ⟨tys, hlen, hs⟩ := h
  refine ⟨(w :: ws) :: tys, congrArg (· + 1) hlen, fun K hK hexit => ?_⟩
  obtain ⟨h1, h2, h3⟩ := hs K (hpc ▸ hK.2) hexit
  refine ⟨fun _ => hK.1, h2, fun T hT => ⟨fun _ => ⟨?_, ?_⟩, hpc ▸ h3 T hT⟩⟩
  · rw [hK.1, List.length_cons, ← hh]
    exact mark_live hdead rfl _
  · exact .brIfNot hK.1 (hpc ▸ h1 hdead0) (ht K hexit h2)

/-- The `BR` over an else arm that ends at `t`. -/
theorem sound_over {t : Nat} (hh : st.dead = false → st.h = ws.length)
    (hlab : ∀ K T, lab K T → K t = ws) :
    Sound m C loc lab st st' ws ws' [(.code ⟨.br, 0, t⟩, st.mark false st.h)] [] := by
  refine ⟨[ws], rfl, fun K hK _ => ⟨fun _ => hK.1, nofun, fun T hT => ⟨fun h0 => ?_, trivial⟩⟩⟩
  cases hdead : st.dead with
  | true =>
    rw [mark_ghost (by rw [hdead]; rfl)] at h0
    simp at h0
  | false =>
    refine ⟨?_, .br ((hlab K T hT).trans hK.1.symm)⟩
    rw [hK.1, ← hh hdead]
    exact mark_live hdead rfl _

theorem enter_live {np base : Nat} (hdead : st.dead = false) (he : enter np st = some base) :
    base = st.h - np := by
  unfold enter at he
  rw [hdead] at he
  simp only [Bool.false_eq_true, if_false] at he
  split_ifs at he
  cases he
  rfl

/-- The state in front of the arms of an `if`. -/
theorem consume_one {st0 : State} (hdead : st.dead = false) (hc : consume 1 0 st = some st0) :
    ({ st0 with pc := st.pc + 1 } : State) = { st with pc := st.pc + 1, h := st.h - 1 } ∧ 1 ≤ st.h := by
  unfold consume at hc
  rw [hdead] at hc
  simp only [Bool.false_eq_true, if_false] at hc
  split_ifs at hc
  cases hc
  exact ⟨by simp only [hdead, Nat.add_zero], by omega⟩

theorem drop_params (ps us : List ValType) : (ps.reverse ++ us).drop ps.length = us :=
  List.drop_left' List.length_reverse

/-- The blocks around a block that lies above the operands `ts`. -/
theorem bases_le {ts bel : List ValType} (hle : ∀ l ∈ L, l.base ≤ bel.length)
    (hbase : l.base = (ts ++ bel).length) : ∀ l' ∈ l :: L, l'.base ≤ (ts ++ bel).length := by
  intro l' hl'
  rcases List.mem_cons.mp hl' with rfl | hl'
  · exact hbase.le
  · have := hle l' hl'
    rw [List.length_append]
    omega

theorem BlockType.arity_eq {bt : BlockType} {ft : FuncType} (h : bt.expand C.types = some ft) :
    bt.arity C.types = (ft.1.length, ft.2.length) ∧ bt.results C.types = ft.2.reverse := by
  simp [BlockType.arity, BlockType.results, h]

section Body

variable (hl : Linked m f env C) (himp : env.nImports = 0) (hap : ScratchApart env C)

include hl himp hap

/-- The widths of the types of a valid sequence that is reached solve the rules of its items, and
validation's types of its parts stand where `Structured.sites` puts them. -/
theorem body_sound (b : Body) :
    ∀ {Lt ts us}, Typed C Lt true ts b us → ∀ {L st is st' bel}, Tracks L Lt bel.length ts st →
      st.dead = false → (∀ l ∈ L, l.base ≤ bel.length) → body env L false st b = some (is, st') →
      st'.consts <+: m.consts →
      Sound m C (localWidths env C) (AtEnds L Lt bel) st st' (widths (ts ++ bel)) (widths (us ++ bel)) is
        (sites env C L st (ts ++ bel) b) := by
  have hd := hl.describes
  induction b with
  | nil =>
    intro Lt ts us ht L st is st' bel _ hdead _ hb _
    cases ht
    cases hb
    exact (sound_nil rfl rfl).here hdead
  | op o rest ih =>
    intro Lt ts us ht L st is st' bel htr hdead hle hb hpool
    obtain ⟨r, ts', hstep, hrest, hr, hbr⟩ := typed_op_reached ht
    obtain ⟨is1, st1, is2, h1, h2, rfl⟩ := body_op_some.mp hb
    obtain ⟨hall, -, hout⟩ := operator_outcome hd hstep htr h1
    have hgrow := (grows_body rest is2 st' h2).trans hpool
    have hfirst := operator_sound hl himp hap hstep hbr htr hle h1 hdead hgrow
    have htrans : st1.dead = o.transfers := by rw [hout.dead, hdead, Bool.false_or]
    rw [sites]
    simp only [h1]
    refine Sound.here ?_ hdead
    cases hdead1 : st1.dead with
    | true =>
      refine hfirst.seq st1 _ ?_ hout.pc
      exact sound_unreached hdead1 ((unreached_body _ _ _ h2).2 (by rw [hdead1]; rfl))
    | false =>
      have hbehind : o.behind C (ts ++ bel) = ts' ++ bel :=
        OpStep.behind_eq hstep hall.accepted (htrans.symm.trans hdead1)
      obtain rfl := hr (htrans.symm.trans hdead1)
      simp only [Bool.false_eq_true, if_false, hbehind]
      exact hfirst.append (ih hrest hout.tracks hdead1 hle h2 hpool) hout.pc
  | block bt b rest ihb ihr =>
    intro Lt ts us ht L st is st' bel htr hdead hle hb hpool
    cases ht with
    | block hbt hbody hrest =>
      rename_i ft ts
      obtain ⟨a, ha, base, he, isb, stb, isr, h1, h2, rfl⟩ := body_block_some.mp hb
      obtain rfl := hd.blockArity hbt ha
      obtain ⟨hbase, hin⟩ := enter_tracks htr he ⟨none, base, _⟩ _ rfl (List.length_reverse ..).symm
      have hbase' : base = (ts ++ bel).length := by
        rw [hbase hdead, List.length_append, Nat.add_comm]
      have hpc := (body_tracks hd b hbody hin h1).2
      obtain ⟨harity, hresults⟩ := BlockType.arity_eq hbt
      have hgrow := (grows_body rest isr st' h2).trans hpool
      have hinner := ihb hbody (hbase' ▸ hin) hdead (bases_le hle hbase') h1 hgrow
      have hrest' := ihr hrest (leave_tracks ft stb htr hbase) hdead hle h2 hpool
      rw [sites]
      simp only [harity, hresults, ← enter_live hdead he, h1]
      rw [List.append_assoc, drop_params]
      rw [List.append_assoc] at hrest'
      refine Sound.append ?_ hrest' ?_
      · refine Sound.close hinner rfl (fun _ => hdead) fun K T _ hK hlab => ?_
        exact hlab.cons hle hbase' (hK hdead)
      · rw [close_length]
        exact hpc
  | loop bt b rest ihb ihr =>
    intro Lt ts us ht L st is st' bel htr hdead hle hb hpool
    cases ht with
    | loop hbt hbody hrest =>
      rename_i ft ts
      obtain ⟨a, ha, base, he, isb, stb, isr, h1, h2, rfl⟩ := body_loop_some.mp hb
      obtain rfl := hd.blockArity hbt ha
      obtain ⟨hbase, hin⟩ := enter_tracks htr he ⟨some st.pc, base, _⟩ _ rfl
        (List.length_reverse ..).symm
      have hbase' : base = (ts ++ bel).length := by
        rw [hbase hdead, List.length_append, Nat.add_comm]
      have hpc := (body_tracks hd b hbody hin h1).2
      obtain ⟨harity, hresults⟩ := BlockType.arity_eq hbt
      have hgrow := (grows_body rest isr st' h2).trans hpool
      have hinner := ihb hbody (hbase' ▸ hin) hdead (bases_le hle hbase') h1 hgrow
      have hrest' := ihr hrest (leave_tracks ft stb htr hbase) hdead hle h2 hpool
      rw [sites]
      simp only [harity, hresults, ← enter_live hdead he, h1]
      rw [List.append_assoc, drop_params]
      rw [List.append_assoc] at hrest'
      refine Sound.append ?_ hrest' ?_
      · refine Sound.close hinner rfl (fun _ => hdead) fun K T hstart _ hlab => ?_
        exact hlab.cons hle hbase' (hstart hdead)
      · rw [close_length]
        exact hpc
  | ifThen bt b rest ihb ihr =>
    intro Lt ts us ht L st is st' bel htr hdead hle hb hpool
    cases ht with
    | ifThen hbt heq hbody hrest =>
      rename_i ft ts
      obtain ⟨a, ha, st0, hc, base, he, isb, stb, isr, h1, h2, rfl⟩ := body_ifThen_some.mp hb
      obtain rfl := hd.blockArity hbt ha
      obtain ⟨htr0, hdead0⟩ := consume_tracks htr hc (st.pc + 1)
      obtain ⟨hbase, hin⟩ := enter_tracks htr0 he ⟨none, base, _⟩ _ rfl
        (List.length_reverse ..).symm
      obtain ⟨hst0, h1h⟩ := consume_one hdead hc
      rw [← enter_pc _ (st.pc + 1), hst0] at he
      rw [hst0] at h1 hin
      have hdead' : ({ st with pc := st.pc + 1, h := st.h - 1 } : State).dead = false := hdead
      have hbase' : base = (ts ++ bel).length := by
        rw [hbase (hdead0.trans hdead), List.length_append, Nat.add_comm]
      have hpc := (body_tracks hd b hbody hin h1).2
      obtain ⟨harity, hresults⟩ := BlockType.arity_eq hbt
      have hgrow := (grows_body rest isr st' h2).trans hpool
      have hinner := ihb hbody (hbase' ▸ hin) hdead' (bases_le hle hbase') h1 hgrow
      have hrest' := ihr hrest (leave_tracks ft stb htr (hdead0 ▸ hbase)) hdead hle h2 hpool
      have hh : st.h = (widths (ft.1.reverse ++ (ts ++ bel))).length + 1 := by
        rw [htr.height hdead]
        simp only [widths_length, List.length_append, List.length_cons]
        omega
      have hif : Sound m C (localWidths env C) (AtEnds L Lt bel) st (st.leave base ft.2.length stb)
          (widths (.i32 :: (ft.1.reverse ++ (ts ++ bel)))) (widths (ft.2.reverse ++ (ts ++ bel)))
          ((.code ⟨.brIfNot, 0, stb.pc⟩, st.mark false st.h) :: close stb.pc isb)
          (sites env C (⟨none, base, ft.2.length⟩ :: L) { st with pc := st.pc + 1, h := st.h - 1 }
            (ft.1.reverse ++ (ts ++ bel)) b) := by
        refine sound_if hdead hh hdead' rfl ?_ fun K hK _ => ?_
        · refine Sound.close hinner rfl (fun _ => hdead) fun K T _ hK hlab => ?_
          exact hlab.cons hle hbase' (hK hdead)
        · rw [heq]
          exact hK hdead
      rw [sites]
      simp only [harity, hresults, ← enter_live hdead' he, h1, List.cons_append, List.append_assoc,
        Nat.add_comm 1, List.drop_succ_cons, List.drop_zero, drop_params]
      rw [List.append_assoc] at hrest'
      refine Sound.here (hif.append hrest' ?_) hdead
      rw [List.length_cons, close_length]
      simp only [State.leave, hpc]
      omega
  | ifElse bt b els rest ihb ihe ihr =>
    intro Lt ts us ht L st is st' bel htr hdead hle hb hpool
    cases ht with
    | ifElse hbt hbody hels hrest =>
      rename_i ft ts
      obtain ⟨a, ha, st0, hc, base, he, isb, stb, ise, ste, isr, h1, h2, h3, rfl⟩ :=
        body_ifElse_some.mp hb
      obtain rfl := hd.blockArity hbt ha
      rw [hdead, Bool.or_false] at h2
      obtain ⟨htr0, hdead0⟩ := consume_tracks htr hc (st.pc + 1)
      obtain ⟨hbase, hin⟩ := enter_tracks htr0 he ⟨none, base, _⟩ _ rfl
        (List.length_reverse ..).symm
      obtain ⟨hst0, h1h⟩ := consume_one hdead hc
      rw [← enter_pc _ (st.pc + 1), hst0] at he
      rw [hst0] at h1 hin
      have hdead' : ({ st with pc := st.pc + 1, h := st.h - 1 } : State).dead = false := hdead
      have hbase' : base = (ts ++ bel).length := by
        rw [hbase (hdead0.trans hdead), List.length_append, Nat.add_comm]
      set stj : State := { stb with pc := stb.pc + 1, h := base + ft.1.length, dead := false } with hstj
      have hinE : Tracks (⟨none, base, ft.2.length⟩ :: L) (ft.2.reverse :: Lt) base ft.1.reverse stj :=
        ⟨hin.arity, fun _ => by rw [List.length_reverse]⟩
      obtain ⟨hheight, hpcb⟩ := body_tracks hd b hbody hin h1
      have hpce := (body_tracks hd els hels hinE h2).2
      obtain ⟨harity, hresults⟩ := BlockType.arity_eq hbt
      have hgrow := (grows_body rest isr st' h3).trans hpool
      have hgrow' := (grows_body els ise ste h2).trans hgrow
      have hthen := ihb hbody (hbase' ▸ hin) hdead' (bases_le hle hbase') h1 hgrow'
      have helse := ihe hels (hbase' ▸ hinE) rfl (bases_le hle hbase') h2 hgrow
      have hrest' := ihr hrest (leave_tracks ft ste htr (hdead0 ▸ hbase)) hdead hle h3 hpool
      have hh : st.h = (widths (ft.1.reverse ++ (ts ++ bel))).length + 1 := by
        rw [htr.height hdead]
        simp only [widths_length, List.length_append, List.length_cons]
        omega
      -- Inside the arms, the end of the `if` is where the sequence behind it starts.
      set lab' : AtLabels := fun K T =>
        AtEnds L Lt bel K T ∧ K ste.pc = widths (ft.2.reverse ++ (ts ++ bel)) with hlab'
      have harm : ∀ K T, lab' K T → AtEnds (⟨none, base, ft.2.length⟩ :: L) (ft.2.reverse :: Lt) (ts ++ bel) K
          (ends ste.pc T) := fun K T h => h.1.cons hle hbase' h.2
      have hE : Sound m C (localWidths env C) lab' stj ste (widths (ft.1.reverse ++ (ts ++ bel)))
          (widths (ft.2.reverse ++ (ts ++ bel))) (close ste.pc ise) _ :=
        Sound.here (Sound.close helse rfl id fun K T _ _ h => harm K T h) rfl
      have hJ : Sound m C (localWidths env C) lab' stb stj (widths (ft.2.reverse ++ (ts ++ bel)))
          (widths (ft.1.reverse ++ (ts ++ bel))) [(.code ⟨.br, 0, ste.pc⟩, stb.mark false stb.h)] [] := by
        refine sound_over (fun h => ?_) fun K T h => h.2
        rw [(hheight h).2, hbase']
        simp only [widths_length, List.length_append, List.length_reverse]
        omega
      have hT : Sound m C (localWidths env C) lab' { st with pc := st.pc + 1, h := st.h - 1 } stb
          (widths (ft.1.reverse ++ (ts ++ bel))) (widths (ft.2.reverse ++ (ts ++ bel)))
          (close ste.pc isb) _ :=
        Sound.close hthen rfl id fun K T _ _ h => harm K T h
      have hlen : stj.pc = stb.pc + 1 := rfl
      have harms := hT.append (hJ.append hE rfl) (by rw [close_length]; exact hpcb)
      have hif : Sound m C (localWidths env C) (AtEnds L Lt bel) st (st.leave base ft.2.length ste)
          (widths (.i32 :: (ft.1.reverse ++ (ts ++ bel)))) (widths (ft.2.reverse ++ (ts ++ bel)))
          ((.code ⟨.brIfNot, 0, stb.pc + 1⟩, st.mark false st.h) :: (close ste.pc isb ++
            (.code ⟨.br, 0, ste.pc⟩, stb.mark false stb.h) :: close ste.pc ise))
          (sites env C (⟨none, base, ft.2.length⟩ :: L) { st with pc := st.pc + 1, h := st.h - 1 }
              (ft.1.reverse ++ (ts ++ bel)) b ++
            sites env C (⟨none, base, ft.2.length⟩ :: L) stj (ft.1.reverse ++ (ts ++ bel)) els) := by
        have hexit : Sound m C (localWidths env C) (AtEnds L Lt bel)
            { st with pc := st.pc + 1, h := st.h - 1 } (st.leave base ft.2.length ste) _ _ _ _ :=
          harms.exit rfl hdead fun K T hK h => ⟨h, hK⟩
        refine (sound_if hdead hh hdead' rfl hexit fun K _ hos => ?_).mono fun q hq => ?_
        · exact hos (stj.pc, ft.1.reverse ++ (ts ++ bel)) (by simp)
        · rcases List.mem_append.mp hq with hq | hq <;> simp [hq]
      rw [sites]
      simp only [harity, hresults, ← enter_live hdead' he, h1, h2, ← hstj, List.cons_append,
        List.append_assoc, Nat.add_comm 1, List.drop_succ_cons, List.drop_zero, drop_params]
      rw [List.append_assoc] at hrest'
      refine Sound.here ?_ hdead
      have hall := hif.append hrest' ?_
      · simp only [List.cons_append, List.append_assoc] at hall
        exact hall
      · simp only [List.length_cons, List.length_append, close_length, State.leave, hpce, hlen, hpcb]
        omega

end Body

/-! ## Functions -/

/-- The widths of the operands by program counter, for a list of widths that starts at `off`. -/
def widthsFrom (off : Nat) (tys : List (List Nat)) (n : Nat) : List Nat :=
  if off ≤ n then (tys[n - off]?).getD [] else []

theorem widthsFrom_add (off : Nat) (tys : List (List Nat)) (k : Nat) :
    widthsFrom off tys (off + k) = (tys[k]?).getD [] := by
  unfold widthsFrom
  rw [if_pos (Nat.le_add_right off k), Nat.add_sub_cancel_left]

/-- The code of a valid function has widths: none at its start, those of the results at its end. -/
theorem function_sound {b : Body} (hl : Linked m f env C) (himp : env.nImports = 0)
    (hap : ScratchApart env C) (hv : b.Valid C) {pc : Nat} {consts consts' : List Slot}
    (hp : function env pc consts b = some (is, consts')) (hpool : consts' <+: m.consts) :
    ∃ K : Nat → List Nat, K pc = [] ∧ is.AllFrom (Fits m C (localWidths env C) K fun _ => 0) pc ∧
      (∀ q ∈ sites env C [⟨none, 0, env.nResults⟩] ⟨pc, consts, 0, false⟩ [] b, K q.1 = widths q.2) ∧
      K (pc + (is.length - 1)) = widths C.results.reverse := by
  unfold function at hp
  obtain ⟨⟨isb, stb⟩, hb, heq⟩ := Option.map_eq_some_iff.mp hp
  cases heq
  have hd := hl.describes
  have hres : env.nResults = C.results.reverse.length := by rw [List.length_reverse, hd.results]
  have htr : Tracks [⟨none, 0, env.nResults⟩] [C.results.reverse] ([] : List ValType).length []
      ⟨pc, consts, 0, false⟩ := ⟨by simp [hd.results], fun _ => rfl⟩
  have hpc : stb.pc = pc + isb.length := (body_tracks hd b hv htr hb).2
  have hle : ∀ l ∈ [(⟨none, 0, env.nResults⟩ : Label)], l.base ≤ ([] : List ValType).length := by simp
  obtain ⟨tys, hlen, hs⟩ := body_sound hl himp hap b hv htr rfl hle hb hpool
  set K := widthsFrom pc (tys ++ [widths C.results.reverse]) with hKdef
  have hK : tys.AllFrom (fun n t => K n = t) pc := by
    refine List.allFrom_iff.mpr fun k t hk => ?_
    have hlt := (List.getElem?_eq_some_iff.mp hk).1
    rw [hKdef, widthsFrom_add, List.getElem?_append_left hlt, hk]
    rfl
  have hend : K stb.pc = widths C.results.reverse := by
    rw [hKdef, hpc, widthsFrom_add, ← hlen, List.getElem?_append_right (Nat.le_refl _)]
    simp
  obtain ⟨h1, h2, h3⟩ := hs K hK fun _ => by rw [List.append_nil]; exact hend
  have hfits := h3 (ends stb.pc fun _ => 0) fun k l lt hk hkt => by
    cases k with
    | zero =>
      cases hk
      cases hkt
      rw [List.drop_nil, List.append_nil]
      exact hend
    | succ k => cases hk
  refine ⟨K, h1 rfl, List.allFrom_append.mpr ⟨fits_close.mpr hfits, fun _ => ?_, trivial⟩, ?_, ?_⟩
  · rw [close_length, ← hpc, hend, widths_length, hres]
    exact ⟨rfl, .leave (.inr rfl) (r := []) (by rw [List.append_nil]; exact hend)⟩
  · simpa using h2
  · rw [List.length_append, List.length_singleton, Nat.add_sub_cancel, close_length, ← hpc]
    exact hend

end Structured

end CuWasm
