import CuWasm.Frames
import CuWasm.Proofs.FlowProofs

/-!
# Flow equations of the emitted code

Instruction by instruction: where the items of a reached sequence carry their heights, the `switch`
of `verify_cuop` accepts each instruction and its successors carry the height it computes.
-/

namespace CuWasm

open Wasm Structured Verify

namespace Structured

variable {m : HostModule} {f : FuncMeta} {env : LowerEnv} {C : Ctx}

/-- The module `m` and its function `f` are what the lowering environment and the validation context
describe. -/
structure Linked (m : HostModule) (f : FuncMeta) (env : LowerEnv) (C : Ctx) : Prop where
  describes : Describes env C
  nParams : f.nParams = env.nParams
  nLocals : f.nLocals = env.nLocals
  nResults : f.nResults = env.nResults
  frame : env.nParams + env.nLocals < 2 ^ 16
  locals : C.locals.length ≤ env.nParams + env.nLocals
  scratch : ∀ k, env.scratch = some k → k < env.nParams + env.nLocals
  funcs : ∀ fi ft, C.funcType fi = some ft →
    ∃ g, m.funcs[fi]? = some g ∧ g.nParams = ft.1.length ∧ g.nResults = ft.2.length
  short : ∀ ft ∈ C.types, ft.1.length ≤ 8 ∧ ft.2.length ≤ 8
  typeFp : ∀ (ti : Nat) (ft : FuncType), C.types[ti]? = some ft → ∃ fpv, m.typeFp[ti]? = some fpv ∧
    fpv &&& 0xff = ft.1.length ∧ (fpv >>> 8) &&& 0xff = ft.2.length

/-- The heights `H` are known only inside `f`. -/
def Inside (f : FuncMeta) (H : Nat → Int) : Prop :=
  ∀ p, 0 ≤ H p → f.codeOff ≤ p ∧ p < f.codeOff + f.codeLen

/-- What a run needs of an instruction beyond the checks of the verifier. -/
def Tame (m : HostModule) (f : FuncMeta) (i : CuOp) : Prop :=
  match i.op with
  | .unwind => f.locals + i.a ≤ i.b % 2 ^ 32
  | .returnCall => ∀ g, m.funcs[i.b]? = some g → g.nResults = f.nResults
  | _ => True

/-- The flow equation at the position `pc` with the instruction `i`, if the height there is small
enough for the arithmetic of the verifier. -/
def FlowOk (m : HostModule) (f : FuncMeta) (H : Nat → Int) (pc : Nat) (i : CuOp) : Prop :=
  f.nParams + f.nLocals + H pc < 2 ^ 31 →
    Tame m f i ∧ ∃ fl, flow id m f i (H pc) = .ok fl ∧ indexCheck m f i = .ok () ∧
      (∀ t, fl.target = some t → H t = fl.nextH) ∧ (fl.fall = true → H (pc + 1) = fl.nextH)

/-- The flow equations of items from `pc` on. -/
def Flows (m : HostModule) (f : FuncMeta) (H : Nat → Int) (T : Nat → Nat) (pc : Nat) (is : Items) :
    Prop :=
  is.AllFrom (fun n p => 0 ≤ p.2 → FlowOk m f H n (p.1.render T)) pc

theorem resolve_render (i : Item) (t : Nat) (T : Nat → Nat) :
    (i.resolve t).render T = i.render (ends t T) := by
  cases i with
  | code i => rfl
  | jump k => cases k <;> rfl

theorem flows_close {H : Nat → Int} {T : Nat → Nat} {pc t : Nat} {is : Items} :
    Flows m f H T pc (close t is) ↔ Flows m f H (ends t T) pc is := by
  unfold Flows close
  rw [List.allFrom_map]
  simp only [resolve_render]

theorem flows_unreached {H : Nat → Int} {T : Nat → Nat} {pc : Nat} {is : Items}
    (h : ∀ p ∈ is, p.2 = -1) : Flows m f H T pc is := by
  refine List.allFrom_iff.mpr fun k p hp h0 => ?_
  have := h p (List.mem_of_getElem? hp)
  omega

/-! ## Single instructions -/

/-- The converse of `flow_plain`. -/
theorem flow_of_effect {i : CuOp} {h : Int} {p q : Nat} (he : CuWasm.effect i = some (p, q))
    (hp : p ≤ h) : flow id m f i h = .ok { nextH := h - p + q } := by
  have heff : ∀ (pops pushes : Nat) msg, (pops : Int) ≤ h →
      Verify.effect id h pops pushes msg = .ok { nextH := h - pops + pushes } := by
    intro pops pushes msg hle
    unfold Verify.effect
    rw [if_neg (by omega), id_eq]
  unfold CuWasm.effect at he
  unfold flow
  cases hop : i.op <;> simp only [hop, Option.some.injEq, Prod.mk.injEq, reduceCtorEq] at he ⊢ <;>
    obtain ⟨rfl, rfl⟩ := he
  all_goals
    first
    | exact heff _ _ _ hp
    | simp

variable {H : Nat → Int} {T : Nat → Nat} {L : List Label} {st st' : State} {is : Items}

theorem flowOk_fall {pc : Nat} {i : CuOp} {x : Int} (hf : flow id m f i (H pc) = .ok { nextH := x })
    (hi : indexCheck m f i = .ok ()) (ht : Tame m f i) (hn : H (pc + 1) = x) : FlowOk m f H pc i :=
  fun _ => ⟨ht, _, hf, hi, nofun, fun _ => hn⟩

/-- An instruction that neither accesses a local nor the constant pool passes the index tests. -/
theorem indexCheck_ok {i : CuOp} (h1 : i.op ≠ .localGet) (h2 : i.op ≠ .localSet)
    (h3 : i.op ≠ .i64Const) : indexCheck m f i = .ok () := by
  unfold indexCheck
  cases hop : i.op <;> simp only [hop] at h1 h2 h3 ⊢ <;> contradiction

/-- The index of most instructions is not checked. -/
theorem indexCheck_free {i : CuOp}
    (h : (i.op == .localGet || i.op == .localSet || i.op == .i64Const) = false) :
    indexCheck m f i = .ok () := by
  rw [Bool.or_eq_false_iff, Bool.or_eq_false_iff] at h
  obtain ⟨⟨h1, h2⟩, h3⟩ := h
  exact indexCheck_ok (beq_eq_false_iff_ne.mp h1) (beq_eq_false_iff_ne.mp h2)
    (beq_eq_false_iff_ne.mp h3)

theorem indexCheck_const {c : Nat} (h : c < m.consts.length) :
    indexCheck m f ⟨.i64Const, 0, c⟩ = .ok () := by
  simp only [indexCheck]
  rw [if_neg (by omega)]

theorem Linked.localGet (hl : Linked m f env C) {a : Nat} (ha : a < env.nParams + env.nLocals) :
    indexCheck m f ⟨.localGet, a, 0⟩ = .ok () ∧ indexCheck m f ⟨.localSet, a, 0⟩ = .ok () := by
  have h1 : (f.nParams + f.nLocals) % 2 ^ 16 = env.nParams + env.nLocals := by
    rw [hl.nParams, hl.nLocals]
    exact Nat.mod_eq_of_lt hl.frame
  constructor <;>
  · simp only [indexCheck, h1]
    rw [if_neg (by omega)]

/-- A single instruction whose height change is that of the pass. -/
theorem plain_flows {op : Opcode} {a b pops pushes : Nat} (consts : List Slot)
    (hp : plain false op a b pops pushes { st with consts := consts } = some (is, st'))
    (hdead : st.dead = false) (hn : pops ≤ st.h) (hH : Annotated H st.pc is)
    (hexit : st'.dead = false → H st'.pc = st'.h)
    (hflow : flow id m f ⟨op, a, b⟩ st.h = .ok { nextH := (st.h : Int) - pops + pushes })
    (hidx : indexCheck m f ⟨op, a, b⟩ = .ok ()) (htame : Tame m f ⟨op, a, b⟩) :
    Flows m f H T st.pc is := by
  rw [plain_some (by exact fun _ => hn)] at hp
  cases hp
  have hh := hexit hdead
  simp only [State.after, hdead, Bool.false_eq_true, if_false] at hh
  have h1 : H st.pc = st.h := hH.1.trans (mark_live hdead rfl _)
  refine ⟨fun _ => flowOk_fall (by rw [h1]; exact hflow) hidx htame ?_, trivial⟩
  rw [hh]
  omega

theorem numOp_effect (o : NumOp) (b : Nat) :
    CuWasm.effect ⟨(NumOp.lower o).1, (NumOp.lower o).2.1, b⟩ =
      some ((NumOp.lower o).2.2.1, (NumOp.lower o).2.2.2) := by
  cases o <;> rfl

theorem numOp_index (o : NumOp) :
    (NumOp.lower o).1 ≠ .localGet ∧ (NumOp.lower o).1 ≠ .localSet ∧ (NumOp.lower o).1 ≠ .i64Const := by
  cases o <;> exact ⟨nofun, nofun, nofun⟩

/-- The position of an interned constant. -/
theorem numOp_tame (o : NumOp) (b : Nat) :
    Tame m f ⟨(NumOp.lower o).1, (NumOp.lower o).2.1, b⟩ := by
  cases o <;> trivial

theorem intern_lt (x : Slot) (consts : List Slot) : (intern x consts).1 < (intern x consts).2.length := by
  unfold intern
  cases h : consts.findIdx? (· == x) with
  | none => simp
  | some i =>
    obtain ⟨hi, -⟩ := List.findIdx?_eq_some_iff_findIdx_eq.mp h
    exact hi

/-- The host call's immediate holds both arities. -/
theorem callHost_arity : ∀ np ≤ 8, ∀ nr ≤ 8,
    (np ||| (nr <<< 8) % 2 ^ 16) &&& 0xff = np ∧ ((np ||| (nr <<< 8) % 2 ^ 16) >>> 8) &&& 0xff = nr := by
  decide

/-! ## Branches -/

theorem toI32_of_lt {n : Nat} (h : n < 2 ^ 31) : toI32 n = n := by
  unfold toI32
  have hn : (BitVec.ofNat 32 n).toNat = n := by
    rw [BitVec.toNat_ofNat]
    exact Nat.mod_eq_of_lt (by omega)
  rw [BitVec.toInt_eq_toNat_of_lt (by rw [hn]; omega), hn]

section Branch

variable (hl : Linked m f env C) (hB : Inside f H)

include hl hB

/-- The targets of a label in reached code carry the height the label asks for. -/
theorem branch_flows {l : Label} {k pc : Nat} (hdead : st.dead = false) (hf : l.Fits st)
    (hlab : H (l.start.getD (T k)) = l.need) (hH : Annotated H pc (branchItems env false l k st)) :
    Flows m f H T pc (branchItems env false l k st) := by
  have hfit := hf hdead
  have hjump : ∀ n, H n = l.need → FlowOk m f H n ((jumpItem l k).render T) := by
    intro n hn
    have hr := hB (l.start.getD (T k)) (by rw [hlab]; omega)
    have hren : (jumpItem l k).render T = ⟨.br, 0, l.start.getD (T k)⟩ := by
      unfold jumpItem
      cases l.start <;> rfl
    refine fun _ => ⟨by rw [hren]; trivial,
      { nextH := H n, fall := false, target := some (l.start.getD (T k)) }, ?_, ?_, ?_, nofun⟩
    · rw [hren]
      simp only [flow]
      rw [if_neg (by omega)]
    · rw [hren]
      rfl
    · rintro t ⟨⟩
      rw [hlab, hn]
  unfold branchItems at hH ⊢
  by_cases hgt : ¬ st.dead = true ∧ st.h > l.base + l.arity
  · rw [if_pos hgt] at hH ⊢
    have h1 : H pc = st.h := hH.1.trans (mark_live hdead rfl _)
    have h2 : H (pc + 1) = l.need := hH.2.1.trans (mark_live hdead rfl _)
    refine ⟨fun _ hframe => ?_, fun _ => hjump _ h2, trivial⟩
    rw [hl.nParams, hl.nLocals, h1] at hframe
    have hb : toI32 (env.nParams + env.nLocals + (l.base + l.arity)) =
        env.nParams + env.nLocals + l.need := by
      rw [toI32_of_lt (by omega)]
      unfold Label.need
      push_cast
      omega
    have htame : f.locals + l.arity ≤
        (env.nParams + env.nLocals + (l.base + l.arity)) % 2 ^ 32 := by
      rw [Nat.mod_eq_of_lt (by omega), FuncMeta.locals, hl.nParams, hl.nLocals]
      omega
    refine ⟨htame, { nextH := l.need }, ?_, rfl, nofun, fun _ => h2⟩
    simp only [Item.render, flow, hb, h1, hl.nParams, hl.nLocals, id_eq]
    rw [if_neg (by omega), if_neg (by unfold Label.need; omega)]
    exact congrArg (fun x => Except.ok (Verify.Flow.mk x true none)) (by omega)
  · rw [if_neg hgt] at hH ⊢
    exact ⟨fun _ => hjump _ (hH.1.trans (mark_live hdead rfl _)), trivial⟩

theorem branchIf_flows {l : Label} {k : Nat} (hdead : st.dead = false) (h1 : 1 ≤ st.h)
    (hf : l.Fits st.taken) (hlab : H (l.start.getD (T k)) = l.need)
    (hH : Annotated H st.pc (branchIfItems env false l k st))
    (hexit : H (st.pc + (branchIfItems env false l k st).length) = st.taken.h) :
    H st.pc = st.h ∧ Flows m f H T st.pc (branchIfItems env false l k st) := by
  have hh : H st.pc = st.h := hH.1.trans (mark_live hdead rfl _)
  have htaken : (st.taken.h : Int) = st.h - 1 := by
    simp only [State.taken, State.after, hdead, Bool.false_eq_true, if_false]
    omega
  have hb := branch_flows hl hB (show st.taken.dead = false from hdead) hf hlab hH.2
  obtain ⟨i, rest, hi⟩ := branchItems_first env false (show st.taken.dead = false from hdead) hf k
  have hnext : H (st.pc + 1) = st.taken.h := by
    have h2 := hH.2
    rw [hi] at h2
    exact h2.1.trans (mark_live hdead rfl _)
  have htgt : st.pc + 1 + (branchItems env false l k st.taken).length =
      st.pc + (branchIfItems env false l k st).length := by
    simp only [branchIfItems, List.length_cons]
    omega
  have hr := hB _ (show 0 ≤ H (st.pc + (branchIfItems env false l k st).length) by
    rw [hexit]; omega)
  set tgt := st.pc + 1 + (branchItems env false l k st.taken).length with htgtdef
  refine ⟨hh, ⟨fun _ _ => ⟨trivial, { nextH := (st.h : Int) - 1, target := some tgt }, ?_, rfl, ?_,
    fun _ => ?_⟩, hb⟩⟩
  · simp only [Item.render, flow, hh]
    rw [if_neg (by omega), if_neg (by omega)]
  · rintro t ⟨⟩
    rw [htgt, hexit, htaken]
  · rw [hnext, htaken]

/-- One comparison of a `br_table`; `i` is the index compared with. -/
theorem tableArm_flows {scratch i k : Nat} {l : Label} (hs : env.scratch = some scratch)
    (hdead : st.dead = false) (hk : L[k]? = some l) (hf : l.Fits st)
    (hlab : H (l.start.getD (T k)) = l.need)
    (harm : tableArm env L false scratch i k st = some (is, st')) (hH : Annotated H st.pc is)
    (hexit : H st'.pc = st'.h) (hpool : st'.consts <+: m.consts) :
    H st.pc = st.h ∧ Flows m f H T st.pc is := by
  set c := intern (BitVec.ofNat 64 (i % 2 ^ 32)) st.consts with hc
  obtain ⟨hh, hdead'⟩ := compared_taken st c.2
  have hcomp : (st.compared c.2).h = st.h + 1 := by
    simp [State.compared, State.after, hdead]
  have hfit := (Label.fits_congr hdead' hh).mpr hf
  rw [tableArm_eq, ← hc, branchIf_some env L false (st.compared c.2) hk (fun _ => by omega) hfit] at harm
  cases harm
  have h0 : H st.pc = st.h := hH.1.trans (mark_live hdead rfl _)
  have h1 : H (st.pc + 1) = ((st.h + 1 : Nat) : Int) := by
    rw [hH.2.1]
    simp only [State.after, hdead, Bool.false_eq_true, if_false]
    exact mark_live hdead rfl _
  have h2 : H (st.pc + 1 + 1) = ((st.h + 2 : Nat) : Int) := by
    rw [hH.2.2.1]
    simp only [State.after, hdead, Bool.false_eq_true, if_false]
    exact mark_live hdead rfl _
  obtain ⟨h3, h4⟩ := branchIf_flows hl hB (show (st.compared c.2).dead = false from hdead) (by omega)
    hfit hlab hH.2.2.2 hexit
  have h5 : H (st.pc + 1 + 1 + 1) = ((st.h + 1 : Nat) : Int) := by
    rw [← hcomp]
    exact h3
  have hlen : c.1 < m.consts.length := lt_of_lt_of_le (intern_lt _ _) hpool.length_le
  refine ⟨h0, fun _ => ?_, fun _ => ?_, fun _ => ?_, h4⟩
  · refine flowOk_fall (flow_of_effect rfl (by rw [h0]; omega)) (hl.localGet (hl.scratch _ hs)).1
      trivial ?_
    rw [h0, h1]
    omega
  · refine flowOk_fall (flow_of_effect rfl (by rw [h1]; omega)) ?_ trivial ?_
    · exact indexCheck_const hlen
    · rw [h1, h2]
      omega
  · refine flowOk_fall (flow_of_effect rfl (by rw [h2]; omega)) rfl trivial ?_
    rw [h2, h5]
    omega

theorem tableArms_flows {scratch : Nat} (hs : env.scratch = some scratch) {ks : List Nat}
    (hks : ∀ k ∈ ks, ∃ l, L[k]? = some l ∧ l.Fits st ∧ H (l.start.getD (T k)) = l.need)
    {i : Nat} (hdead : st.dead = false)
    (harms : tableArms env L false scratch i ks st = some (is, st')) (hH : Annotated H st.pc is)
    (hexit : H st'.pc = st'.h) (hpool : st'.consts <+: m.consts) :
    H st.pc = st.h ∧ Flows m f H T st.pc is := by
  induction ks generalizing i st is with
  | nil =>
    cases harms
    exact ⟨hexit, trivial⟩
  | cons k ks ih =>
    obtain ⟨is1, st1, is2, h1, h2, rfl⟩ := andThen_eq_some.mp harms
    obtain ⟨l, hk, hf, hlab⟩ := hks k (List.mem_cons_self ..)
    obtain ⟨is1', consts, harm⟩ := tableArm_some env L false st scratch i hk hf
    rw [h1] at harm
    cases harm
    obtain ⟨hH1, hH2⟩ := List.allFrom_append.mp hH
    have hgrow := grows_tableArms scratch ks (i + 1) is2 st' h2
    have hks' : ∀ k' ∈ ks, ∃ l, L[k']? = some l ∧
        l.Fits ⟨st.pc + is1.length, consts, st.h, st.dead⟩ ∧ H (l.start.getD (T k')) = l.need :=
      fun k' hk' => hks k' (List.mem_cons_of_mem _ hk')
    obtain ⟨h3, h4⟩ := ih hks' hdead h2 hH2
    obtain ⟨h5, h6⟩ := tableArm_flows hl hB hs hdead hk hf hlab h1 hH1 h3 (hgrow.trans hpool)
    exact ⟨h5, List.allFrom_append.mpr ⟨h6, h4⟩⟩

end Branch

section Operator

variable {Lt : List (List ValType)} {B : Nat} {ts ts' ps qs : List ValType} {o : Operator}

theorem opTyped_flows (hl : Linked m f env C) (ho : OpTyped C o ps qs)
    (hop : operator env L false o st = some (is, st')) (hdead : st.dead = false)
    (hn : ps.length ≤ st.h) (hH : Annotated H st.pc is)
    (hexit : st'.dead = false → H st'.pc = st'.h) (hpool : st'.consts <+: m.consts) :
    Flows m f H T st.pc is := by
  have hd := hl.describes
  cases ho with
  | nop =>
    cases hop
    trivial
  | reinterpret x =>
    simp only [operator] at hop
    obtain ⟨st1, -, h⟩ := Option.map_eq_some_iff.mp hop
    cases h
    trivial
  | const c =>
    have hlen : (intern (ConstOp.slot c) st.consts).2.length ≤ m.consts.length := by
      have h : st'.consts = (intern (ConstOp.slot c) st.consts).2 := by
        simp only [operator] at hop
        rw [plain_some (by simp)] at hop
        cases hop
        rfl
      rw [← h]
      exact hpool.length_le
    refine plain_flows _ hop hdead (by simp) hH hexit (flow_of_effect rfl (by simp)) ?_ trivial
    exact indexCheck_const (lt_of_lt_of_le (intern_lt _ _) hlen)
  | num o =>
    obtain ⟨h1, h2⟩ := NumOp.lower_arity o
    obtain ⟨h3, h4, h5⟩ := numOp_index o
    simp only [NumOp.pops, List.length_replicate, ← h1] at hn
    exact plain_flows st.consts hop hdead hn hH hexit
      (flow_of_effect (numOp_effect o 0) (Int.ofNat_le.mpr hn)) (indexCheck_ok h3 h4 h5)
      (numOp_tame o 0)
  | drop t | select t | typedSelect t | globalGet t | globalSet t =>
    exact plain_flows st.consts hop hdead hn hH hexit (flow_of_effect rfl (Int.ofNat_le.mpr hn))
      (indexCheck_free rfl) trivial
  | localGet h | localSet h =>
    rename_i i t
    have hi : i % 2 ^ 16 < env.nParams + env.nLocals := by
      have h1 := (List.getElem?_eq_some_iff.mp h).1
      have h2 := hl.locals
      exact lt_of_le_of_lt (Nat.mod_le _ _) (by omega)
    first
    | exact plain_flows st.consts hop hdead hn hH hexit (flow_of_effect rfl (Int.ofNat_le.mpr hn))
        (hl.localGet hi).1 trivial
    | exact plain_flows st.consts hop hdead hn hH hexit (flow_of_effect rfl (Int.ofNat_le.mpr hn))
        (hl.localGet hi).2 trivial
  | localTee h =>
    rename_i i t
    have hi : i % 2 ^ 16 < env.nParams + env.nLocals := by
      have h1 := (List.getElem?_eq_some_iff.mp h).1
      have h2 := hl.locals
      exact lt_of_le_of_lt (Nat.mod_le _ _) (by omega)
    cases hop
    have h1 : H st.pc = st.h := hH.1.trans (mark_live hdead rfl _)
    have h2 : H (st.pc + 1) = ((st.h - 1 : Nat) : Int) := hH.2.1.trans (mark_live hdead rfl _)
    have h3 : H (st.pc + 1 + 1) = st.h := hexit hdead
    rw [List.length_singleton] at hn
    refine ⟨fun _ => flowOk_fall (flow_of_effect rfl (by rw [h1]; omega)) (hl.localGet hi).2
        trivial ?_,
      fun _ => flowOk_fall (flow_of_effect rfl (by rw [h2]; omega)) (hl.localGet hi).1 trivial ?_,
      trivial⟩
    · rw [h1, h2]
      omega
    · rw [h2, h3]
      omega
  | dataDrop h =>
    cases hop
    have h1 : H st.pc = st.h := hH.1.trans (mark_live hdead rfl _)
    have h3 : H (st.pc + 1) = st.h := hexit hdead
    refine ⟨fun _ => flowOk_fall (flow_of_effect rfl (by rw [h1]; omega))
      (indexCheck_free rfl) trivial ?_, trivial⟩
    rw [h1, h3]
    omega
  | call hf ht =>
    rename_i fi ti ft
    rw [List.length_reverse] at hn
    simp only [operator, hd.funcArity hf ht] at hop
    by_cases hi : fi < env.nImports
    · have hlt : fi < env.hostFnIds.length := hd.hostIds.symm ▸ hi
      rw [if_pos hi, List.getElem?_eq_getElem hlt] at hop
      simp only at hop
      obtain ⟨h8, h8'⟩ := hl.short ft (List.mem_of_getElem? ht)
      obtain ⟨ha, ha'⟩ := callHost_arity _ h8 _ h8'
      refine plain_flows st.consts hop hdead hn hH hexit ?_ (indexCheck_free rfl) trivial
      simp only [flow, Verify.effect, ha, ha', id_eq]
      rw [if_neg (by omega)]
    · rw [if_neg hi] at hop
      obtain ⟨g, hg, hg1, hg2⟩ := hl.funcs fi ft (by simp [Ctx.funcType, hf, ht])
      refine plain_flows st.consts hop hdead hn hH hexit ?_ (indexCheck_free rfl) trivial
      simp only [flow, hg, Verify.effect, hg1, hg2, id_eq]
      rw [if_neg (by omega)]
  | callIndirect ht hb =>
    rename_i ti tab ft
    rw [List.length_cons, List.length_reverse, Nat.add_comm] at hn
    simp only [operator, hd.types, ht] at hop
    split_ifs at hop
    obtain ⟨fpv, hfp, h1, h2⟩ := hl.typeFp ti ft ht
    refine plain_flows st.consts hop hdead hn hH hexit ?_ (indexCheck_free rfl) trivial
    simp only [flow, hfp, Verify.effect, h1, h2]
    rw [if_neg (by omega), if_neg (by omega)]
    push_cast
    rfl
  | load x hm hoff | store x hm hoff =>
    rename_i ma
    simp only [operator] at hop
    cases hc : checkMemarg ma with
    | error e => simp [hc] at hop
    | ok off =>
      simp only [hc] at hop
      exact plain_flows st.consts hop hdead hn hH hexit (flow_of_effect rfl (Int.ofNat_le.mpr hn))
        (indexCheck_free rfl) trivial
  | memorySize hm | memoryGrow hm | memoryFill hm | memoryInit hdi hm | memoryCopy hm hm' =>
    simp only [operator] at hop
    split_ifs at hop
    exact plain_flows st.consts hop hdead hn hH hexit (flow_of_effect rfl (Int.ofNat_le.mpr hn))
      (indexCheck_free rfl) trivial
  | refFunc _ | refNull _ | other _ _ _ => cases hop

theorem operator_flows (hl : Linked m f env C) (hB : Inside f H) (hstep : OpStep C Lt o ts ts')
    (htr : Tracks L Lt B ts st) (hop : operator env L false o st = some (is, st'))
    (hdead : st.dead = false)
    (hlab : ∀ (k : Nat) (l : Label), L[k]? = some l → H (l.start.getD (T k)) = l.need)
    (hH : Annotated H st.pc is) (hexit : st'.dead = false → H st'.pc = st'.h)
    (hpool : st'.consts <+: m.consts) : Flows m f H T st.pc is := by
  have hd := hl.describes
  have hh := htr.height hdead
  obtain ⟨hall, hfit, -⟩ := operator_outcome hd hstep htr hop
  have hstop : ∀ {i : CuOp}, is = [(.code i, st.mark false st.h)] →
      flow id m f i st.h = .ok { nextH := st.h, fall := false } → indexCheck m f i = .ok () →
      Tame m f i → Flows m f H T st.pc is := by
    rintro i rfl hf hi htame
    have h1 : H st.pc = st.h := hH.1.trans (mark_live hdead rfl _)
    exact ⟨fun _ _ => ⟨htame, { nextH := (st.h : Int), fall := false }, by rw [h1]; exact hf, hi, nofun,
      nofun⟩, trivial⟩
  cases hstep with
  | op ho =>
    refine opTyped_flows hl ho hop hdead ?_ hH hexit hpool
    rw [List.length_append] at hh
    omega
  | unreachable =>
    cases hop
    exact hstop rfl rfl rfl trivial
  | br hk =>
    rename_i k lt ts
    obtain ⟨l, hk, -⟩ := htr.label hk
    have hf : l.Fits st := fun h => hfit k (List.mem_singleton_self _) l hk h
    simp only [operator, branch_some env L false st hk hf, Option.map_some, kill,
      Option.some.injEq, Prod.mk.injEq] at hop
    obtain ⟨rfl, -⟩ := hop
    exact branch_flows hl hB hdead hf (hlab k l hk) hH
  | brIf hk =>
    rename_i k lt ts
    obtain ⟨l, hk, -⟩ := htr.label hk
    obtain ⟨h1, h2⟩ := taken_height htr
    have hf : l.Fits st.taken := (fits_taken h1).mpr fun h => hfit _ (List.mem_singleton_self _) l hk h
    simp only [operator, branchIf_some env L false st hk h1 hf, Option.some.injEq,
      Prod.mk.injEq] at hop
    obtain ⟨rfl, rfl⟩ := hop
    exact (branchIf_flows hl hB hdead (h1 hdead) hf (hlab k l hk) hH (hexit hdead)).2
  | brTable hls =>
    rename_i ks k lt ts
    obtain ⟨h1, h2⟩ := taken_height htr
    obtain ⟨scratch, hs⟩ := Option.isSome_iff_exists.mp (hall.scratch rfl)
    have htgt : ∀ k' ∈ ks ++ [k], ∃ l, L[k']? = some l ∧ l.Fits st.taken ∧
        H (l.start.getD (T k')) = l.need := by
      intro k' hk'
      obtain ⟨lt', hlt', -⟩ := hls k' hk'
      obtain ⟨l, hl', -⟩ := htr.label hlt'
      exact ⟨l, hl', (fits_taken h1).mpr fun h => hfit k' hk' l hl' h, hlab k' l hl'⟩
    simp only [operator, table, hs] at hop
    obtain ⟨is1, st1, is2, h3, h4, rfl⟩ := andThen_eq_some.mp hop
    obtain ⟨is3, st3, is4, h5, h6, rfl⟩ := andThen_eq_some.mp h4
    obtain ⟨⟨is5, st5⟩, h7, h8⟩ := Option.map_eq_some_iff.mp h6
    cases h8
    have h3' := h3
    rw [plain_some h1] at h3'
    cases h3'
    obtain ⟨hH1, hH2⟩ := List.allFrom_append.mp hH
    obtain ⟨hH3, hH4⟩ := List.allFrom_append.mp hH2
    obtain ⟨l, hk, hf, hlb⟩ := htgt k (by simp)
    have hks := fun k' hk' => htgt k' (List.mem_append_left _ hk')
    obtain ⟨is3', consts, h5'⟩ := tableArms_some env L false
      { st with pc := st.pc + 1, h := st.after 1 0 } scratch 0
      (fun k' hk' => (hks k' hk').imp fun l h => ⟨h.1, h.2.1⟩)
    rw [h5] at h5'
    cases h5'
    have hb := branch_some env L false
      (⟨st.pc + 1 + is3.length, consts, st.after 1 0, st.dead⟩ : State) hk hf
    rw [h7] at hb
    cases hb
    obtain ⟨j, rest, hj⟩ := branchItems_first env false
      (show State.dead ⟨st.pc + 1 + is3.length, consts, st.after 1 0, st.dead⟩ = false from hdead) hf k
    have hmid : H (st.pc + 1 + is3.length) = st.after 1 0 := by
      have hH4' := hH4
      rw [hj] at hH4'
      exact hH4'.1.trans (mark_live hdead rfl _)
    obtain ⟨h9, h10⟩ := @tableArms_flows _ _ _ _ _ _ _ { st with pc := st.pc + 1, h := st.after 1 0 }
      _ _ hl hB _ hs _ hks _ hdead h5 hH3 hmid hpool
    have h11 := branch_flows hl hB
      (show State.dead ⟨st.pc + 1 + is3.length, consts, st.after 1 0, st.dead⟩ = false from hdead)
      hf hlb hH4
    refine List.allFrom_append.mpr ⟨?_, List.allFrom_append.mpr ⟨h10, h11⟩⟩
    exact plain_flows st.consts h3 hdead (h1 hdead) hH1 (fun _ => h9)
      (flow_of_effect rfl (Int.ofNat_le.mpr (h1 hdead))) (hl.localGet (hl.scratch _ hs)).2 trivial
  | return_ =>
    cases hop
    refine hstop rfl ?_ rfl trivial
    rw [List.length_append, List.length_reverse] at hh
    simp only [flow]
    rw [if_neg (by rw [hl.nResults, hd.results]; omega)]
  | returnCall hf ht hres =>
    rename_i fi ti ft ts
    simp only [operator] at hop
    split_ifs at hop
    cases hop
    obtain ⟨g, hg, hg1, hg2⟩ := hl.funcs fi ft (by simp [Ctx.funcType, hf, ht])
    refine hstop rfl ?_ rfl ?_
    · rw [List.length_append, List.length_reverse] at hh
      simp only [flow, hg]
      rw [if_neg (by omega)]
    · intro g' hg'
      rw [hg] at hg'
      cases hg'
      rw [hg2, hres, hl.nResults, hd.results]

end Operator

/-! ## Bodies -/

theorem consume_live {pops pushes : Nat} {st0 : State} (hdead : st.dead = false)
    (hc : consume pops pushes st = some st0) : pops ≤ st.h ∧ st0.h = st.h - pops + pushes := by
  unfold consume at hc
  rw [hdead] at hc
  simp only [Bool.false_eq_true, if_false] at hc
  split_ifs at hc
  cases hc
  exact ⟨by omega, rfl⟩

section Body

variable (hl : Linked m f env C) (hB : Inside f H)

include hB

/-- The `BR_IF_NOT` of an `if`. -/
theorem brIfNot_flows {pc t : Nat} {h : Int} (h1 : 1 ≤ h) (hpc : H pc = h) (hnext : H (pc + 1) = h - 1)
    (ht : H t = h - 1) : FlowOk m f H pc ⟨.brIfNot, 0, t⟩ := by
  have hr := hB t (by omega)
  refine fun _ => ⟨trivial, { nextH := h - 1, target := some t }, ?_, rfl, ?_, fun _ => hnext⟩
  · simp only [flow, hpc]
    rw [if_neg (by omega), if_neg (by omega)]
  · rintro t' ⟨⟩
    exact ht

/-- The `BR` over an else arm. -/
theorem br_flows {pc t : Nat} (h0 : 0 ≤ H pc) (ht : H t = H pc) : FlowOk m f H pc ⟨.br, 0, t⟩ := by
  have hr := hB t (by omega)
  refine fun _ => ⟨trivial, { nextH := H pc, fall := false, target := some t }, ?_, rfl, ?_, nofun⟩
  · simp only [flow]
    rw [if_neg (by omega)]
  · rintro t' ⟨⟩
    exact ht

include hl

/-- The heights of the pass solve the flow equations of the emitted code. -/
theorem body_flows (b : Body) :
    ∀ {Lt r ts us}, Typed C Lt r ts b us → ∀ {L st B is st' T}, Tracks L Lt B ts st →
      body env L false st b = some (is, st') → Annotated H st.pc is →
      (st.dead = false → ∀ (k : Nat) (l : Label), L[k]? = some l → H (l.start.getD (T k)) = l.need) →
      (st'.dead = false → H st'.pc = st'.h) → st'.consts <+: m.consts →
      Flows m f H T st.pc is := by
  have hd := hl.describes
  induction b with
  | nil =>
    intro Lt r ts us _ L st B is st' T _ hb _ _ _ _
    cases hb
    trivial
  | op o rest ih =>
    intro Lt r ts us ht L st B is st' T htr hb hH hlab hexit hpool
    cases hdead : st.dead with
    | true => exact flows_unreached ((unreached_body _ is st' hb).2 (by rw [hdead]; rfl))
    | false =>
      obtain ⟨r', ts', hstep, hrest⟩ := typed_op ht
      obtain ⟨is1, st1, is2, h1, h2, rfl⟩ := body_op_some.mp hb
      obtain ⟨-, -, hout⟩ := operator_outcome hd hstep htr h1
      obtain ⟨hH1, hH2⟩ := List.allFrom_append.mp hH
      rw [← hout.pc] at hH2
      have hlive : st1.dead = false → st.dead = false := fun _ => hdead
      refine List.allFrom_append.mpr ⟨?_, ?_⟩
      · exact operator_flows hl hB hstep htr h1 hdead (hlab hdead) hH1
          (fun h => body_entry hd rest hrest hout.tracks h2 hH2 h hexit)
          ((grows_body rest is2 st' h2).trans hpool)
      · rw [← hout.pc]
        exact ih hrest hout.tracks h2 hH2 (fun h => hlab (hlive h)) hexit hpool
  | block bt b rest ihb ihr =>
    intro Lt r ts us ht L st B is st' T htr hb hH hlab hexit hpool
    cases hdead : st.dead with
    | true => exact flows_unreached ((unreached_body _ is st' hb).2 (by rw [hdead]; rfl))
    | false =>
      cases ht with
      | block hbt hbody hrest =>
        rename_i ft ts
        obtain ⟨a, ha, base, he, isb, stb, isr, h1, h2, rfl⟩ := body_block_some.mp hb
        obtain rfl := hd.blockArity hbt ha
        obtain ⟨hbase, hin⟩ := enter_tracks htr he ⟨none, base, _⟩ _ rfl (List.length_reverse ..).symm
        obtain ⟨h3, h4⟩ := body_tracks hd b hbody hin h1
        obtain ⟨hH1, hH2⟩ := List.allFrom_append.mp hH
        rw [close_length, ← h4] at hH2
        have hleave := leave_tracks ft stb htr hbase
        have hend := body_entry hd rest hrest hleave h2 hH2 hdead hexit
        refine List.allFrom_append.mpr ⟨?_, ?_⟩
        · refine flows_close.mpr (ihb hbody hin h1 (annotated_close.mp hH1) (fun h k l hk => ?_)
            (fun h => ?_) ((grows_body rest isr st' h2).trans hpool))
          · cases k with
            | zero =>
              cases hk
              exact hend
            | succ k => exact hlab h k l hk
          · rw [(h3 h).2, List.length_reverse]
            exact hend
        · rw [close_length, ← h4]
          have hr := ihr hrest hleave h2 hH2 hlab hexit hpool
          exact hr
  | loop bt b rest ihb ihr =>
    intro Lt r ts us ht L st B is st' T htr hb hH hlab hexit hpool
    cases hdead : st.dead with
    | true => exact flows_unreached ((unreached_body _ is st' hb).2 (by rw [hdead]; rfl))
    | false =>
      cases ht with
      | loop hbt hbody hrest =>
        rename_i ft ts
        obtain ⟨a, ha, base, he, isb, stb, isr, h1, h2, rfl⟩ := body_loop_some.mp hb
        obtain rfl := hd.blockArity hbt ha
        obtain ⟨hbase, hin⟩ := enter_tracks htr he ⟨some st.pc, base, _⟩ _ rfl
          (List.length_reverse ..).symm
        obtain ⟨h3, h4⟩ := body_tracks hd b hbody hin h1
        obtain ⟨hH1, hH2⟩ := List.allFrom_append.mp hH
        rw [close_length, ← h4] at hH2
        have hleave := leave_tracks ft stb htr hbase
        have hend := body_entry hd rest hrest hleave h2 hH2 hdead hexit
        have hexit' : stb.dead = false → H stb.pc = stb.h := fun h => by
          rw [(h3 h).2, List.length_reverse]
          exact hend
        have hstart := body_entry hd b hbody hin h1 (annotated_close.mp hH1) hdead hexit'
        refine List.allFrom_append.mpr ⟨?_, ?_⟩
        · refine flows_close.mpr (ihb hbody hin h1 (annotated_close.mp hH1) (fun h k l hk => ?_) hexit'
            ((grows_body rest isr st' h2).trans hpool))
          cases k with
          | zero =>
            cases hk
            have := hin.height hdead
            rw [List.length_reverse] at this
            rw [Label.need, ← this]
            exact hstart
          | succ k => exact hlab h k l hk
        · rw [close_length, ← h4]
          have hr := ihr hrest hleave h2 hH2 hlab hexit hpool
          exact hr
  | ifThen bt b rest ihb ihr =>
    intro Lt r ts us ht L st B is st' T htr hb hH hlab hexit hpool
    cases hdead : st.dead with
    | true => exact flows_unreached ((unreached_body _ is st' hb).2 (by rw [hdead]; rfl))
    | false =>
      cases ht with
      | ifThen hbt heq hbody hrest =>
        rename_i ft ts
        obtain ⟨a, ha, st0, hc, base, he, isb, stb, isr, h1, h2, rfl⟩ := body_ifThen_some.mp hb
        obtain rfl := hd.blockArity hbt ha
        obtain ⟨htr0, hdead0⟩ := consume_tracks htr hc (st.pc + 1)
        obtain ⟨hbase, hin⟩ := enter_tracks htr0 he ⟨none, base, _⟩ _ rfl
          (List.length_reverse ..).symm
        obtain ⟨h3, h4⟩ := body_tracks hd b hbody hin h1
        obtain ⟨hH1, hH2⟩ := List.allFrom_append.mp hH
        have hpc : st.pc + ((Item.code ⟨.brIfNot, 0, stb.pc⟩, st.mark false st.h) ::
            close stb.pc isb).length = stb.pc := by
          rw [List.length_cons, close_length, h4]
          simp only
          omega
        rw [hpc] at hH2
        have hleave := leave_tracks ft stb htr (hdead0 ▸ hbase)
        have hend := body_entry hd rest hrest hleave h2 hH2 hdead hexit
        have hexit' : stb.dead = false → H stb.pc = stb.h := fun h => by
          rw [(h3 h).2, List.length_reverse]
          exact hend
        have hstart := body_entry hd b hbody hin h1 (annotated_close.mp hH1.2) (hdead0.trans hdead)
          hexit'
        obtain ⟨hn1, hn2⟩ := consume_live hdead hc
        have hh0 := hin.height (hdead0.trans hdead)
        simp only [List.length_reverse] at hh0
        refine List.allFrom_append.mpr ⟨⟨fun _ => ?_, ?_⟩, ?_⟩
        · refine brIfNot_flows hB (h := st.h) (by omega) (hH1.1.trans (mark_live hdead rfl _)) ?_ ?_
          · rw [hstart]
            simp only
            omega
          · have hlen : ft.1.length = ft.2.length := by rw [heq]
            have hend' : H stb.pc = ((base + ft.2.length : Nat) : Int) := hend
            rw [hend']
            omega
        · refine flows_close.mpr (ihb hbody hin h1 (annotated_close.mp hH1.2) (fun h k l hk => ?_)
            hexit' ((grows_body rest isr st' h2).trans hpool))
          cases k with
          | zero =>
            cases hk
            exact hend
          | succ k => exact hlab hdead k l hk
        · rw [hpc]
          have hr := ihr hrest hleave h2 hH2 hlab hexit hpool
          exact hr
  | ifElse bt b els rest ihb ihe ihr =>
    intro Lt r ts us ht L st B is st' T htr hb hH hlab hexit hpool
    cases hdead : st.dead with
    | true => exact flows_unreached ((unreached_body _ is st' hb).2 (by rw [hdead]; rfl))
    | false =>
      cases ht with
      | ifElse hbt hbody hels hrest =>
        rename_i ft ts
        obtain ⟨a, ha, st0, hc, base, he, isb, stb, ise, ste, isr, h1, h2, h3, rfl⟩ :=
          body_ifElse_some.mp hb
        obtain rfl := hd.blockArity hbt ha
        rw [hdead, Bool.or_false] at h2
        obtain ⟨htr0, hdead0⟩ := consume_tracks htr hc (st.pc + 1)
        obtain ⟨hbase, hin⟩ := enter_tracks htr0 he ⟨none, base, _⟩ _ rfl
          (List.length_reverse ..).symm
        have hinE : Tracks (⟨none, base, ft.2.length⟩ :: L) (ft.2.reverse :: Lt) base ft.1.reverse
            { stb with pc := stb.pc + 1, h := base + ft.1.length, dead := false } :=
          ⟨hin.arity, fun _ => by rw [List.length_reverse]⟩
        obtain ⟨h4, h5⟩ := body_tracks hd b hbody hin h1
        obtain ⟨h6, h7⟩ := body_tracks hd els hels hinE h2
        obtain ⟨hH1, hHr⟩ := List.allFrom_append.mp hH
        obtain ⟨hH0, hH1⟩ := hH1
        obtain ⟨hHb, hHe⟩ := List.allFrom_append.mp hH1
        obtain ⟨hHj, hHe⟩ := hHe
        have hpcb : st.pc + 1 + (close ste.pc isb).length = stb.pc := by
          rw [close_length, h5]
        have hpce : st.pc + ((Item.code ⟨.brIfNot, 0, stb.pc + 1⟩, st.mark false st.h) ::
            (close ste.pc isb ++ (Item.code ⟨.br, 0, ste.pc⟩, stb.mark false stb.h) ::
              close ste.pc ise)).length = ste.pc := by
          rw [List.length_cons, List.length_append, List.length_cons, close_length, close_length, h7, h5]
          simp only
          omega
        rw [hpcb] at hHj hHe
        rw [hpce] at hHr
        have hleave := leave_tracks ft ste htr (hdead0 ▸ hbase)
        have hend : H ste.pc = ((base + ft.2.length : Nat) : Int) :=
          body_entry hd rest hrest hleave h3 hHr hdead hexit
        have hexitE : ste.dead = false → H ste.pc = ste.h := fun h => by
          rw [(h6 h).2, List.length_reverse]
          exact hend
        have hstartE : H (stb.pc + 1) = ((base + ft.1.length : Nat) : Int) :=
          body_entry hd els hels hinE h2 (annotated_close.mp hHe) rfl hexitE
        have hexitB : stb.dead = false → H stb.pc = stb.h := fun h => hHj.trans (mark_live h rfl _)
        have hstartB := body_entry hd b hbody hin h1 (annotated_close.mp hHb) (hdead0.trans hdead)
          hexitB
        obtain ⟨hn1, hn2⟩ := consume_live hdead hc
        have hh0 := hin.height (hdead0.trans hdead)
        simp only [List.length_reverse] at hh0
        have hgrow := (grows_body rest isr st' h3).trans hpool
        have hlabIn : ∀ (k : Nat) (l : Label), (⟨none, base, ft.2.length⟩ :: L)[k]? = some l →
            H (l.start.getD (ends ste.pc T k)) = l.need := by
          intro k l hk
          cases k with
          | zero =>
            cases hk
            exact hend
          | succ k => exact hlab hdead k l hk
        refine List.allFrom_append.mpr ⟨⟨fun _ => ?_, List.allFrom_append.mpr ⟨?_, ?_, ?_⟩⟩, ?_⟩
        · refine brIfNot_flows hB (h := st.h) (by omega) (hH0.trans (mark_live hdead rfl _)) ?_ ?_
          · rw [hstartB]
            simp only
            omega
          · rw [hstartE]
            omega
        · exact flows_close.mpr (ihb hbody hin h1 (annotated_close.mp hHb) (fun _ => hlabIn) hexitB
            ((grows_body els ise ste h2).trans hgrow))
        · rw [hpcb]
          intro h0
          refine br_flows hB (by rw [hHj]; exact h0) ?_
          cases hb' : stb.dead with
          | true =>
            rw [mark_ghost (by rw [hb']; rfl)] at h0
            omega
          | false => rw [hend, hexitB hb', (h4 hb').2, List.length_reverse]
        · rw [hpcb]
          exact flows_close.mpr (ihe hels hinE h2 (annotated_close.mp hHe) (fun _ => hlabIn) hexitE
            hgrow)
        · rw [hpce]
          have hr := ihr hrest hleave h3 hHr hlab hexit hpool
          exact hr

end Body

/-! ## The deepest operand stack -/

theorem mark_le {ghost : Bool} (h : Nat) : st.mark ghost h ≤ h := by
  unfold State.mark
  split_ifs <;> omega

theorem branchItems_le {ghost : Bool} {l : Label} {k : Nat} (hdead : st.dead = false) (hf : l.Fits st) :
    ∀ p ∈ branchItems env ghost l k st, p.2 ≤ st.h := by
  intro p hp
  have hfit := hf hdead
  unfold branchItems at hp
  obtain hp | hp := List.mem_append.mp hp
  · split_ifs at hp
    · rw [List.mem_singleton.mp hp]
      exact mark_le _
    · cases hp
  · rw [List.mem_singleton.mp hp]
    exact (mark_le _).trans (by omega)

theorem branchIfItems_le {ghost : Bool} {l : Label} {k : Nat} (hdead : st.dead = false)
    (hf : l.Fits st.taken) : ∀ p ∈ branchIfItems env ghost l k st, p.2 ≤ st.h := by
  intro p hp
  obtain rfl | hp := List.mem_cons.mp hp
  · exact mark_le _
  · have := branchItems_le (show st.taken.dead = false from hdead) hf p hp
    refine this.trans ?_
    simp only [State.taken, State.after, hdead, Bool.false_eq_true, if_false]
    omega

theorem tableArms_le {ghost : Bool} {scratch : Nat} {ks : List Nat}
    (hks : ∀ k ∈ ks, ∃ l, L[k]? = some l ∧ l.Fits st) (hdead : st.dead = false) {i : Nat}
    (harms : tableArms env L ghost scratch i ks st = some (is, st')) :
    ∀ p ∈ is, p.2 ≤ st.h + 2 := by
  induction ks generalizing i st is with
  | nil =>
    cases harms
    exact fun p hp => by cases hp
  | cons k ks ih =>
    obtain ⟨is1, st1, is2, h1, h2, rfl⟩ := andThen_eq_some.mp harms
    obtain ⟨l, hk, hf⟩ := hks k (List.mem_cons_self ..)
    have h1' := h1
    obtain ⟨is1', consts, harm⟩ := tableArm_some env L ghost st scratch i hk hf
    rw [h1] at harm
    cases harm
    have hks' : ∀ k' ∈ ks, ∃ l, L[k']? = some l ∧
        l.Fits ⟨st.pc + is1.length, consts, st.h, st.dead⟩ :=
      fun k' hk' => hks k' (List.mem_cons_of_mem _ hk')
    have hrest := ih hks' hdead h2
    intro p hp
    obtain hp | hp := List.mem_append.mp hp
    · set c := intern (BitVec.ofNat 64 (i % 2 ^ 32)) st.consts with hc
      obtain ⟨hh, hdead'⟩ := compared_taken st c.2
      have hfit := (Label.fits_congr hdead' hh).mpr hf
      have hcomp : (st.compared c.2).h = st.h + 1 := by
        simp [State.compared, State.after, hdead]
      rw [tableArm_eq, ← hc, branchIf_some env L ghost (st.compared c.2) hk (fun _ => by omega) hfit]
        at h1'
      simp only [Option.map_some, Option.some.injEq, Prod.mk.injEq] at h1'
      rw [← h1'.1] at hp
      simp only [State.after, hdead, Bool.false_eq_true, if_false, List.mem_cons] at hp
      obtain rfl | rfl | rfl | hp := hp
      · exact (mark_le _).trans (by omega)
      · exact (mark_le _).trans (by push_cast; omega)
      · exact (mark_le _).trans (by push_cast; omega)
      · have := branchIfItems_le (show (st.compared c.2).dead = false from hdead) hfit p hp
        rw [hcomp] at this
        push_cast at this
        omega
    · exact hrest p hp

theorem mark_height_le {ghost : Bool} : st.mark ghost st.h ≤ (st.height.getD 0 : Nat) := by
  unfold State.mark State.height
  cases st.dead with
  | true => simp
  | false =>
    simp only [Bool.false_or, Bool.false_eq_true, if_false, Option.getD_some]
    split_ifs <;> omega

theorem close_le {t : Nat} {is : Items} {K : Int} (h : ∀ p ∈ is, p.2 ≤ K) :
    ∀ p ∈ close t is, p.2 ≤ K := by
  intro p hp
  obtain ⟨q, hq, rfl⟩ := List.mem_map.mp hp
  exact h q hq

theorem leave_height_taken {np nr : Nat} {stb : State} :
    (st.leave (below np (st.height.map (· - 1))) nr stb).height =
      behind np nr (st.height.map (· - 1)) := by
  unfold State.height State.leave below behind
  cases st.dead <;> rfl

theorem le_deepest (extra : Nat) (b : Body) (h : Option Nat) : h.getD 0 ≤ b.deepest C extra h := by
  induction b generalizing h with
  | nil => exact le_rfl
  | op o rest ih =>
    rw [Body.deepest]
    refine le_trans ?_ (le_max_left _ _)
    cases h with
    | none => exact le_rfl
    | some n => exact Nat.le_add_right _ _
  | block bt b rest ihb ihr | loop bt b rest ihb ihr =>
    rw [Body.deepest]
    exact (ihb h).trans (le_max_left _ _)
  | ifThen bt b rest ihb ihr | ifElse bt b els rest ihb ihe ihr =>
    rw [Body.deepest]
    exact le_max_left _ _

section Deepest

variable {Lt : List (List ValType)} {B : Nat} {ts ts' : List ValType} {o : Operator}

theorem operator_le (hd : Describes env C) (hstep : OpStep C Lt o ts ts') (htr : Tracks L Lt B ts st)
    (hop : operator env L false o st = some (is, st')) (hdead : st.dead = false) :
    ∀ p ∈ is, p.2 ≤ (st.h + (if o.compares then 1 else 0) : Nat) := by
  have hplain : ∀ {op a b pops pushes consts}, plain false op a b pops pushes
      { st with consts := consts } = some (is, st') → ∀ p ∈ is, p.2 ≤ (st.h : Int) := by
    intro op a b pops pushes consts h p hp
    unfold plain emit at h
    obtain ⟨st1, -, h2⟩ := Option.map_eq_some_iff.mp h
    cases h2
    rw [List.mem_singleton.mp hp]
    exact mark_le _
  have hlow : (∀ p ∈ is, p.2 ≤ (st.h : Int)) →
      ∀ p ∈ is, p.2 ≤ (st.h + (if o.compares then 1 else 0) : Nat) := by
    intro h p hp
    have := h p hp
    push_cast
    split_ifs <;> omega
  obtain ⟨hall, hfit, -⟩ := operator_outcome hd hstep htr hop
  have hform := operator_form env L false st o
  generalize operator env L false o st = y at hform hop
  cases hform with
  | rejected => cases hop
  | nop =>
    cases hop
    exact fun p hp => by cases hp
  | reinterpret x =>
    obtain ⟨st1, -, h2⟩ := Option.map_eq_some_iff.mp hop
    cases h2
    exact fun p hp => by cases hp
  | plain o op a b pops pushes h => exact hlow (hplain hop)
  | tee i =>
    cases hop
    refine hlow fun p hp => ?_
    simp only [List.mem_cons, List.not_mem_nil, or_false] at hp
    obtain rfl | rfl := hp
    · exact mark_le _
    · exact (mark_le _).trans (by omega)
  | emit o i | kill o i =>
    cases hop
    refine hlow fun p hp => ?_
    rw [List.mem_singleton.mp hp]
    exact mark_le _
  | br k =>
    obtain ⟨lt, hlt, -⟩ := targets_typed hstep k (List.mem_singleton_self _)
    obtain ⟨l, hk, -⟩ := htr.label hlt
    have hf : l.Fits st := fun h => hfit k (List.mem_singleton_self _) l hk h
    rw [branch_some env L false st hk hf] at hop
    cases hop
    exact hlow (branchItems_le hdead hf)
  | brIf k =>
    obtain ⟨lt, hlt, hlen⟩ := targets_typed hstep k (List.mem_singleton_self _)
    obtain ⟨l, hk, -⟩ := htr.label hlt
    have h1 : st.dead = false → 1 ≤ st.h := fun h => by
      have := hfit k (List.mem_singleton_self _) l hk h
      simp only [Operator.condition] at this
      omega
    have hf : l.Fits st.taken := (fits_taken h1).mpr fun h => hfit _ (List.mem_singleton_self _) l hk h
    rw [branchIf_some env L false st hk h1 hf] at hop
    cases hop
    exact hlow (branchIfItems_le hdead hf)
  | brTable ks k =>
    obtain ⟨scratch, hs⟩ := Option.isSome_iff_exists.mp (hall.scratch rfl)
    have htgt : ∀ k' ∈ ks ++ [k], ∃ l, L[k']? = some l ∧ (st.dead = false → 1 ≤ st.h) ∧
        l.Fits st.taken := by
      intro k' hk'
      obtain ⟨lt', hlt', -⟩ := targets_typed hstep k' hk'
      obtain ⟨l, hl', -⟩ := htr.label hlt'
      have h1 : st.dead = false → 1 ≤ st.h := fun h => by
        have := hfit k' hk' l hl' h
        simp only [Operator.condition] at this
        omega
      exact ⟨l, hl', h1, (fits_taken h1).mpr fun h => hfit k' hk' l hl' h⟩
    obtain ⟨l, hk, h1, hf⟩ := htgt k (by simp)
    have htaken : st.after 1 0 + 1 = st.h := by
      have := h1 hdead
      simp only [State.after, hdead, Bool.false_eq_true, if_false]
      omega
    unfold table at hop
    simp only [hs] at hop
    obtain ⟨is1, st1, is2, h3, h4, rfl⟩ := andThen_eq_some.mp hop
    obtain ⟨is3, st3, is4, h5, h6, rfl⟩ := andThen_eq_some.mp h4
    obtain ⟨⟨is5, st5⟩, h7, h8⟩ := Option.map_eq_some_iff.mp h6
    cases h8
    rw [plain_some h1] at h3
    cases h3
    obtain ⟨is3', consts, h5'⟩ := tableArms_some env L false
      { st with pc := st.pc + 1, h := st.after 1 0 } scratch 0
      (fun k' hk' => (htgt k' (List.mem_append_left _ hk')).imp fun l h => ⟨h.1, h.2.2⟩)
    rw [h5] at h5'
    cases h5'
    have harms := tableArms_le
      (fun k' hk' => (htgt k' (List.mem_append_left _ hk')).imp fun l h => ⟨h.1, h.2.2⟩)
      (show State.dead { st with pc := st.pc + 1, h := st.after 1 0 } = false from hdead) h5
    rw [branch_some env L false
      (⟨st.pc + 1 + is3.length, consts, st.after 1 0, st.dead⟩ : State) hk hf] at h7
    cases h7
    have hbr := @branchItems_le env ⟨st.pc + 1 + is3.length, consts, st.after 1 0, st.dead⟩ false _ k hdead hf
    have hle : (st.h : Int) ≤ (st.h + (if Operator.compares (.brTable ks k) then 1 else 0) : Nat) := by
      omega
    intro p hp
    obtain hp | hp := List.mem_append.mp hp
    · rw [List.mem_singleton.mp hp]
      exact (mark_le _).trans hle
    · obtain harm | hp := List.mem_append.mp hp
      · cases ks with
        | nil =>
          cases h5
          cases harm
        | cons k' ks =>
          have := harms p harm
          simp only at this
          rw [if_pos (show Operator.compares (.brTable (k' :: ks) k) = true from rfl)]
          push_cast
          omega
      · have := hbr p hp
        simp only at this
        omega

/-- No height next to an item exceeds the deepest operand stack of the body, nor does the height behind
the body. -/
theorem body_le (hd : Describes env C) (b : Body) :
    ∀ {Lt r ts us}, Typed C Lt r ts b us → ∀ {L st B is st'}, Tracks L Lt B ts st →
      body env L false st b = some (is, st') →
        (∀ p ∈ is, p.2 ≤ b.deepest C 1 st.height) ∧ st'.height.getD 0 ≤ b.deepest C 1 st.height := by
  have hghost : ∀ {b : Body} {L ghost st is st' K}, body env L ghost st b = some (is, st') →
      (st.dead || ghost) = true → ∀ p ∈ is, p.2 ≤ ((K : Nat) : Int) := by
    intro b L ghost st is st' K h hg p hp
    rw [(unreached_body b is st' h).2 hg p hp]
    omega
  induction b with
  | nil =>
    intro Lt r ts us _ L st B is st' _ hb
    cases hb
    exact ⟨fun p hp => (by cases hp), le_rfl⟩
  | op o rest ih =>
    intro Lt r ts us ht L st B is st' htr hb
    cases hdead : st.dead with
    | true =>
      have hend := (unreached_body (.op o rest) is st' hb).1 hdead
      refine ⟨hghost hb (by rw [hdead]; rfl), ?_⟩
      simp [State.height, hend]
    | false =>
      obtain ⟨r', ts', hstep, hrest⟩ := typed_op ht
      obtain ⟨is1, st1, is2, h1, h2, rfl⟩ := body_op_some.mp hb
      obtain ⟨-, -, hout⟩ := operator_outcome hd hstep htr h1
      obtain ⟨hitems, hend⟩ := ih hrest hout.tracks h2
      rw [hout.height] at hitems hend
      rw [Body.deepest]
      refine ⟨fun p hp => ?_, hend.trans (le_max_right _ _)⟩
      have hh : st.height = some st.h := by simp [State.height, hdead]
      obtain hp | hp := List.mem_append.mp hp
      · have hle := operator_le hd hstep htr h1 hdead p hp
        rw [hh]
        exact hle.trans (Int.ofNat_le.mpr (le_max_left _ _))
      · exact (hitems p hp).trans (Int.ofNat_le.mpr (le_max_right _ _))
  | block bt b rest ihb ihr =>
    intro Lt r ts us ht L st B is st' htr hb
    cases ht with
    | block hbt hbody hrest =>
      rename_i ft ts
      obtain ⟨a, ha, base, he, isb, stb, isr, h1, h2, rfl⟩ := body_block_some.mp hb
      obtain rfl := hd.blockArity hbt ha
      obtain ⟨hbase, hin⟩ := enter_tracks htr he ⟨none, base, _⟩ _ rfl (List.length_reverse ..).symm
      have hinner := close_le (t := stb.pc) (ihb hbody hin h1).1
      obtain ⟨houter, hend⟩ := ihr hrest (leave_tracks ft stb htr hbase) h2
      rw [enter_some htr] at he
      cases he
      rw [leave_height] at houter hend
      rw [Body.deepest, show bt.arity C.types = (ft.1.length, ft.2.length) by
        simp only [BlockType.arity, hbt]]
      refine ⟨fun p hp => ?_, hend.trans (le_max_right _ _)⟩
      obtain hp | hp := List.mem_append.mp hp
      · exact (hinner p hp).trans (Int.ofNat_le.mpr (le_max_left _ _))
      · exact (houter p hp).trans (Int.ofNat_le.mpr (le_max_right _ _))
  | loop bt b rest ihb ihr =>
    intro Lt r ts us ht L st B is st' htr hb
    cases ht with
    | loop hbt hbody hrest =>
      rename_i ft ts
      obtain ⟨a, ha, base, he, isb, stb, isr, h1, h2, rfl⟩ := body_loop_some.mp hb
      obtain rfl := hd.blockArity hbt ha
      obtain ⟨hbase, hin⟩ := enter_tracks htr he ⟨some st.pc, base, _⟩ _ rfl
        (List.length_reverse ..).symm
      have hinner := close_le (t := stb.pc) (ihb hbody hin h1).1
      obtain ⟨houter, hend⟩ := ihr hrest (leave_tracks ft stb htr hbase) h2
      rw [enter_some htr] at he
      cases he
      rw [leave_height] at houter hend
      rw [Body.deepest, show bt.arity C.types = (ft.1.length, ft.2.length) by
        simp only [BlockType.arity, hbt]]
      refine ⟨fun p hp => ?_, hend.trans (le_max_right _ _)⟩
      obtain hp | hp := List.mem_append.mp hp
      · exact (hinner p hp).trans (Int.ofNat_le.mpr (le_max_left _ _))
      · exact (houter p hp).trans (Int.ofNat_le.mpr (le_max_right _ _))
  | ifThen bt b rest ihb ihr =>
    intro Lt r ts us ht L st B is st' htr hb
    cases ht with
    | ifThen hbt heq hbody hrest =>
      rename_i ft ts
      obtain ⟨a, ha, st0, hc, base, he, isb, stb, isr, h1, h2, rfl⟩ := body_ifThen_some.mp hb
      obtain rfl := hd.blockArity hbt ha
      obtain ⟨st0', hc', hdead0, hh⟩ := consume_condition htr
      rw [hc] at hc'
      cases hc'
      obtain ⟨htr0, -⟩ := consume_tracks htr hc (st.pc + 1)
      obtain ⟨hbase, hin⟩ := enter_tracks htr0 he ⟨none, base, _⟩ _ rfl
        (List.length_reverse ..).symm
      have hinner := close_le (t := stb.pc) (ihb hbody hin h1).1
      obtain ⟨houter, hend⟩ := ihr hrest (leave_tracks ft stb htr (hdead0 ▸ hbase)) h2
      have he' := enter_some htr0
      rw [enter_pc, he, hh] at he'
      cases he'
      rw [hh] at hinner
      rw [leave_height_taken] at houter hend
      rw [Body.deepest, show bt.arity C.types = (ft.1.length, ft.2.length) by
        simp only [BlockType.arity, hbt]]
      refine ⟨fun p hp => ?_, hend.trans ((le_max_right _ _).trans (le_max_right _ _))⟩
      obtain hp | hp := List.mem_append.mp hp
      · obtain rfl | hp := List.mem_cons.mp hp
        · exact (mark_height_le ..).trans (Int.ofNat_le.mpr (le_max_left _ _))
        · exact (hinner p hp).trans (Int.ofNat_le.mpr
            ((le_max_left _ _).trans (le_max_right _ _)))
      · exact (houter p hp).trans (Int.ofNat_le.mpr ((le_max_right _ _).trans (le_max_right _ _)))
  | ifElse bt b els rest ihb ihe ihr =>
    intro Lt r ts us ht L st B is st' htr hb
    cases ht with
    | ifElse hbt hbody hels hrest =>
      rename_i ft ts
      obtain ⟨a, ha, st0, hc, base, he, isb, stb, ise, ste, isr, h1, h2, h3, rfl⟩ :=
        body_ifElse_some.mp hb
      obtain rfl := hd.blockArity hbt ha
      obtain ⟨st0', hc', hdead0, hh⟩ := consume_condition htr
      rw [hc] at hc'
      cases hc'
      obtain ⟨htr0, -⟩ := consume_tracks htr hc (st.pc + 1)
      obtain ⟨hbase, hin⟩ := enter_tracks htr0 he ⟨none, base, ft.2.length⟩ ft.2.reverse rfl
        (List.length_reverse ..).symm
      have hinE : Tracks (⟨none, base, ft.2.length⟩ :: L) (ft.2.reverse :: Lt) base ft.1.reverse
          { stb with pc := stb.pc + 1, h := base + ft.1.length, dead := false } :=
        ⟨hin.arity, fun _ => by rw [List.length_reverse]⟩
      obtain ⟨h4, -⟩ := body_tracks hd b hbody hin h1
      have hinner := close_le (t := ste.pc) (ihb hbody hin h1).1
      obtain ⟨houter, hend⟩ := ihr hrest (leave_tracks ft ste htr (hdead0 ▸ hbase)) h3
      have helse : ∀ p ∈ close ste.pc ise, p.2 ≤ els.deepest C 1 (st.height.map (· - 1)) := by
        cases hdead : st.dead with
        | true => exact close_le (hghost h2 (by rw [hdead]; simp))
        | false =>
          rw [hdead, Bool.or_false] at h2
          have h5 := hin.height (hdead0.trans hdead)
          rw [List.length_reverse] at h5
          have h6 : State.height { stb with pc := stb.pc + 1, h := base + ft.1.length, dead := false } =
              st.height.map (· - 1) := by
            rw [← hh (st.pc + 1), ← h5]
            simp [State.height, hdead0, hdead]
          rw [← h6]
          exact close_le (ihe hels hinE h2).1
      have hjump : stb.mark false stb.h ≤ (rest.deepest C 1
          (behind ft.1.length ft.2.length (st.height.map (· - 1))) : Nat) := by
        cases hb' : stb.dead with
        | true =>
          rw [mark_ghost (by rw [hb']; rfl)]
          omega
        | false =>
          obtain ⟨h5, h6⟩ := h4 hb'
          have h7 := hin.height h5
          have h8 : st.height = some st.h := by
            have : st.dead = false := hdead0 ▸ h5
            simp [State.height, this]
          have h9 := (consume_live (hdead0 ▸ h5) hc).2
          rw [List.length_reverse] at h6 h7
          refine (mark_le _).trans (Int.ofNat_le.mpr (le_trans ?_ (le_deepest ..)))
          rw [h8]
          simp only [behind, Option.map_some, Option.getD_some]
          simp only at h7
          omega
      have he' := enter_some htr0
      rw [enter_pc, he, hh] at he'
      cases he'
      rw [hh] at hinner
      rw [leave_height_taken] at houter hend
      rw [Body.deepest, show bt.arity C.types = (ft.1.length, ft.2.length) by
        simp only [BlockType.arity, hbt]]
      refine ⟨fun p hp => ?_, hend.trans ((le_max_right _ _).trans (le_max_right _ _))⟩
      obtain hp | hp := List.mem_append.mp hp
      · obtain rfl | hp := List.mem_cons.mp hp
        · exact (mark_height_le ..).trans (Int.ofNat_le.mpr (le_max_left _ _))
        · obtain hp | hp := List.mem_append.mp hp
          · exact (hinner p hp).trans (Int.ofNat_le.mpr (((le_max_left _ _).trans
              (le_max_left _ _)).trans (le_max_right _ _)))
          · obtain rfl | hp := List.mem_cons.mp hp
            · exact hjump.trans (Int.ofNat_le.mpr ((le_max_right _ _).trans (le_max_right _ _)))
            · exact (helse p hp).trans (Int.ofNat_le.mpr (((le_max_right _ _).trans
                (le_max_left _ _)).trans (le_max_right _ _)))
      · exact (houter p hp).trans (Int.ofNat_le.mpr ((le_max_right _ _).trans (le_max_right _ _)))

end Deepest

/-! ## Functions -/

/-- The heights next to the items, by position. -/
def marks (is : Items) (r : Nat) : Int :=
  match is[r]? with
  | some p => p.2
  | none => -1

/-- The same by program counter, for items that start at `off`. -/
def marksFrom (off : Nat) (is : Items) (pc : Nat) : Int := if off ≤ pc then marks is (pc - off) else -1

theorem marksFrom_add (off : Nat) (is : Items) (r : Nat) : marksFrom off is (off + r) = marks is r := by
  unfold marksFrom
  rw [if_pos (by omega), Nat.add_sub_cancel_left]

theorem marks_nonneg {is : Items} {r : Nat} (h : 0 ≤ marks is r) :
    ∃ p, is[r]? = some p ∧ p.2 = marks is r := by
  unfold marks at h ⊢
  cases hr : is[r]? with
  | none =>
    rw [hr] at h
    exact absurd h (by simp)
  | some p => exact ⟨p, rfl, rfl⟩

theorem marksFrom_nonneg {off : Nat} {is : Items} {pc : Nat} (h : 0 ≤ marksFrom off is pc) :
    off ≤ pc ∧ ∃ p, is[pc - off]? = some p ∧ p.2 = marksFrom off is pc := by
  unfold marksFrom at h ⊢
  by_cases hle : off ≤ pc
  · rw [if_pos hle] at h ⊢
    exact ⟨hle, marks_nonneg h⟩
  · rw [if_neg hle] at h
    omega

theorem marksFrom_annotated (off : Nat) (is : Items) : Annotated (marksFrom off is) off is := by
  refine List.allFrom_iff.mpr fun k p hk => ?_
  rw [marksFrom_add]
  unfold marks
  rw [hk]

/-- The code of `f` is that of the items of the pass over its body. -/
structure Emitted (m : HostModule) (f : FuncMeta) (env : LowerEnv) (C : Ctx) (b : Body) (is : Items) :
    Prop where
  linked : Linked m f env C
  valid : b.Valid C
  pass : ∃ consts consts', function env f.codeOff consts b = some (is, consts') ∧
    consts' <+: m.consts
  codeLen : f.codeLen = is.length
  code : ∀ (k : Nat) (p : Item × Int), is[k]? = some p →
    m.code[f.codeOff + k]? = some (p.1.render fun _ => 0)

variable {b : Body}

/-- The parts of the pass over a function. -/
theorem Emitted.body_some (h : Emitted m f env C b is) : ∃ consts isb stb,
    body env [⟨none, 0, env.nResults⟩] false ⟨f.codeOff, consts, 0, false⟩ b = some (isb, stb) ∧
      is = close stb.pc isb ++ [(.code ⟨.endFunc, env.nResults, 0⟩, (env.nResults : Int))] ∧
      stb.consts <+: m.consts ∧ stb.pc = f.codeOff + isb.length ∧
      Tracks [⟨none, 0, env.nResults⟩] [C.results.reverse] 0 [] ⟨f.codeOff, consts, 0, false⟩ ∧
      (stb.dead = false → stb.h = env.nResults) := by
  obtain ⟨consts, consts', hp, hpool⟩ := h.pass
  unfold function at hp
  obtain ⟨⟨isb, stb⟩, hb, heq⟩ := Option.map_eq_some_iff.mp hp
  cases heq
  have htr : Tracks [⟨none, 0, env.nResults⟩] [C.results.reverse] 0 []
      ⟨f.codeOff, consts, 0, false⟩ :=
    ⟨by simp [h.linked.describes.results], fun _ => rfl⟩
  obtain ⟨h1, h2⟩ := body_tracks h.linked.describes b h.valid htr hb
  refine ⟨consts, isb, stb, hb, rfl, hpool, h2, htr, fun hdead => ?_⟩
  rw [(h1 hdead).2, List.length_reverse, Nat.zero_add, h.linked.describes.results]

/-- The heights of the pass over a valid function start at zero and solve the flow equations. -/
theorem Emitted.flows (h : Emitted m f env C b is) :
    marks is 0 = 0 ∧ Inside f (marksFrom f.codeOff is) ∧
      Flows m f (marksFrom f.codeOff is) (fun _ => 0) f.codeOff is := by
  obtain ⟨consts, isb, stb, hb, his, hpool, hpc, htr, hres⟩ := h.body_some
  have hl := h.linked
  set H := marksFrom f.codeOff is with hHdef
  have hinside : Inside f H := by
    intro p hp
    obtain ⟨hle, q, hq, -⟩ := marksFrom_nonneg hp
    have := (List.getElem?_eq_some_iff.mp hq).1
    rw [h.codeLen]
    omega
  have hann : Annotated H f.codeOff is := marksFrom_annotated _ _
  have hann' := hann
  rw [his] at hann'
  obtain ⟨hannb, hanne⟩ := List.allFrom_append.mp hann'
  rw [close_length, ← hpc] at hanne
  have hend : H stb.pc = env.nResults := hanne.1
  have hexit : stb.dead = false → H stb.pc = stb.h := fun hd => by rw [hend, hres hd]
  have hstart : H f.codeOff = 0 :=
    body_entry hl.describes b h.valid htr hb (annotated_close.mp hannb) rfl hexit
  refine ⟨?_, hinside, ?_⟩
  · rw [← hstart, hHdef, ← marksFrom_add f.codeOff, Nat.add_zero]
  · rw [his]
    refine List.allFrom_append.mpr ⟨?_, fun _ => ?_, trivial⟩
    · refine flows_close.mpr (body_flows hl hinside b h.valid htr hb (annotated_close.mp hannb)
        (fun _ k l hk => ?_) hexit hpool)
      cases k with
      | zero =>
        cases hk
        rw [Label.need, Nat.zero_add]
        exact hend
      | succ k => cases hk
    · rw [close_length, ← hpc]
      refine fun _ => ⟨trivial, { nextH := H stb.pc, fall := false }, ?_, rfl, nofun, nofun⟩
      simp only [Item.render, flow]
      rw [if_neg (by rw [hend, hl.nResults]; omega)]

/-- The flow equation at one position of the function. -/
theorem Emitted.flowAt (h : Emitted m f env C b is) {r : Nat} (hr : 0 ≤ marks is r)
    (hsmall : f.nParams + f.nLocals + marks is r < 2 ^ 31) :
    Tame m f (instrAt m f r) ∧ ∃ fl, FlowAt m f (marks is) (max (marks is r) fl.nextH) r fl := by
  obtain ⟨-, hinside, hflows⟩ := h.flows
  have hH : ∀ r, marksFrom f.codeOff is (f.codeOff + r) = marks is r := fun r => marksFrom_add _ _ r
  obtain ⟨p, hp, hpr⟩ := marks_nonneg hr
  have hlt : r < f.codeLen := by
    rw [h.codeLen]
    exact (List.getElem?_eq_some_iff.mp hp).1
  have hinstr : instrAt m f r = p.1.render fun _ => 0 := by
    unfold instrAt
    rw [List.getD_eq_getElem?_getD, h.code r p hp]
    rfl
  obtain ⟨htame, fl, hf, hi, ht, hfall⟩ :=
    List.allFrom_iff.mp hflows r p hp (by rw [hpr]; exact hr) (by rw [hH]; exact hsmall)
  rw [hH] at hf
  have hcase := flow_cases hr hf
  have hnn := hcase.nonneg hr
  refine ⟨hinstr ▸ htame, fl, hlt, by rw [hinstr]; exact hf, by rw [hinstr]; exact hi, fun t htt => ?_,
    fun hfl => ?_, le_max_left _ _, le_max_right _ _⟩
  · have h1 := hcase.target_mem htt
    have h2 := ht t htt
    rw [show t = f.codeOff + (t - f.codeOff) by omega, hH] at h2
    exact ⟨by omega, h2⟩
  · have h2 := hfall hfl
    have h3 := hinside (f.codeOff + r + 1) (by rw [h2]; exact hnn)
    rw [Nat.add_assoc, hH] at h2
    exact ⟨by omega, h2⟩

/-- Heights in range solve the verifier's equations. -/
theorem Emitted.closed (h : Emitted m f env C b is)
    (hframe : ∀ p ∈ is, f.nParams + f.nLocals + p.2 < 2 ^ 31) {K : Int} (hK : ∀ p ∈ is, p.2 ≤ K) :
    Closed m f (marks is) K := by
  refine ⟨h.flows.1, fun r hr => ?_⟩
  obtain ⟨p, hp, hpr⟩ := marks_nonneg hr
  have hsmall := hframe p (List.mem_of_getElem? hp)
  obtain ⟨-, fl, hfl⟩ := h.flowAt hr (by omega)
  refine ⟨fl, hfl.lower hr fun n hn => ?_⟩
  obtain ⟨q, hq, hq'⟩ := marks_nonneg hn
  rw [← hq']
  exact hK q (List.mem_of_getElem? hq)

theorem stops_render {i : Item} (h : i.stops) (t : Nat) (T : Nat → Nat) :
    let op := ((i.resolve t).render T).op
    op = .br ∨ op = .ret ∨ op = .returnCall ∨ op = .unreachable := by
  cases i with
  | code i => exact h
  | jump k => cases k <;> exact .inl rfl

/-- Items that stop control are not left behind the last one. -/
theorem Stopped.last_stops {isb : Items} (h : Stopped isb) {p : Item × Int} {k : Nat}
    (hk : isb[k]? = some p) (hlast : k + 1 = isb.length) : p.1.stops ∨ p.2 = -1 := by
  obtain ⟨pre, q, post, rfl, hq, hpost⟩ := h
  rw [List.length_append, List.length_cons] at hlast
  cases post with
  | nil =>
    rw [List.getElem?_append_right (by simp at hlast; omega),
      show k - pre.length = 0 by simp at hlast; omega] at hk
    cases hk
    exact .inl hq
  | cons x post =>
    rw [List.getElem?_append_right (by simp at hlast; omega)] at hk
    obtain ⟨j, hj⟩ : ∃ j, k - pre.length = j + 1 := ⟨k - pre.length - 1, by simp at hlast; omega⟩
    rw [hj, List.getElem?_cons_succ] at hk
    exact .inr (hpost p (List.mem_of_getElem? hk))

/-- The heights of the reachable positions do not exceed the deepest operand stack of the body: the
results in front of the closing `OP_END_FUNC` count where that instruction is reached. -/
theorem Emitted.reached_le (h : Emitted m f env C b is) {B : Int} (hG : Closed m f (marks is) B)
    {r : Nat} (hr : Reach m f r) : marks is r ≤ (b.deepest C 1 (some 0) : Nat) := by
  obtain ⟨consts, isb, stb, hb, his, -, -, htr, hres⟩ := h.body_some
  obtain ⟨hle, hend⟩ := body_le h.linked.describes b h.valid htr hb
  have hget {k : Nat} {p : Item × Int} (hk : isb[k]? = some p) :
      is[k]? = some (p.1.resolve stb.pc, p.2) := by
    have hlt := (List.getElem?_eq_some_iff.mp hk).1
    rw [his, List.getElem?_append_left (by rwa [close_length]), close, List.getElem?_map, hk]
    rfl
  have hlast : is[isb.length]? = some (.code ⟨.endFunc, env.nResults, 0⟩, (env.nResults : Int)) := by
    rw [his, List.getElem?_append_right (by rw [close_length]), close_length, Nat.sub_self]
    rfl
  have hinner {k : Nat} (hk : k < isb.length) : marks is k ≤ (b.deepest C 1 (some 0) : Nat) := by
    have hp := List.getElem?_eq_getElem hk
    unfold marks
    rw [hget hp]
    exact hle isb[k] (List.getElem_mem hk)
  have hknown {k : Nat} (hk : 0 ≤ marks is k) : k < isb.length + 1 := by
    obtain ⟨p, hp, -⟩ := marks_nonneg hk
    have := (List.getElem?_eq_some_iff.mp hp).1
    rwa [his, List.length_append, close_length] at this
  rcases Nat.lt_or_eq_of_le (Nat.le_of_lt_succ (hknown (hG.reach_nonneg hr))) with hlt | rfl
  · exact hinner hlt
  · rcases hr.pred with h0 | ⟨r, hr, hs⟩
    · rw [h0, hG.start]
      exact Int.natCast_nonneg _
    -- the closing instruction follows another one
    have hk := hG.reach_nonneg hr
    obtain ⟨fl, hfl⟩ := hG.flowAt r hk
    have hcase := flow_cases hk hfl.flow
    have hlt : r < isb.length := by
      refine lt_of_le_of_ne (Nat.le_of_lt_succ (hknown hk)) ?_
      rintro rfl
      have hi : instrAt m f isb.length = ⟨.endFunc, env.nResults, 0⟩ := by
        unfold instrAt
        rw [List.getD_eq_getElem?_getD, h.code _ _ hlast]
        rfl
      rw [hi] at hs
      cases hs
    have hp := List.getElem?_eq_getElem hlt
    have hi : instrAt m f r = (isb[r].1.resolve stb.pc).render fun _ => 0 := by
      unfold instrAt
      rw [List.getD_eq_getElem?_getD, h.code _ _ (hget hp)]
      rfl
    have hsame : marks is isb.length = fl.nextH := hfl.successor hk hs
    rcases hcase.successor.mp hs with ⟨hfall, heq⟩ | ⟨t, ht, -⟩
    · cases hdead : stb.dead with
      | true =>
        rcases (stops_body b isb stb hb rfl hdead).last_stops hp heq.symm with hstop | hmark
        · have := hcase.stops (hi ▸ stops_render hstop stb.pc _)
          rw [hfall] at this
          cases this
        · have : marks is r = -1 := by
            unfold marks
            rw [hget hp]
            exact hmark
          omega
      | false =>
        have hheight : stb.height.getD 0 = env.nResults := by simp [State.height, hdead, hres hdead]
        have hresults : marks is isb.length = env.nResults := by
          unfold marks
          rw [hlast]
        rw [hresults, ← hheight]
        exact Int.ofNat_le.mpr hend
    · rw [hsame]
      exact (hcase.next_le (.inr (by rw [ht]; simp))).trans (hinner hlt)

/-- In a function that passed the check, the heights of the verifier are those of the pass. -/
theorem Emitted.agree (h : Emitted m f env C b is) (hlen : 0 < f.codeLen) {st : VState}
    (hst : analyse id m f = .ok st) (hfit : f.nParams + f.nLocals + st.maxH ≤ 65535) {r : Nat}
    (hr : 0 ≤ st.height r) : st.height r = marks is r ∧ Tame m f (instrAt m f r) := by
  have hcl := analyse_closed hlen hst
  have hflow : ∀ {r}, 0 ≤ st.height r → st.height r = marks is r →
      Tame m f (instrAt m f r) ∧ ∃ fl, FlowAt m f (marks is) (max (marks is r) fl.nextH) r fl := by
    intro r h0 heq
    obtain ⟨fl, hfl⟩ := hcl.flowAt r h0
    have hle := hfl.le
    exact h.flowAt (heq ▸ h0) (by omega)
  have hreach := (known_iff_reach hlen hst).mp hr
  -- both analyses pass the same height from a position to its successors
  have hmarks : st.height r = marks is r := by
    clear hr
    induction hreach with
    | entry => rw [hcl.start, h.flows.1]
    | step hr hs ih =>
      have h0 := (known_iff_reach hlen hst).mpr hr
      obtain ⟨fl, hfl⟩ := hcl.flowAt _ h0
      obtain ⟨-, fl', hfl'⟩ := hflow h0 ih
      have hsame : fl = fl' := by
        have h1 := hfl.flow
        rw [ih, hfl'.flow] at h1
        exact (Except.ok.inj h1).symm
      rw [hfl.successor h0 hs, hfl'.successor (ih ▸ h0) hs, hsame]
  exact ⟨hmarks, (hflow hr hmarks).1⟩

end Structured

end CuWasm
