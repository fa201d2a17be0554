import CuWasm.Proofs.DisciplineProofs

/-!
# The verifier over the C++ `int`

As long as no sum leaves the range of an `int`, the pass of the source is the one in exact integers:
round by round, in whatever order the worklist is processed, and up to the verdict. `repeated` shows
what happens otherwise.
-/

namespace CuWasm

namespace Verify

variable {m : HostModule} {f : FuncMeta}

/-! ## One round -/

/-- Computations whose parts succeed alike succeed alike. -/
theorem bind_ok_congr {α β : Type} {x y : Except String α} {g k : α → Except String β} {b : β}
    (h : ∀ a, x = .ok a ↔ y = .ok a) (hg : ∀ a, y = .ok a → (g a = .ok b ↔ k a = .ok b)) :
    x >>= g = .ok b ↔ y >>= k = .ok b := by
  constructor
  · intro hx
    obtain ⟨a, ha, hb⟩ := bind_eq_ok hx
    rw [(h a).mp ha]
    exact (hg a ((h a).mp ha)).mp hb
  · intro hy
    obtain ⟨a, ha, hb⟩ := bind_eq_ok hy
    rw [(h a).mpr ha]
    exact (hg a ha).mpr hb

theorem cInt_of_range {x : Int} (h : -2 ^ 31 ≤ x) (h' : x < 2 ^ 31) : cInt x = x := by
  rw [cInt, BitVec.toInt_ofInt]
  exact Int.bmod_eq_of_le_mul_two (by omega) (by omega)

theorem cInt_below {x : Int} (h : -2 ^ 32 ≤ x) (h' : x < -2 ^ 31) : cInt x = x + 2 ^ 32 := by
  rw [cInt, BitVec.toInt_ofInt, ← Int.add_bmod_right]
  exact Int.bmod_eq_of_le_mul_two (by omega) (by omega)

theorem toI32_range (n : Nat) : -2 ^ 31 ≤ toI32 n ∧ toI32 n < 2 ^ 31 := by
  have h1 := BitVec.le_toInt (BitVec.ofNat 32 n)
  have h2 := BitVec.toInt_lt (x := BitVec.ofNat 32 n)
  exact ⟨by unfold toI32; omega, by unfold toI32; omega⟩

theorem effect_int {h pops pushes : Int} {msg : String} {k : Nat} (hpush : 0 ≤ pushes)
    (hfl : ∀ fl, effect id h pops pushes msg = .ok fl → (k : Int) + fl.nextH < 2 ^ 31) :
    effect cInt h pops pushes msg = effect id h pops pushes msg := by
  unfold effect at hfl ⊢
  split_ifs with hc
  · rfl
  · have hb := hfl _ (if_neg hc)
    simp only [id_eq] at hb ⊢
    rw [cInt_of_range (by omega) (by omega)]

/-- Where the exact `switch` leaves a frame in range, the `switch` of the source agrees with it. Only
the message of a refused `OP_UNWIND` may differ. -/
theorem flow_int {i : CuOp} {h : Int} (h0 : 0 ≤ h) (hh : f.nParams + f.nLocals + h < 2 ^ 31)
    (hfl : ∀ fl, flow id m f i h = .ok fl → f.nParams + f.nLocals + fl.nextH < 2 ^ 31) (fl : Flow) :
    flow cInt m f i h = .ok fl ↔ flow id m f i h = .ok fl := by
  have hrange := toI32_range i.b
  unfold flow at hfl ⊢
  cases hop : i.op <;> simp only [hop] at hfl ⊢
  case i64Const | localGet | globalGet | memorySize =>
    have hb := hfl _ rfl
    simp only [id_eq] at hb ⊢
    rw [cInt_of_range (by omega) (by omega)]
  case call =>
    cases hg : m.funcs[i.b]? with
    | none => simp only
    | some g =>
      simp only [hg] at hfl ⊢
      rw [effect_int (k := f.nParams + f.nLocals) (by omega) (by push_cast; exact hfl)]
  case callIndirect =>
    split_ifs with h1
    · rfl
    · cases hfp : m.typeFp[i.b]? with
      | none => simp only
      | some fpv =>
        simp only [hfp, if_neg h1] at hfl ⊢
        rw [effect_int (k := f.nParams + f.nLocals) (by omega) (by push_cast at hfl ⊢; exact hfl)]
  case unwind =>
    simp only [id_eq] at hfl ⊢
    by_cases hlow : toI32 i.b - f.nParams - f.nLocals < -2 ^ 31
    · -- the wrapped target height lies above every height in range
      rw [cInt_below (by omega) hlow, if_neg (by omega), if_pos (by omega), if_pos (by omega)]
      simp
    · rw [cInt_of_range (by omega) (by omega)]
  all_goals
    first
      | rfl
      | rw [effect_int (k := f.nParams + f.nLocals) (by omega) (by push_cast at hfl ⊢; exact hfl)]

theorem visit_int {rel : Nat} {st u : VState} (hh : f.nParams + f.nLocals + st.height rel < 2 ^ 31)
    (hfl : ∀ fl, flow id m f (instrAt m f rel) (st.height rel) = .ok fl →
      f.nParams + f.nLocals + fl.nextH < 2 ^ 31) :
    visit cInt m f rel st = .ok u ↔ visit id m f rel st = .ok u := by
  rw [visit_eq, visit_eq]
  by_cases h0 : st.height rel < 0
  · rw [if_pos h0, if_pos h0]
  · rw [if_neg h0, if_neg h0]
    exact bind_ok_congr (flow_int (not_lt.mp h0) hh hfl) fun _ _ => Iff.rfl

/-! ## All rounds -/

theorem join_le {rel : Nat} {h B : Int} {st st' : VState} (hB : ∀ r, st.height r ≤ B) (hh : h ≤ B)
    (hj : join f rel h st = .ok st') (r : Nat) : st'.height r ≤ B := by
  unfold join at hj
  split_ifs at hj
  · cases hj
    simp only [Function.update_apply]
    split_ifs
    · exact hh
    · exact hB r
  · cases hj
    exact hB r

/-- A round knows no height above the ones it started with and the one it computes. -/
theorem visit_le {rel : Nat} {st st' : VState} {B : Int} (hB : ∀ r, st.height r ≤ B)
    (hfl : ∀ fl, flow id m f (instrAt m f rel) (st.height rel) = .ok fl → fl.nextH ≤ B)
    (h : visit id m f rel st = .ok st') (r : Nat) : st'.height r ≤ B := by
  rw [visit_eq] at h
  split_ifs at h
  obtain ⟨fl, hflow, h⟩ := bind_eq_ok h
  obtain ⟨st1, h1, h⟩ := bind_eq_ok h
  obtain ⟨_, -, h2⟩ := bind_eq_ok h
  have hn := hfl fl hflow
  have hB1 (r : Nat) : st1.height r ≤ B := by
    unfold joinTarget at h1
    cases ht : fl.target with
    | none =>
      simp only [ht] at h1
      cases h1
      exact hB r
    | some t =>
      simp only [ht] at h1
      refine join_le (fun r => ?_) hn h1 r
      exact hB r
  unfold joinNext at h2
  split_ifs at h2
  · refine join_le (fun r => ?_) hn h2 r
    exact hB1 r
  · cases h2
    exact hB1 r

/-- Every height the rounds know belongs to a frame in range, and so does the greatest of them. -/
structure Small (f : FuncMeta) (st : VState) : Prop where
  le : ∀ rel, st.height rel ≤ st.maxH
  nonneg : 0 ≤ st.maxH
  lt : f.nParams + f.nLocals + st.maxH < 2 ^ 31

section Rounds

variable {st t u : VState} {n : Nat} (hlen : 0 < f.codeLen) (hno : NoOverflow m f)

include hlen hno

theorem Rounds.small (h : Rounds id m f initial n t) : Small f t := by
  induction h with
  | zero =>
    have := hno.1
    refine ⟨fun r => ?_, le_rfl, by simp only [initial]; omega⟩
    by_cases hr : r = 0
    · subst hr
      exact le_rfl
    · rw [initial_height_of_ne hr]
      decide
  | @succ n t u h hround ih =>
    obtain ⟨rel, hrel, hv⟩ := hround
    obtain ⟨done, honce, -⟩ := h.once hlen
    obtain ⟨h0, hext, fl, hfl, hmax⟩ := visit_ok (honce.lt rel (List.mem_append_left _ hrel)) hv
    have hflow := hfl.flow
    rw [hext.height rel h0] at hflow
    simp only at hmax h0 hflow
    have hlt := hno.2 n t rel fl h hrel hflow
    have h1 := ih.le rel
    have h2 := ih.nonneg
    have h3 := ih.lt
    refine ⟨fun r => visit_le (fun r => ?_) (fun fl' hfl' => ?_) hv r, by omega, by omega⟩
    · have := ih.le r
      simp only
      omega
    · rw [Except.ok.inj (hfl'.symm.trans hflow)]
      omega

/-- A round of the source that succeeds is one in exact integers. -/
theorem Rounds.visit_int (h : Rounds id m f initial n t) {rel : Nat} (hrel : rel ∈ t.work)
    (work : List Nat) : visit cInt m f rel { t with work := work } = .ok u ↔
      visit id m f rel { t with work := work } = .ok u := by
  have hs := h.small hlen hno
  have := hs.le rel
  have := hs.lt
  exact Verify.visit_int (by simp only; omega) fun fl hfl => hno.2 n t rel fl h hrel hfl

theorem rounds_int : Rounds cInt m f initial n t ↔ Rounds id m f initial n t := by
  constructor
  · intro h
    induction h with
    | zero => exact .zero
    | succ _ hround ih =>
      obtain ⟨rel, hrel, hv⟩ := hround
      exact .succ ih ⟨rel, hrel, (ih.visit_int hlen hno hrel _).mp hv⟩
  · intro h
    induction h with
    | zero => exact .zero
    | succ h hround ih =>
      obtain ⟨rel, hrel, hv⟩ := hround
      exact .succ ih ⟨rel, hrel, (h.visit_int hlen hno hrel _).mpr hv⟩

theorem loop_int {k : Nat} (h : Rounds id m f initial k st) :
    loop cInt m f n st = .ok u ↔ loop id m f n st = .ok u := by
  induction n generalizing k st with
  | zero => exact Iff.rfl
  | succ n ih =>
    unfold loop
    cases hw : st.work with
    | nil => exact Iff.rfl
    | cons rel work =>
      have hrel : rel ∈ st.work := by rw [hw]; exact List.mem_cons_self
      have herase : st.work.erase rel = work := by rw [hw, List.erase_cons_head]
      exact bind_ok_congr (fun t => h.visit_int hlen hno hrel work) fun t hv =>
        ih (.succ h ⟨rel, hrel, by rw [herase]; exact hv⟩)

theorem analyse_int : analyse cInt m f = .ok u ↔ analyse id m f = .ok u := loop_int hlen hno .zero

theorem analyse_small (h : analyse id m f = .ok u) : Small f u := by
  have hout := analyse_outcome (m := m) hlen
  rw [h] at hout
  cases hout with
  | done hr hw => exact hr.small hlen hno

/-- What the worklist of the source comes to is what it comes to in exact integers, up to the message
of a failure. -/
theorem Outcome.exact {r : Except String VState} (h : Outcome cInt m f initial r) :
    ∃ r', Outcome id m f initial r' ∧ ∀ st, r = .ok st ↔ r' = .ok st := by
  cases h with
  | done h hw => exact ⟨_, .done ((rounds_int hlen hno).mp h) hw, fun st => Iff.rfl⟩
  | @fail n t e h hround =>
    obtain ⟨rel, hrel, hv⟩ := hround
    have hr := (rounds_int hlen hno).mp h
    cases hv' : visit id m f rel { t with work := t.work.erase rel } with
    | ok u =>
      rw [(hr.visit_int hlen hno hrel _).mpr hv'] at hv
      cases hv
    | error e' =>
      exact ⟨_, .fail hr ⟨rel, hrel, hv'⟩, fun st => by simp⟩

end Rounds

theorem SameVerdict.congr {r r' q q' : Except String VState} (h : SameVerdict r q)
    (hr : ∀ st, r' = .ok st ↔ r = .ok st) (hq : ∀ st, q' = .ok st ↔ q = .ok st) :
    SameVerdict r' q' := by
  cases r with
  | ok st =>
    rw [(hr st).mpr rfl]
    cases q with
    | ok st' =>
      rw [(hq st').mpr rfl]
      exact h
    | error e => exact h.elim
  | error e =>
    cases q with
    | ok st' => exact h.elim
    | error e' =>
      cases r' with
      | ok st => cases (hr st).mp rfl
      | error _ =>
        cases q' with
        | ok st => cases (hq st).mp rfl
        | error _ => trivial

/-! ## The verdict of the source -/

theorem func_int {fi : Nat} {f' : FuncMeta} (hno : 0 < f.codeLen → NoOverflow m f) :
    func cInt m fi f = .ok f' ↔ func id m fi f = .ok f' := by
  unfold func
  by_cases hin : f.codeOff + f.codeLen > m.code.length
  · simp only [if_pos hin]
    exact Iff.rfl
  · by_cases hlen : f.codeLen = 0
    · simp only [if_neg hin, if_pos hlen]
      split_ifs <;> exact Iff.rfl
    · have hpos : 0 < f.codeLen := by omega
      simp only [if_neg hin, if_neg hlen]
      split_ifs
      · exact Iff.rfl
      · refine bind_ok_congr (fun st => analyse_int hpos (hno hpos)) fun st hst => ?_
        have hs := analyse_small hpos (hno hpos) hst
        have h1 := hs.nonneg
        have h2 := hs.lt
        rw [cInt_of_range (by omega) (by omega), id_eq]

theorem funcs_int {fs fs' : List FuncMeta} {fi : Nat}
    (hno : ∀ f ∈ fs, 0 < f.codeLen → NoOverflow m f) :
    funcs cInt m fi fs = .ok fs' ↔ funcs id m fi fs = .ok fs' := by
  induction fs generalizing fi fs' with
  | nil => exact Iff.rfl
  | cons f fs ih =>
    obtain ⟨hf, hfs⟩ := List.forall_mem_cons.mp hno
    rw [funcs, funcs]
    exact bind_ok_congr (fun g => func_int hf) fun g _ =>
      bind_ok_congr (fun gs => ih hfs) fun gs _ => Iff.rfl

/-- Without an overflow the pass of the source decides the height discipline. -/
theorem decides_int {fi : Nat} (hpos : 0 < f.codeLen) (hno : NoOverflow m f)
    (h : Decides id m f fi) : Decides cInt m f fi := by
  have hverdict (st : VState) : analyse cInt m f = .ok st ↔ analyse id m f = .ok st :=
    analyse_int hpos hno
  refine ⟨?_, ?_, fun n st hr => h.terminates n st ((rounds_int hpos hno).mp hr), fun r hr => ?_,
    h.unique, fun G f' hG hf' => ?_⟩
  · simp only [func_int fun _ => hno]
    exact h.accepts
  · exact loop_outcome .zero (fun j t hr => ((rounds_int hpos hno).mp hr).le hpos) (by omega)
  · obtain ⟨r', hr', hiff⟩ := hr.exact hpos hno
    exact (h.verdict r' hr').congr hverdict hiff
  · simp only [hverdict]
    exact h.found G f' hG ((func_int fun _ => hno).mp hf')

/-- Where the flow equations have a solution in range no sum overflows. -/
theorem noOverflow_of_closed {G : Nat → Int} {B : Int} (hG : Closed m f G B)
    (hB : f.nParams + f.nLocals + B < 2 ^ 31) : NoOverflow m f := by
  obtain ⟨fl0, hfl0⟩ := hG.flowAt 0 (by rw [hG.start])
  have h0 : 0 ≤ B := hG.start ▸ hfl0.le
  refine ⟨by omega, fun n st rel fl hr hrel hfl => ?_⟩
  obtain ⟨done, htow⟩ := hr.towards hG
  have hk := htow.work rel hrel
  have hag := htow.agree rel hk
  obtain ⟨fl', hfl'⟩ := hG.flowAt rel (hag ▸ hk)
  have hflow := hfl'.flow
  rw [← hag, hfl] at hflow
  cases hflow
  have := hfl'.next_le
  omega

/-- Where the heights obey the discipline no sum overflows. -/
theorem noOverflow_of_obeys {G : Nat → Nat} (hin : f.codeOff + f.codeLen ≤ m.code.length)
    (hG : HeightsObey m f G) : NoOverflow m f := by
  have hcl : Closed m f (relHeights m f G) (65535 - f.nParams - f.nLocals) :=
    closed_of_obeys hin hG fun pc h => by have := hG.fits pc h; omega
  exact noOverflow_of_closed hcl (by omega)

/-- Without an overflow `verify_cuop` is the same function over either kind of integers, up to the
message of an error. -/
theorem verifyCuopInt_iff {m' : HostModule} (h : IntExact m) :
    verifyCuopInt m = .ok m' ↔ verifyCuop m = .ok m' := by
  unfold verifyCuopInt verifyCuop
  rw [cuop_iff, cuop_iff]
  simp only [funcs_int h]

/-- What `verify_cuop` accepts in exact integers it accepts over the C++ `int`. -/
theorem verifyCuop_int {m' : HostModule} (h : verifyCuop m = .ok m') : verifyCuopInt m = .ok m' := by
  refine (verifyCuopInt_iff fun f hf hpos => ?_).mpr h
  obtain ⟨-, -, fs, hfs, -⟩ := cuop_iff.mp h
  obtain ⟨hlen, hall⟩ := funcs_ok hfs
  obtain ⟨k, hk, rfl⟩ := List.getElem_of_mem hf
  obtain ⟨f, hf', hok⟩ := hall k fs[k] (List.getElem?_eq_getElem (hlen ▸ hk))
  rw [List.getElem?_eq_getElem hk, Option.some.injEq] at hf'
  subst hf'
  obtain ⟨-, -, ⟨h0, -⟩ | ⟨-, st, hst, hmax, hle⟩⟩ := func_ok hok
  · omega
  · exact noOverflow_of_closed (analyse_closed hpos hst) (by omega)

/-! ## Short functions -/

section Short

variable {K : Nat} (hK : 255 ≤ K) (hg : ∀ g ∈ m.funcs, g.nResults ≤ K)

include hK hg

/-- An instruction leaves at most `K` operands more than it found. -/
theorem FlowCase.grow {i : CuOp} {h : Int} {fl : Flow} (hc : FlowCase m f i h fl) :
    fl.nextH ≤ h + K := by
  cases hc with
  | @plain p q he hp =>
    have hq : q ≤ 2 := by
      unfold CuWasm.effect at he
      cases hop : i.op <;> simp only [hop, reduceCtorEq, Option.some.injEq, Prod.mk.injEq] at he <;>
        omega
    simp only
    omega
  | @call g hop hgm hp =>
    have := hg g (List.mem_of_getElem? hgm)
    simp only
    omega
  | callHost hop hp =>
    have : (i.a >>> 8) &&& 0xff ≤ 0xff := Nat.and_le_right
    simp only
    omega
  | @callIndirect fpv hop hfp hp =>
    have : (fpv >>> 8) &&& 0xff ≤ 0xff := Nat.and_le_right
    simp only
    omega
  | unwind hop h0 h1 =>
    simp only
    omega
  | brIfNot hop h0 h1 h2 =>
    simp only
    omega
  | _ => exact Int.le_add_of_nonneg_right (Int.natCast_nonneg K)

/-- After `n` rounds the heights are at most `K * n`. -/
theorem Rounds.height_le (hlen : 0 < f.codeLen) {n : Nat} {t : VState}
    (h : Rounds id m f initial n t) (r : Nat) : t.height r ≤ (K * n : Nat) := by
  induction h generalizing r with
  | zero =>
    by_cases hr : r = 0
    · subst hr
      exact Int.natCast_nonneg _
    · rw [initial_height_of_ne hr]
      omega
  | @succ n t u h hround ih =>
    obtain ⟨rel, hrel, hv⟩ := hround
    obtain ⟨done, honce, -⟩ := h.once hlen
    have h0 := honce.known rel (List.mem_append_left _ hrel)
    have hstep : K * (n + 1) = K * n + K := Nat.mul_succ K n
    refine visit_le (fun r => ?_) (fun fl hfl => ?_) hv r
    · have := ih r
      simp only
      omega
    · have hgrow := (flow_cases h0 hfl).grow hK hg
      have := ih rel
      omega

/-- No sum overflows in a function that is short beside the operands its instructions can leave. -/
theorem noOverflow_of_short (hlen : 0 < f.codeLen)
    (hshort : f.nParams + f.nLocals + K * f.codeLen < 2 ^ 31) : NoOverflow m f := by
  refine ⟨by omega, fun n st rel fl hr hrel hfl => ?_⟩
  obtain ⟨done, honce, hn⟩ := hr.once hlen
  have hle := hr.le hlen
  have hpos : 0 < st.work.length := List.length_pos_of_mem hrel
  have hh := hr.height_le hK hg hlen rel
  have hgrow := (flow_cases (honce.known rel (List.mem_append_left _ hrel)) hfl).grow hK hg
  have hmul : K * (n + 1) ≤ K * f.codeLen := Nat.mul_le_mul_left K (by omega)
  have hstep : K * (n + 1) = K * n + K := Nat.mul_succ K n
  omega

end Short

/-! ## The verdict over the C++ `int` -/

/-- The pass of `verify_cuop` over a function, computed in the C++ `int`, decides the height
discipline when no sum overflows: it terminates in any order of its worklist, always with the same
verdict, it succeeds just when there are heights that obey, and then it has found them and
`max_stack` is the greatest frame they need. A function that it accepts in spite of an overflow has
no such heights. -/
theorem worklist_decides (m : HostModule) (f : FuncMeta) (fi : Nat) (hpos : 0 < f.codeLen)
    (hin : f.codeOff + f.codeLen ≤ m.code.length)
    (hlast : (instrAt m f (f.codeLen - 1)).op = .ret ∨
      (instrAt m f (f.codeLen - 1)).op = .endFunc) :
    (NoOverflow m f → Decides cInt m f fi) ∧
      ((∃ f', func cInt m fi f = .ok f') → (Decides cInt m f fi ↔ NoOverflow m f)) := by
  have hdec (hno : NoOverflow m f) : Decides cInt m f fi :=
    decides_int hpos hno (decides_exact m f fi hpos hin hlast)
  refine ⟨hdec, fun hok => ⟨fun h => ?_, hdec⟩⟩
  obtain ⟨G, hG⟩ := h.accepts.mp hok
  exact noOverflow_of_obeys hin hG

/-- A loop that is left through its `OP_BR_IF_NOT`, with two locals. -/
def looping : HostModule where
  code := [{ op := .i64Const, b := 0 }, { op := .brIfNot, b := 3 }, { op := .br, b := 0 },
    { op := .i64Const, b := 1 }, { op := .endFunc, a := 1 }]
  consts := [7, 9]
  funcs := [{ codeOff := 0, codeLen := 5, nParams := 0, nResults := 1, nLocals := 2 }]
  exports := [("f", 0)]
  globals := []
  memory := fun _ => 0
  memMax := 0
  memSize := 0
  dataBlob := []
  dataOff := []
  dataLen := []
  dataLive := []
  table := []
  funcTypeidx := [0]
  typeFp := [0x100]
  nHostImports := 0
  hostFnId := []
  hostImportMod := []
  hostImportName := []
  hostImportEnv := []

/-- The function of `looping`. -/
def loopingFunc : FuncMeta :=
  { codeOff := 0, codeLen := 5, nParams := 0, nResults := 1, nLocals := 2 }

theorem looping_noOverflow : NoOverflow looping loopingFunc :=
  noOverflow_of_short (K := 255) le_rfl (by decide) (by decide) (by decide)

/-- Its heights, and the frame of two locals and one operand that it needs. -/
theorem looping_decides : Decides cInt looping loopingFunc 0 ∧
    ∃ G, HeightsObey looping loopingFunc G ∧ G 4 = 1 ∧
      IsGreatest {n | ∃ pc, PcReach looping loopingFunc pc ∧ n = 0 + 2 + G pc} 3 := by
  have hdec := (worklist_decides looping loopingFunc 0 (by decide) (by decide) (.inr rfl)).1
    looping_noOverflow
  obtain ⟨G, hG⟩ := hdec.accepts.mp ⟨_, rfl⟩
  obtain ⟨st, hst, hknown, hheights, -, hmax⟩ := hdec.found G _ hG rfl
  cases hst
  have h4 : PcReach looping loopingFunc (0 + 4) := (hknown 4).mp (by decide)
  exact ⟨hdec, G, hG, (Int.ofNat_inj.mp (hheights 4 h4)).symm, hmax⟩

/-- A function of `n` calls, with `K` parameters and `K` other locals. -/
def repeatedFunc (K n : Nat) : FuncMeta :=
  { codeOff := 0, codeLen := n + 1, nParams := K, nResults := 0, nLocals := K }

/-- A host module of `repeatedFunc` that calls an import with `K` results. -/
def repeated (K n : Nat) : HostModule :=
  { looping with
    code := List.replicate n { op := .call, b := 0 } ++ [{ op := .endFunc }]
    funcs := [{ codeOff := 0, codeLen := 0, nParams := 0, nResults := K, nLocals := 0 },
      repeatedFunc K n]
    exports := [("f", 1)]
    funcTypeidx := [0, 1]
    typeFp := [0xff00, 0xff]
    nHostImports := 1
    hostFnId := [0x200]
    hostImportMod := ["x"]
    hostImportName := ["3"]
    hostImportEnv := [""] }

section Repeated

variable {K n k j : Nat}

theorem instrAt_repeated (hk : k < n) :
    instrAt (repeated K n) (repeatedFunc K n) k = { op := .call, b := 0 } := by
  unfold instrAt repeated repeatedFunc
  rw [Nat.zero_add, List.getD_eq_getElem?_getD, List.getElem?_append_left (by simpa using hk),
    List.getElem?_replicate_of_lt hk]
  rfl

theorem instrAt_repeated_last :
    instrAt (repeated K n) (repeatedFunc K n) n = { op := .endFunc } := by
  unfold instrAt repeated repeatedFunc
  rw [Nat.zero_add, List.getD_eq_getElem?_getD, List.getElem?_append_right (by simp)]
  simp

/-- The worklist in front of the call at `k`. -/
def repeatedState (K k : Nat) : VState where
  height := fun r => if r ≤ k then (K * r : Nat) else -1
  work := [k]
  maxH := (K * k : Nat)

theorem visit_repeated (hk : k < n) (hn : K * n < 2 ^ 31) :
    visit cInt (repeated K n) (repeatedFunc K n) k { repeatedState K k with work := [] } =
      .ok (repeatedState K (k + 1)) := by
  have hh : (repeatedState K k).height k = (K * k : Nat) := if_pos le_rfl
  have hmul : K * (k + 1) ≤ K * n := Nat.mul_le_mul_left K hk
  have hstep : K * (k + 1) = K * k + K := Nat.mul_succ K k
  have hfl : flow cInt (repeated K n) (repeatedFunc K n) { op := .call, b := 0 } (K * k : Nat) =
      .ok { nextH := (K * (k + 1) : Nat) } := by
    have h0 : ¬ ((K * k : Nat) : Int) < (0 : Nat) := by omega
    simp only [flow, repeated, List.getElem?_cons_zero, effect, if_neg h0]
    rw [cInt_of_range (by omega) (by omega)]
    exact congrArg (fun x => Except.ok (Flow.mk x true none)) (by omega)
  have hnext : (repeatedState K k).height (k + 1) = -1 := if_neg (by omega)
  have hidx : indexCheck (repeated K n) (repeatedFunc K n) { op := .call, b := 0 } = .ok () := rfl
  have hin : ¬ k + 1 ≥ (repeatedFunc K n).codeLen := by
    simp only [repeatedFunc]
    omega
  have hjoin (st : VState) (hst : st.height (k + 1) = -1) :
      joinNext (repeatedFunc K n) k { nextH := (K * (k + 1) : Nat) } st =
        .ok { st with
          height := Function.update st.height (k + 1) (K * (k + 1) : Nat)
          work := (k + 1) :: st.work } := by
    unfold joinNext join
    rw [if_pos rfl, if_neg hin, if_neg hin, if_pos (by rw [hst]; decide)]
  rw [visit_eq]
  simp only [hh, instrAt_repeated hk, hfl]
  rw [if_neg (by omega)]
  simp only [bind, Except.bind, joinTarget, hidx]
  rw [hjoin _ (by exact hnext)]
  congr 2
  · funext r
    simp only [repeatedState, Function.update_apply]
    split_ifs <;> first | omega | simp_all
  · simp only [repeatedState]
    omega

theorem visit_repeated_last (hn : K * n < 2 ^ 31) :
    visit cInt (repeated K n) (repeatedFunc K n) n { repeatedState K n with work := [] } =
      .ok { repeatedState K n with work := [] } := by
  have hh : (repeatedState K n).height n = (K * n : Nat) := if_pos le_rfl
  have hfl : flow cInt (repeated K n) (repeatedFunc K n) { op := .endFunc } (K * n : Nat) =
      .ok { nextH := (K * n : Nat), fall := false } := by
    have h0 : ¬ ((K * n : Nat) : Int) < (repeatedFunc K n).nResults :=
      not_lt.mpr (Int.natCast_nonneg _)
    simp only [flow, if_neg h0]
  have hidx : indexCheck (repeated K n) (repeatedFunc K n) { op := .endFunc } = .ok () := rfl
  rw [visit_eq]
  simp only [hh, instrAt_repeated_last, hfl]
  rw [if_neg (by omega)]
  simp only [bind, Except.bind, joinTarget, hidx, joinNext, Bool.false_eq_true, if_false]
  simp only [repeatedState, max_self]

theorem loop_repeated (hn : K * n < 2 ^ 31) (hk : k ≤ n) (hj : n < j + k) :
    loop cInt (repeated K n) (repeatedFunc K n) j (repeatedState K k) =
      .ok { repeatedState K n with work := [] } := by
  induction j generalizing k with
  | zero => omega
  | succ j ih =>
    have hround : loop cInt (repeated K n) (repeatedFunc K n) (j + 1) (repeatedState K k) =
        (do
          let st ← visit cInt (repeated K n) (repeatedFunc K n) k { repeatedState K k with work := [] }
          loop cInt (repeated K n) (repeatedFunc K n) j st) := rfl
    rw [hround]
    rcases Nat.lt_or_eq_of_le hk with hlt | rfl
    · rw [visit_repeated hlt hn]
      exact ih hlt (by omega)
    · rw [visit_repeated_last hn]
      cases j <;> rfl

theorem analyse_repeated (hn : K * n < 2 ^ 31) :
    analyse cInt (repeated K n) (repeatedFunc K n) = .ok { repeatedState K n with work := [] } := by
  have hinit : initial = repeatedState K 0 := by
    unfold initial repeatedState
    congr 1
    funext r
    simp only [Function.update_apply, Nat.le_zero]
    split_ifs <;> simp_all
  unfold analyse
  rw [hinit]
  exact loop_repeated hn (Nat.zero_le n) (by simp only [repeatedFunc]; omega)

theorem func_repeated (hn : K * n < 2 ^ 31) (hfit : cInt (K + K + (K * n : Nat)) ≤ 65535) :
    func cInt (repeated K n) 1 (repeatedFunc K n) =
      .ok { repeatedFunc K n with maxStack := (cInt (K + K + (K * n : Nat))).toNat } := by
  refine func_eq (Nat.succ_pos n) ?_ (.inr ?_) (analyse_repeated hn) hfit
  · simp [repeated, repeatedFunc]
  · exact congrArg CuOp.op instrAt_repeated_last

theorem verify_repeated {f' : FuncMeta}
    (h : func cInt (repeated K n) 1 (repeatedFunc K n) = .ok f') :
    verifyCuopInt (repeated K n) = .ok { repeated K n with
      funcs := [{ codeOff := 0, codeLen := 0, nParams := 0, nResults := K, nLocals := 0 }, f'] } := by
  have himp : func cInt (repeated K n) 0
      { codeOff := 0, codeLen := 0, nParams := 0, nResults := K, nLocals := 0 } =
        .ok { codeOff := 0, codeLen := 0, nParams := 0, nResults := K, nLocals := 0 } := rfl
  have hfuncs : funcs cInt (repeated K n) 0 (repeated K n).funcs = .ok
      [{ codeOff := 0, codeLen := 0, nParams := 0, nResults := K, nLocals := 0 }, f'] := by
    simp only [repeated] at himp h ⊢
    simp only [funcs, himp, h, bind, Except.bind, pure, Except.pure]
  exact cuop_iff.mpr ⟨List.cons_ne_nil _ _, by simp [repeated], _, hfuncs, rfl⟩

end Repeated

/-- The frame of 131070 locals and 65535 * 32768 operands is more than an `int` holds. The sum wraps,
`verify_cuop` takes it for a frame of no slots and accepts a module whose locals alone do not fit. -/
theorem repeated_not_decides :
    (∃ m', verifyCuopInt (repeated 65535 32768) = .ok m' ∧ ∀ f' ∈ m'.funcs, f'.maxStack = 0) ∧
      ¬ Decides cInt (repeated 65535 32768) (repeatedFunc 65535 32768) 1 := by
  have hwrap : cInt ((65535 : Nat) + (65535 : Nat) + (65535 * 32768 : Nat)) = -2147385346 := by decide
  have hfunc := func_repeated (K := 65535) (n := 32768) (by decide) (by rw [hwrap]; decide)
  rw [hwrap] at hfunc
  constructor
  · exact ⟨_, verify_repeated hfunc, by simp⟩
  · intro h
    obtain ⟨G, hG⟩ := h.accepts.mp ⟨_, hfunc⟩
    have := hG.fits _ .entry
    simp only [repeatedFunc] at this
    omega

end Verify

end CuWasm
