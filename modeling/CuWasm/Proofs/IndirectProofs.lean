import CuWasm.Calls
import CuWasm.Imports
import CuWasm.Proofs.RunProofs
import Mathlib.Data.Nat.Digits.Lemmas

/-!
# Indirect calls

The fingerprint of a function type determines the type, so the comparison of fingerprints in
`OP_CALL_INDIRECT` is the comparison of types, and the two counts that `verify_cuop` reads off a
fingerprint are those of every function the comparison lets through.
-/

namespace CuWasm

open Exit BlockMove Wasm Translate

/-! ## Fingerprints are injective -/

/-- The tag of a number type as a digit in base 4. -/
def Wasm.ValType.tag : ValType → Nat
  | .i64 => 1
  | .f32 => 2
  | .f64 => 3
  | _ => 0

theorem typeTag_ok {t : ValType} {tag : Nat} (h : typeTag t = .ok tag) :
    t.isNum = true ∧ tag = t.tag ∧ tag < 4 := by
  cases t <;> cases h
  all_goals exact ⟨rfl, rfl, by decide⟩

theorem tag_inj {t t' : ValType} (h : t.isNum = true) (h' : t'.isNum = true)
    (heq : t.tag = t'.tag) : t = t' := by
  cases t <;> cases h <;> cases t' <;> cases h' <;> first | rfl | cases heq

/-- The number whose digits in base 4 are the tags. -/
def tagDigits (ts : List ValType) : Nat := Nat.ofDigits 4 (ts.map ValType.tag)

theorem tag_lt (t : ValType) : t.tag < 4 := by
  unfold ValType.tag
  split <;> decide

theorem tagDigits_lt (ts : List ValType) : tagDigits ts < 4 ^ ts.length := by
  have h := Nat.ofDigits_lt_base_pow_length (b := 4) (l := ts.map ValType.tag) (by decide) (by
    intro d hd
    obtain ⟨t, -, rfl⟩ := List.mem_map.mp hd
    exact tag_lt t)
  rw [List.length_map] at h
  exact h

theorem tagDigits_cons (t : ValType) (ts : List ValType) :
    tagDigits (t :: ts) = t.tag + 4 * tagDigits ts := by
  rw [tagDigits, List.map_cons, Nat.ofDigits_cons]
  rfl

/-- Number types are determined by their tags. -/
theorem tagDigits_inj {ts ts' : List ValType} (h : ∀ t ∈ ts, t.isNum = true)
    (h' : ∀ t ∈ ts', t.isNum = true) (hlen : ts.length = ts'.length)
    (heq : tagDigits ts = tagDigits ts') : ts = ts' := by
  induction ts generalizing ts' with
  | nil => exact (List.eq_nil_of_length_eq_zero hlen.symm).symm
  | cons t ts ih =>
    cases ts' with
    | nil => cases hlen
    | cons t' ts' =>
      rw [tagDigits_cons, tagDigits_cons] at heq
      have h1 := tag_lt t
      have h2 := tag_lt t'
      have ht := tag_inj (h t (by simp)) (h' t' (by simp)) (by omega)
      rw [ht, ih (fun x hx => h x (by simp [hx])) (fun x hx => h' x (by simp [hx]))
        (Nat.succ.inj hlen) (by omega)]

/-- The tags of a list are written above the `shift` bits that are in use. -/
theorem typeTags_digits {shift : Nat} {ts : List ValType} {fp fp' : Nat} (hfp : fp < 2 ^ shift)
    (h : typeTags shift ts fp = .ok fp') :
    (∀ t ∈ ts, t.isNum = true) ∧ fp' = fp + 2 ^ shift * tagDigits ts := by
  induction ts generalizing shift fp with
  | nil =>
    cases h
    exact ⟨List.forall_mem_nil _, rfl⟩
  | cons t ts ih =>
    obtain ⟨tag, htag, h⟩ := Verify.bind_eq_ok h
    obtain ⟨hnum, rfl, hlt⟩ := typeTag_ok htag
    have hor : fp ||| t.tag <<< shift = fp + 2 ^ shift * t.tag := by
      rw [Nat.or_comm, Nat.shiftLeft_eq, Nat.mul_comm, ← Nat.two_pow_add_eq_or_of_lt hfp,
        Nat.add_comm]
    rw [hor] at h
    have hfp2 : fp + 2 ^ shift * t.tag < 2 ^ (shift + 2) := by
      have := Nat.mul_le_mul_left (2 ^ shift) (Nat.le_of_lt_succ hlt)
      rw [pow_add]
      omega
    obtain ⟨hall, heq⟩ := ih hfp2 h
    refine ⟨List.forall_mem_cons.mpr ⟨hnum, hall⟩, ?_⟩
    rw [heq, tagDigits_cons, pow_add, Nat.mul_add, Nat.add_assoc, Nat.mul_assoc]
    rfl

/-- A fingerprint, part by part. -/
theorem typeFingerprint_parts {ft : FuncType} {fp : Nat} (h : typeFingerprint ft = .ok fp) :
    (∀ t ∈ ft.1, t.isNum = true) ∧ (∀ t ∈ ft.2, t.isNum = true) ∧ tagDigits ft.1 < 2 ^ 16 ∧
      ∃ counts < 2 ^ 16, fp = counts + 2 ^ 16 * tagDigits ft.1 + 2 ^ 32 * tagDigits ft.2 := by
  unfold typeFingerprint at h
  split_ifs at h with hbig
  obtain ⟨fp1, h1, h⟩ := Verify.bind_eq_ok h
  have hcounts : ft.1.length ||| ft.2.length <<< 8 < 2 ^ 16 :=
    Nat.or_lt_two_pow (by omega) (by rw [Nat.shiftLeft_eq]; omega)
  have hparams : tagDigits ft.1 < 2 ^ 16 :=
    (tagDigits_lt ft.1).trans_le ((Nat.pow_le_pow_right (by decide) (by omega)).trans_eq
      (show 4 ^ 8 = 2 ^ 16 by decide))
  obtain ⟨hn1, he1⟩ := typeTags_digits hcounts h1
  have hfp1 : fp1 < 2 ^ 32 := by omega
  obtain ⟨hn2, he2⟩ := typeTags_digits hfp1 h
  exact ⟨hn1, hn2, hparams, _, hcounts, by rw [he2, he1]⟩

/-- Types with the same fingerprint are equal, element by element. -/
theorem typeFingerprint_inj {ft ft' : FuncType} {fp : Nat} (h : typeFingerprint ft = .ok fp)
    (h' : typeFingerprint ft' = .ok fp) : ft = ft' := by
  obtain ⟨-, -, hp, hr⟩ := typeFingerprint_ok h
  obtain ⟨-, -, hp', hr'⟩ := typeFingerprint_ok h'
  obtain ⟨hn1, hn2, hlt, c, hc, heq⟩ := typeFingerprint_parts h
  obtain ⟨hn1', hn2', hlt', c', hc', heq'⟩ := typeFingerprint_parts h'
  have hparams : ft.1 = ft'.1 := tagDigits_inj hn1 hn1' (by omega) (by omega)
  have hresults : ft.2 = ft'.2 := tagDigits_inj hn2 hn2' (by omega) (by omega)
  exact Prod.ext hparams hresults

/-! ## The type test -/

section Verified

variable {M : Module} {m0 m : HostModule} (h : Verified M m0 m)

include h

/-- The fingerprint of the type `t`. -/
theorem Verified.fingerprint {t : Nat} {fpv : Nat} (hfp : m.typeFp[t]? = some fpv) :
    ∃ want, M.funcTypes[t]? = some want ∧ typeFingerprint want = .ok fpv := by
  have hall := fingerprints_ok h.translated.typeFp
  rw [h.typeFp.1] at hfp
  have hlt := (List.getElem?_eq_some_iff.mp hfp).1
  rw [hall.1] at hlt
  obtain ⟨fp, hfp', hok⟩ := hall.2 t _ (List.getElem?_eq_getElem hlt)
  rw [hfp] at hfp'
  cases hfp'
  exact ⟨_, List.getElem?_eq_getElem hlt, hok⟩

/-- A function of the module has the type index the source gives it. -/
theorem Verified.typeidx {fi : Nat} (hfi : fi < m.funcs.length) :
    m.funcTypeidx[fi]? = M.funcTypeidx[fi]? := by
  obtain ⟨-, e2, -, -, hlen⟩ := h.typeFp
  rw [e2, h.translated.funcTypeidx, List.getElem?_take, if_pos (hlen ▸ hfi)]

/-- The callee of an indirect call is the function in the slot, and it has the type asked for. -/
theorem Verified.indirect_type {b idx fpv : Nat} {want : FuncType} {g : FuncMeta}
    (hfpw : typeFingerprint want = .ok fpv) (hfp : m.typeFp[b]? = some fpv) (hg : Run.indirectTarget m.dev b idx = some g) :
    ∃ fi, m.table[idx]? = some fi ∧ M.funcType fi = some want := by
  obtain ⟨fi, want', tidx, htab, hf, hwant', htidx, heq⟩ := Run.indirectTarget_some hg
  have hwant2 : m.typeFp[b]? = some want' := hwant'
  rw [hfp] at hwant2
  cases hwant2
  obtain ⟨ft, hft, hfpt⟩ := h.fingerprint (show m.typeFp[tidx]? = some fpv from heq)
  have hfi := (List.getElem?_eq_some_iff.mp (show m.funcs[fi]? = some g from hf)).1
  have hidx : M.funcTypeidx[fi]? = some tidx := (h.typeidx hfi).symm.trans htidx
  refine ⟨fi, htab, ?_⟩
  unfold Module.funcType
  rw [hidx, Option.bind_some, hft, typeFingerprint_inj hfpt hfpw]

/-- A slot that holds a function of the type asked for gives the callee. -/
theorem Verified.indirect_found {b idx fpv fi : Nat} {want : FuncType} {g : FuncMeta}
    (hfpw : typeFingerprint want = .ok fpv) (hfp : m.typeFp[b]? = some fpv)
    (htab : m.table[idx]? = some fi) (hnull : fi ≠ TABLE_NULL) (hg : m.funcs[fi]? = some g)
    (htype : M.funcType fi = some want) : Run.indirectTarget m.dev b idx = some g := by
  obtain ⟨tidx, hidx, hft⟩ := Option.bind_eq_some_iff.mp htype
  have hfi := (List.getElem?_eq_some_iff.mp hg).1
  obtain ⟨fp, hfp', hok⟩ := (fingerprints_ok h.translated.typeFp).2 tidx want hft
  have hfpt : m.typeFp[tidx]? = some fpv := by
    rw [h.typeFp.1, hfp']
    exact congrArg some (Except.ok.inj (hok.symm.trans hfpw))
  have htab' : m.dev.table[idx]? = some fi := htab
  have hg' : m.dev.funcs[fi]? = some g := hg
  have hwant' : m.dev.typeFp[b]? = some fpv := hfp
  have hidx' : m.dev.funcTypeidx[fi]? = some tidx := (h.typeidx hfi).trans hidx
  have hfpt' : m.dev.typeFp[tidx]? = some fpv := hfpt
  unfold Run.indirectTarget
  simp only [htab', if_neg hnull, hg', hwant', hidx', hfpt', if_true]

end Verified

/-! ## The instruction -/

/-- A callee is entered when there is room for its frame. -/
theorem enter_ok {v : Views} {f : FuncMeta} {s t : Mach} (hcsp : t.csp = s.csp)
    (hparams : f.nParams ≤ t.sp) (hroom : HasRoom v f s t.sp) :
    ∃ w, Run.enter v f t = .ok () w ∧ w.sp ≤ STACK_CAP := by
  have hdepth := hroom.depth
  have hcap := hroom.cap
  have hlimit := hroom.limit
  have hbase : (Run.framed v f t).sp = t.sp := rfl
  refine ⟨{ Run.zeroed v f.nLocals (Run.framed v f t) with pc := f.codeOff }, ?_, ?_⟩
  · rw [Run.enter_apply, if_neg (by omega), if_neg (by omega), Run.pushZeros_apply,
      if_pos (by omega)]
  · simp only [Run.zeroed, hbase]
    omega

/-- The state behind a callee's entry, for the machine `t` that has fetched the call in `s`. -/
theorem enter_enters {v : Views} {f : FuncMeta} {s t w : Mach} (hw : Run.enter v f t = .ok () w)
    (hpc : t.pc = s.pc + 1) (hfp : t.fp = s.fp) (hcsp : t.csp = s.csp) (hfr : t.frames = s.frames)
    (hst : t.stack = s.stack) : Enters v f s t.sp w := by
  rw [Run.enter_apply] at hw
  split_ifs at hw with h1 h2
  rw [Run.pushZeros_apply] at hw
  split_ifs at hw with h3
  cases hw
  constructor
  · rfl
  · simp only [Run.zeroed, Run.framed]
    omega
  · rfl
  · simp only [Run.zeroed, Run.framed, hcsp]
  · simp only [Run.zeroed, Run.framed, hcsp, Function.update_self, Run.callFrame, hpc, hfp]
  · intro k hk
    simp only [Run.zeroed, Run.framed]
    rw [Function.update_of_ne (by rw [ne_eq, AoSView.idx_inj, hcsp]; exact hk), hfr]
  · intro j hj
    simp only [Run.zeroed, fillAsc_apply, AoSView.idx, Run.framed]
    rw [if_neg (by omega), hst]
  · intro j hj
    simp only [Run.zeroed, fillAsc_apply, AoSView.idx, Run.framed]
    rw [if_pos (by omega)]

/-- `OP_CALL_INDIRECT` whose callee is `g`. -/
theorem exec_callIndirect {v : Views} {m : HostModule} {s : Mach} {i : CuOp} {g : FuncMeta}
    (hop : i.op = .callIndirect) (hpos : 0 < s.sp)
    (hg : Run.indirectTarget m.dev i.b (u32 (s.stack (v.stack.idx (s.sp - 1)))).toNat = some g) :
    Run.exec v m.dev i (Run.fetched s) = Run.enter v g { Run.fetched s with
      sp := s.sp - 1, log := ⟨.stack, v.stack.idx (s.sp - 1), 1⟩ :: (Run.fetched s).log } := by
  have hdec : dec32 (Run.fetched s).sp = s.sp - 1 := dec32_of_pos hpos
  simp only [Run.exec, hop, bind_apply, Run.pop_apply, hdec, Run.indirectCallee_apply]
  rw [show Run.indirectTarget m.dev i.b
    (u32 ((Run.fetched s).stack (v.stack.idx (s.sp - 1)))).toNat = some g from hg]

/-- An indirect call of `g` with room for its frame enters it. -/
theorem step_callIndirect {v : Views} {m : HostModule} {s : Mach} {a t : Nat} {g : FuncMeta}
    (hi : m.code[s.pc]? = some ⟨.callIndirect, a, t⟩) (hpos : 1 + g.nParams ≤ s.sp)
    (hg : Run.indirectTarget m.dev t (u32 (s.stack (v.stack.idx (s.sp - 1)))).toNat = some g)
    (hroom : HasRoom v g s (s.sp - 1)) :
    ∃ w, Run.step v m.dev s = .ok () w ∧ Enters v g s (s.sp - 1) w := by
  have hi' : m.dev.code[s.pc]? = some ⟨.callIndirect, a, t⟩ := hi
  have hexec := exec_callIndirect (v := v) (m := m) (i := ⟨.callIndirect, a, t⟩) rfl (by omega) hg
  obtain ⟨w, hw, hle⟩ := enter_ok (v := v) (f := g) (s := s)
    (t := { Run.fetched s with
      sp := s.sp - 1, log := ⟨.stack, v.stack.idx (s.sp - 1), 1⟩ :: (Run.fetched s).log })
    rfl (show g.nParams ≤ s.sp - 1 by omega) hroom
  refine ⟨w, ?_, enter_enters hw rfl rfl rfl rfl rfl⟩
  rw [Run.step_apply, hi']
  simp only [hexec, hw]
  rw [if_neg (by omega)]

/-- `OP_CALL_INDIRECT` without a callee. -/
theorem step_callIndirect_none {v : Views} {m : HostModule} {s : Mach} {a t : Nat}
    (hi : m.code[s.pc]? = some ⟨.callIndirect, a, t⟩) (hpos : 0 < s.sp)
    (hg : Run.indirectTarget m.dev t (u32 (s.stack (v.stack.idx (s.sp - 1)))).toNat = none) :
    ∃ w, Run.step v m.dev s = .error .trapIndirectCall w ∧ w.csp = s.csp ∧ w.frames = s.frames := by
  have hi' : m.dev.code[s.pc]? = some ⟨.callIndirect, a, t⟩ := hi
  have hdec : dec32 (Run.fetched s).sp = s.sp - 1 := dec32_of_pos hpos
  refine ⟨{ Run.fetched s with
    sp := s.sp - 1, log := ⟨.stack, v.stack.idx (s.sp - 1), 1⟩ :: (Run.fetched s).log }, ?_, rfl, rfl⟩
  have hexec : Run.exec v m.dev ⟨.callIndirect, a, t⟩ (Run.fetched s) =
      .error .trapIndirectCall { Run.fetched s with
        sp := s.sp - 1, log := ⟨.stack, v.stack.idx (s.sp - 1), 1⟩ :: (Run.fetched s).log } := by
    simp only [Run.exec, bind_apply, Run.pop_apply, hdec, Run.indirectCallee_apply]
    rw [show Run.indirectTarget m.dev t
      (u32 ((Run.fetched s).stack (v.stack.idx (s.sp - 1)))).toNat = none from hg]
  rw [Run.step_apply, hi']
  simp only [hexec]

/-- In a valid module, an indirect call with its operands on the stack enters the function in the
selected slot just when that function has the type asked for, whatever type index it was declared
with; otherwise it traps and pushes no frame. The counts in the fingerprint are those of the callee. -/
theorem callIndirect_exact {M : Module} {ps : List (Parsed Payload)} {m0 m : HostModule}
    (hv : M.Valid) (he : Encodes M ps) (hm : loadWasm ps = .ok m0) (hver : verifyCuop m0 = .ok m)
    {v : Views} {s : Mach} {a t fpv : Nat} (hi : m.code[s.pc]? = some ⟨.callIndirect, a, t⟩)
    (hfp : m.typeFp[t]? = some fpv) (hops : 1 + (fpv &&& 0xff) ≤ s.sp) :
    ∃ want, M.funcTypes[t]? = some want ∧
      (∀ fi f, tableSlot v m s = some fi → fi ≠ TABLE_NULL → M.imports.length ≤ fi →
        m.funcs[fi]? = some f → M.funcType fi = some want →
        f.nParams = fpv &&& 0xff ∧ f.nResults = (fpv >>> 8) &&& 0xff ∧
          (HasRoom v f s (s.sp - 1) →
            ∃ w, Run.step v m.dev s = .ok () w ∧ Enters v f s (s.sp - 1) w)) ∧
      ((tableSlot v m s = none ∨ tableSlot v m s = some TABLE_NULL ∨
          ∃ fi, tableSlot v m s = some fi ∧ M.funcType fi ≠ some want) →
        ∃ w, Run.step v m.dev s = .error .trapIndirectCall w ∧ w.csp = s.csp ∧
          w.frames = s.frames) := by
  have h : Verified M m0 m := ⟨loadWasm_translated he hm, hv, hver⟩
  obtain ⟨want, hwant, hfpw⟩ := h.fingerprint hfp
  refine ⟨want, hwant, fun fi f hslot hnull _ hf htype => ?_, fun hbad => ?_⟩
  · have hg := h.indirect_found hfpw hfp hslot hnull hf htype
    obtain ⟨-, hp, hr⟩ := h.indirect hg hfp
    exact ⟨hp, hr, fun hroom => step_callIndirect hi (by omega) hg hroom⟩
  · refine step_callIndirect_none hi (by omega) ?_
    by_contra hsome
    obtain ⟨g, hg⟩ := Option.ne_none_iff_exists'.mp hsome
    obtain ⟨fi, hslot, htype⟩ := h.indirect_type hfpw hfp hg
    have hslot' : tableSlot v m s = some fi := hslot
    rcases hbad with hnone | hnull | ⟨fi', hfi', hne⟩
    · rw [hslot'] at hnone
      cases hnone
    · rw [hslot'] at hnull
      cases hnull
      have hslot2 : m.dev.table[(u32 (s.stack (v.stack.idx (s.sp - 1)))).toNat]? =
        some TABLE_NULL := hslot
      unfold Run.indirectTarget at hg
      simp only [hslot2, if_true] at hg
      cases hg
    · rw [hslot'] at hfi'
      cases hfi'
      exact hne htype

/-- The identity at the type index 1, in the table, and a function that calls it at the type index 0. -/
def callModule : Module where
  types := [[.func ([.i64], [.i64])], [.func ([.i64], [.i64])]]
  funcs := [1, 0]
  tables := [{ initial := 1 }]
  elems := [⟨.active none [.ok (.const (.i32 0)), .ok .end_], .functions [.ok 0]⟩]
  code := [{ locals := [], body := .op (.localGet 0) .nil },
    { locals := [],
      body := .op (.localGet 0) (.op (.const (.i32 0)) (.op (.callIndirect 0 0) .nil)) }]

/-- The function in the table. -/
def calleeMeta : FuncMeta := ⟨0, 2, 1, 1, 0, 2⟩

/-- The function that calls it. -/
def callerMeta : FuncMeta := ⟨2, 4, 1, 1, 0, 3⟩

theorem callModule_valid : callModule.Valid := by
  refine ⟨by decide, rfl, fun k ft c hty hc => ?_⟩
  match k with
  | 0 =>
    cases hc
    cases hty
    exact .op (.localGet rfl) .nil
  | 1 =>
    cases hc
    cases hty
    set C := callModule.ctx ([.i64], [.i64])
      { locals := [], body := .op (.localGet 0) (.op (.const (.i32 0)) (.op (.callIndirect 0 0) .nil)) }
    have htype : C.types[0]? = some ([.i64], [.i64]) := rfl
    have hcall : OpTyped C (.callIndirect 0 0) [.i32, .i64] [.i64] := .callIndirect htype (by decide)
    have hrest : Typed C [[.i64]] true ([.i32, .i64] ++ []) (.op (.callIndirect 0 0) .nil)
        ([.i64] ++ []) := .op hcall .nil
    have hconst : Typed C [[.i64]] true [.i64]
        (.op (.const (.i32 0)) (.op (.callIndirect 0 0) .nil)) [.i64] :=
      @Typed.op _ _ _ _ [] _ _ _ _ (.const (.i32 0)) hrest
    exact @Typed.op _ _ _ _ [] _ _ _ _ (.localGet rfl) hconst
  | k + 2 => cases hc

/-- The machine in front of the call, entered with the argument 5. -/
def beforeCall (m : HostModule) : Mach :=
  (Run.loop m.cpuViews m.dev 2 (entryMach m callerMeta [5] 10)).2

/-- What the run of `callModule` comes to. -/
def callLoaded : Option (Bool × Option Nat × Nat × Nat) :=
  (loadWasm callModule.payloads).toOption.bind fun m0 =>
    (verifyCuop m0).toOption.map fun m =>
      let s := beforeCall m
      (m.code[s.pc]? == some ⟨.callIndirect, 0, 0⟩ && m.funcs[0]? == some calleeMeta &&
          m.typeFp[0]? == some 0x100010101,
        tableSlot m.cpuViews m s, s.sp, s.csp)

/-- A function declared with another index of the same type is entered. -/
theorem callIndirect_duplicate : ∃ m0 m w, loadWasm callModule.payloads = .ok m0 ∧
    verifyCuop m0 = .ok m ∧ callModule.funcTypeidx[0]? = some 1 ∧
    Run.step m.cpuViews m.dev (beforeCall m) = .ok () w ∧
    Enters m.cpuViews calleeMeta (beforeCall m) 2 w := by
  have hload : callLoaded = some (true, some 0, 3, 1) := by decide +kernel
  obtain ⟨m0, m, hm, hver, heval⟩ := loaded_eval hload
  simp only [Prod.mk.injEq, Bool.and_eq_true, beq_iff_eq] at heval
  obtain ⟨⟨⟨hi, hf⟩, hfp⟩, hslot, hsp, hcsp⟩ := heval
  obtain ⟨want, hwant, henter, -⟩ := callIndirect_exact callModule_valid rfl hm hver hi hfp
    (by rw [hsp]; decide)
  cases hwant
  obtain ⟨-, -, hstep⟩ := henter 0 calleeMeta hslot (by decide) (Nat.zero_le _) hf rfl
  rw [hsp] at hstep
  obtain ⟨w, hw, henters⟩ := hstep ⟨by rw [hcsp]; decide,
    show 2 ≤ STACK_CAP by decide, by decide⟩
  exact ⟨m0, m, w, hm, hver, rfl, hw, henters⟩

end CuWasm
