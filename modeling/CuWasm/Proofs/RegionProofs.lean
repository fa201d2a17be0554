import CuWasm.Proofs.DurationProofs
import CuWasm.Proofs.DisciplineProofs
import CuWasm.Proofs.FuelProofs
import CuWasm.Proofs.ImportProofs

/-!
# The code that a run stays in

When every body has been lowered, the whole code has no `OP_BR_IF_NOT` that leads back. When some were
not, a run still keeps to the paths of the functions as long as none is called that has no code.
-/

namespace CuWasm

open Wasm Translate

namespace Translate

/-! ## All bodies lowered -/

/-- Only the code section adds code. -/
theorem payload_code {s s' : TState} {p : Payload} (hp : ∀ body, p ≠ .codeSectionEntry body)
    (h : payload s p = .ok s') : s'.code = s.code := by
  have hsame {t : TState} (ht : SameFuncs s t) : t.code = s.code := ht.code
  cases p with
  | typeSection recs =>
    refine each_invariant (P := fun t => t.code = s.code) (fun a tys b ha hb => ?_) rfl h
    rw [addTypes_ok hb]
    exact ha
  | functionSection idxs =>
    refine each_invariant (P := fun t => t.code = s.code) (fun a i b ha hb => ?_) rfl h
    cases hb
    exact ha
  | importSection imps =>
    refine each_invariant (P := fun t => t.code = s.code) (fun a imp b ha hb => ?_) rfl h
    obtain ⟨_, _, _, -, -, -, -, -, -, hcode, -⟩ := addImport_ok hb
    exact hcode.trans ha
  | memorySection mems => exact hsame (each_sameFuncs (fun _ _ _ => addMemory_same) h)
  | tableSection tabs => exact hsame (each_sameFuncs (fun _ _ _ => addTable_same) h)
  | elementSection els => exact hsame (each_sameFuncs (fun _ _ _ => addElement_same) h)
  | dataSection segs => exact hsame (each_sameFuncs (fun _ _ _ => addData_same) h)
  | globalSection gs => exact hsame (each_sameFuncs (fun _ _ _ => addGlobal_same) h)
  | exportSection exs => exact hsame (each_sameFuncs (fun _ _ _ => addExport_same) h)
  | codeSectionEntry body => exact absurd rfl (hp body)
  | startSection => cases h
  | dataCountSection | other =>
    cases h
    rfl

/-- Every `OP_BR_IF_NOT` leads forward. -/
def Forward (code : List CuOp) : Prop :=
  ∀ (p : Nat) (i : CuOp), code[p]? = some i → i.op = .brIfNot → p < i.b

/-- A pass that yields a function appends code that leads forward. -/
theorem Pass.Yields.forward {p : Pass} {f : FuncMeta} (hf : p.Yields f) (h : Forward p.state.code) :
    Forward p.result.2.1 := by
  intro q i hi hop
  rcases Nat.lt_or_ge q p.state.code.length with hlt | hge
  · obtain ⟨later, hlater⟩ := (lowerOperators_grows hf.eq).1
    refine h q i ?_ hop
    rwa [← hlater, List.getElem?_append_left hlt] at hi
  · exact lowerOperators_forward hf.eq hge hi hop

/-- A body that is lowered adds code that leads forward. -/
theorem lowerBody_forward {p : Pass} {f : FuncMeta} (hf : p.Yields f) (h : Forward p.state.code) :
    Forward (lowerBody p.state p.type p.nLocals p.ops).code := by
  obtain ⟨g, code', consts', heq, hplaced⟩ := lowerBody_placed p.state p.type p.nLocals p.ops
  have hcode := hf.forward h
  unfold Pass.Yields at hf
  unfold Pass.result at hf hcode
  rw [heq]
  cases hplaced with
  | lowered hl =>
    rw [hl] at hcode
    exact hcode
  | stub hl =>
    rw [hl] at hf
    cases hf

/-- Without stubs the code leads forward, however much of the module has been read. -/
theorem payloads_forward {payloads : List (Parsed Payload)} (hlow : EveryBodyLowers payloads)
    (pre : List (Parsed Payload)) : ∀ {post s}, payloads = pre ++ post →
      each "parse" payload pre {} = .ok s → Forward s.code := by
  induction pre using List.reverseRecOn with
  | nil =>
    intro post s hpay h p i hi
    cases h
    cases hi
  | append_singleton pre x ih =>
    intro post s hpay h
    rw [List.append_assoc] at hpay
    rw [each_append] at h
    obtain ⟨t, ht, h⟩ := Verify.bind_eq_ok h
    have hfwd := ih hpay ht
    cases x with
    | error e => cases h
    | ok pl =>
      obtain ⟨u, hu, h⟩ := Verify.bind_eq_ok h
      cases h
      by_cases hbody : ∃ body, pl = .codeSectionEntry body
      · obtain ⟨body, rfl⟩ := hbody
        change addCode t body = .ok s at hu
        rw [Checked.translate_addCode_eq] at hu
        cases hargs : Checked.bodyArgs t body with
        | error e =>
          rw [hargs] at hu
          cases hu
        | ok a =>
          rw [hargs] at hu
          cases hu
          obtain ⟨f, hf⟩ := hlow ⟨t, a.1, a.2.1, a.2.2⟩ ⟨pre, body, post, hpay, ht, hargs⟩
          exact lowerBody_forward hf hfwd
      · rw [payload_code (fun body hb => hbody ⟨body, hb⟩) hu]
        exact hfwd

/-- A module without stubs: the whole code confines a run. -/
theorem translated_confines {payloads : List (Parsed Payload)} {m : HostModule}
    (h : translateWasm payloads = .ok m) (hlow : EveryBodyLowers payloads) :
    Confines m.dev fun _ => True where
  next _ _ _ _ _ _ := trivial
  forward p i _ hi hop := by
    obtain ⟨s, hs, hfin⟩ := Verify.bind_eq_ok h
    obtain ⟨-, hcode, -⟩ := finish_ok hfin
    have hfwd := payloads_forward hlow payloads (List.append_nil _).symm hs
    exact hfwd p i (hcode ▸ hi) hop
  call _ _ _ _ _ _ _ := trivial
  callIndirect _ _ _ _ _ _ _ _ := trivial

/-- A module without trap instructions has no stubs: every body is lowered. -/
theorem everyBodyLowers_of_trapFree {payloads : List (Parsed Payload)} {m : HostModule}
    (h : translateWasm payloads = .ok m) (hno : ∀ i ∈ m.code, i.op ≠ .unreachable) :
    EveryBodyLowers payloads := by
  intro p hp
  obtain ⟨f, code', consts', -, hcode, -, hplaced⟩ := hp.placed h
  cases hplaced with
  | lowered hlow => exact ⟨f, congrArg Prod.fst hlow⟩
  | stub _ _ hstub =>
    refine absurd rfl (hno { op := .unreachable } (hcode.subset ?_))
    rw [hstub]
    exact List.mem_append_right _ (.head _)

end Translate

/-- In a module without stubs, what a call of `run_instance` executes is bounded by the fuel it consumes
and its tail calls. -/
theorem executed_le_consumed {payloads : List (Parsed Payload)} {m : HostModule}
    (h : translateWasm payloads = .ok m) (hlow : EveryBodyLowers payloads) (x : Invocation)
    (hcsp : x.st.csp ≤ FRAME_CAP) :
    ((x.executed m.dev).length : Int) ≤
      (x.consumed m.dev + x.tailCalls m.dev + 1) * m.dev.span :=
  x.executed_bound (translated_confines h hlow) ⟨trivial, fun _ _ _ => trivial, hcsp⟩

/-- The run through the empty arms: five instructions without a charge or a tail call. -/
theorem empty_arms_bounded : ∃ m, translateWasm emptyArms = .ok m ∧
    0 < ((enterWith 1).executed m.dev).length ∧
    (((enterWith 1).executed m.dev).length : Int) ≤
      ((enterWith 1).consumed m.dev + (enterWith 1).tailCalls m.dev + 1) * m.dev.span := by
  have heval : (translateWasm emptyArms).toOption.map (fun m : HostModule =>
      m.code.all (fun i => i.op != .unreachable) &&
        decide (0 < ((enterWith 1).executed m.dev).length)) = some true := by
    decide +kernel
  obtain ⟨m, hm, hval⟩ := translated_eval heval
  simp only [Bool.and_eq_true, decide_eq_true_eq] at hval
  have hlow := everyBodyLowers_of_trapFree hm fun i hi => by
    simpa using List.all_eq_true.mp hval.1 i hi
  exact ⟨m, hm, hval.2, executed_le_consumed hm hlow (enterWith 1) (by decide)⟩

/-! ## Some bodies replaced by stubs -/

open Verify

/-- The paths of a verified function stay in its code. -/
theorem Accepted.owns {m : HostModule} (hm : Accepted m) {f : FuncMeta} (hf : f ∈ m.funcs)
    (hpos : 0 < f.codeLen) {pc : Nat} (h : PcReach m f pc) :
    f.codeOff ≤ pc ∧ pc < f.codeOff + f.codeLen ∧
      m.code[pc]? = some (instrAt m f (pc - f.codeOff)) := by
  obtain ⟨k, hk⟩ := List.mem_iff_getElem?.mp hf
  obtain ⟨hin, ⟨h0, -⟩ | ⟨-, st, hst, -⟩⟩ := hm.func k f hk
  · omega
  have hcl := analyse_closed hpos hst
  obtain ⟨hle, hk⟩ := hcl.known hin h
  obtain ⟨fl, hfl⟩ := hcl.flowAt _ hk
  have hlt := hfl.lt
  have hcode := code_instrAt hin hlt
  rw [Nat.add_sub_cancel' hle] at hcode
  exact ⟨hle, by omega, hcode⟩

section Verified

variable {M : Module} {m0 m : HostModule} (h : Verified M m0 m)

include h

/-- In the code of a function, lowered or a stub, no `OP_BR_IF_NOT` leads back. -/
theorem Verified.forward {k : Nat} {f : FuncMeta} (hf : m.funcs[k]? = some f) (hpos : 0 < f.codeLen)
    {p : Nat} (hp : f.codeOff ≤ p ∧ p < f.codeOff + f.codeLen) {i : CuOp} (hi : m.code[p]? = some i)
    (hop : i.op = .brIfNot) : p < i.b := by
  have hk := h.defined_of hf hpos
  obtain ⟨f0, hf0, hs, -⟩ := h.func hf
  have hlt := (List.getElem?_eq_some_iff.mp hf0).1
  rw [h.translated.length] at hlt
  have hc := List.getElem?_eq_getElem (show k - M.imports.length < M.code.length by omega)
  obtain ⟨s, ft, g, code', consts', -, -, -, -, -, -, hplaced, hg, ⟨later, hlater⟩, -⟩ :=
    h.translated.entry _ _ hc
  rw [Nat.add_sub_cancel' hk, hf0] at hg
  cases hg
  have hoff : f.codeOff = f0.codeOff ∧ f.codeLen = f0.codeLen := by
    rw [hs]
    exact ⟨rfl, rfl⟩
  have hi' : code'[p]? = some i := by
    have hle := hplaced.range.2
    rw [h.typeFp.2.2.2.1, ← hlater, List.getElem?_append_left (by omega)] at hi
    exact hi
  cases hplaced with
  | lowered hl =>
    rw [lowerOperators_meta hl] at hoff
    exact lowerOperators_forward hl (Nat.le_trans (Nat.le_of_eq hoff.1.symm) hp.1) hi' hop
  | stub hl hstub hcode =>
    rw [hstub] at hoff
    rw [hcode, List.getElem?_append_right (Nat.le_trans (Nat.le_of_eq hoff.1.symm) hp.1)] at hi'
    rcases List.mem_cons.mp (List.mem_of_getElem? hi') with rfl | hmem
    · cases hop
    · rw [List.mem_singleton.mp hmem] at hop
      cases hop

/-- A valid module whose table holds no import: a run keeps to the paths of the functions. -/
theorem Verified.confines
    (htab : ∀ i fi : Nat, m.table[i]? = some fi → fi ≠ TABLE_NULL → m.nHostImports ≤ fi) :
    Confines m.dev m.Reached where
  next p i q hp hi hq := by
    obtain ⟨f, hf, hpos, hreach⟩ := hp
    exact ⟨f, hf, hpos, hreach.step hi hq⟩
  forward p i hp hi hop := by
    obtain ⟨f, hf, hpos, hreach⟩ := hp
    obtain ⟨k, hk⟩ := List.mem_iff_getElem?.mp hf
    have hown := h.accepted.owns hf hpos hreach
    exact h.forward hk hpos ⟨hown.1, hown.2.1⟩ hi hop
  call p i g hp hi hop hg := by
    obtain ⟨f, hf, hpos, hreach⟩ := hp
    obtain ⟨k, hk⟩ := List.mem_iff_getElem?.mp hf
    obtain ⟨hle, hlt, hcode⟩ := h.accepted.owns hf hpos hreach
    have hi' : m.code[p]? = some i := hi
    rw [hi'] at hcode
    cases hcode
    have hcallee := h.callee hk hpos (show p - f.codeOff < f.codeLen by omega) hop
    exact ⟨g, List.mem_of_getElem? hg, h.code_pos_of hg hcallee, .entry⟩
  callIndirect p i idx g hp hi hop hg := by
    obtain ⟨fi, want, tidx, htable, hfun, hwant, htidx, heq⟩ := Run.indirectTarget_some hg
    have hne : fi ≠ TABLE_NULL := by
      rintro rfl
      unfold Run.indirectTarget at hg
      rw [htable] at hg
      simp at hg
    exact ⟨g, List.mem_of_getElem? hfun, h.code_pos_of hfun (htab idx fi htable hne), .entry⟩

end Verified

end CuWasm
