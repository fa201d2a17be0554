import CuWasm.Bodies
import CuWasm.Proofs.JumpProofs
import CuWasm.Proofs.PayloadProofs
import CuWasm.Proofs.ReleaseProofs

/-!
# What becomes of a body

The function that a pass yields is one of the functions of the module, its code stays where it is, and
each of its jumps leads where `JumpProofs` says.
-/

namespace CuWasm

open Wasm Exit

namespace Translate

/-! ## The translator only appends -/

/-- Code, constants and functions of `s` are still there in `t`. -/
structure Extends (s t : TState) : Prop where
  code : s.code <+: t.code
  consts : s.consts <+: t.consts
  funcs : s.funcs <+: t.funcs

theorem Extends.refl (s : TState) : Extends s s :=
  ⟨List.prefix_refl _, List.prefix_refl _, List.prefix_refl _⟩

theorem Extends.trans {s t u : TState} (h : Extends s t) (h' : Extends t u) : Extends s u :=
  ⟨h.code.trans h'.code, h.consts.trans h'.consts, h.funcs.trans h'.funcs⟩

theorem lowerBody_extends (s : TState) (ft : FuncType) (n : Nat) (ops : List Operator) :
    Extends s (lowerBody s ft n ops) := by
  obtain ⟨f, code', consts', heq, hplaced⟩ := lowerBody_placed s ft n ops
  obtain ⟨h1, h2⟩ := hplaced.grows
  rw [heq]
  exact ⟨h1, h2, List.prefix_append ..⟩

theorem extends_survives (s : TState) : Survives (Extends s) where
  same t t' hsame h := by
    refine h.trans ⟨?_, ?_, ?_⟩
    · rw [hsame.code]
    · rw [hsame.consts]
    · rw [hsame.funcs]
  types t fts h := ⟨h.code, h.consts, h.funcs⟩
  typeidx t i h := ⟨h.code, h.consts, h.funcs⟩
  imports t t' imp h himp := by
    obtain ⟨_, _, _, -, -, -, -, -, -, hcode, hconsts, hfuncs⟩ := addImport_ok himp
    refine h.trans ⟨?_, ?_, ?_⟩
    · rw [hcode]
    · rw [hconsts]
    · rw [hfuncs]
      exact List.prefix_append ..
  code t ft n ops _ _ h := h.trans (lowerBody_extends t ft n ops)

/-- A fact about the module that an accepted sequence of payloads is translated to. -/
theorem translated_eval {α : Type} {payloads : List (Parsed Payload)} {F : HostModule → α} {x : α}
    (h : (translateWasm payloads).toOption.map F = some x) :
    ∃ m, translateWasm payloads = .ok m ∧ F m = x := by
  cases hm : translateWasm payloads with
  | error e =>
    rw [hm] at h
    cases h
  | ok m =>
    rw [hm] at h
    exact ⟨m, rfl, Option.some.inj h⟩

section Makes

variable {payloads : List (Parsed Payload)} {m : HostModule} {p : Pass}

/-- A body becomes a function of the module, and its code and constants stay. -/
theorem Makes.placed (hp : Makes payloads p) (h : translateWasm payloads = .ok m) :
    ∃ f code' consts', f ∈ m.funcs ∧ code' <+: m.code ∧ consts' <+: m.consts ∧
      Placed p.state.lowerModule p.type p.nLocals p.ops p.state.code p.state.consts f code' consts' := by
  obtain ⟨pre, body, post, rfl, hpre, hargs⟩ := hp
  obtain ⟨s, hs, hfin⟩ := Verify.bind_eq_ok h
  rw [each_append, hpre] at hs
  obtain ⟨t, hbody, hpost⟩ :=
    Verify.bind_eq_ok (show payload p.state (.codeSectionEntry body) >>= _ = .ok s from hs)
  change addCode p.state body = .ok t at hbody
  rw [Checked.translate_addCode_eq, hargs] at hbody
  cases hbody
  obtain ⟨f, code', consts', heq, hplaced⟩ :=
    lowerBody_placed p.state p.type p.nLocals p.ops
  have hext : Extends (lowerBody p.state p.type p.nLocals p.ops) s :=
    each_invariant (fun _ _ _ ha hb => (extends_survives _).payload ha hb) (Extends.refl _) hpost
  rw [heq] at hext
  obtain ⟨-, hcode, hconsts, hfuncs, -⟩ := finish_ok hfin
  refine ⟨f, code', consts', ?_, hcode ▸ hext.code, hconsts ▸ hext.consts, hplaced⟩
  rw [hfuncs]
  exact hext.funcs.subset (List.mem_append_right _ (.head _))

/-- The function that a pass yields. -/
theorem Makes.yields {f : FuncMeta} (hp : Makes payloads p) (h : translateWasm payloads = .ok m)
    (hf : p.Yields f) : f ∈ m.funcs ∧ p.result.2.1 <+: m.code ∧ p.result.2.2 <+: m.consts := by
  obtain ⟨g, code', consts', hg, hcode, hconsts, hplaced⟩ := hp.placed h
  unfold Pass.Yields at hf
  unfold Pass.result at hf ⊢
  cases hplaced with
  | lowered hl =>
    rw [hl] at hf ⊢
    cases hf
    exact ⟨hg, hcode, hconsts⟩
  | stub hl hstub hc =>
    rw [hl] at hf
    cases hf

end Makes

/-! ## The jumps of a function -/

namespace Pass

variable {p : Pass} {f : FuncMeta}

theorem Yields.eq (hf : p.Yields f) : p.result = (.ok f, p.result.2.1, p.result.2.2) :=
  Prod.ext hf rfl

theorem Yields.closed (hf : p.Yields f) : ∃ t, Lower.operators p.env p.ops p.start = .ok () t ∧
    t.ctrl = [] ∧ t.code = p.result.2.1 ∧ t.consts = p.result.2.2 := by
  obtain ⟨t, ht, hctrl, hcode, hconsts, -⟩ := lowerOperators_ok hf.eq
  exact ⟨t, ht, hctrl, hcode, hconsts⟩

theorem Yields.range (hf : p.Yields f) : f.codeOff = p.state.code.length ∧
    f.codeOff + f.codeLen = p.result.2.1.length := by
  have hle := (lowerOperators_grows hf.eq).1.length_le
  rw [lowerOperators_meta hf.eq]
  dsimp only
  omega

/-- The invariant of the jumps holds where a pass begins. -/
theorem start_jumps (p : Pass) : Lower.PassJumps p.env p.ops p.start p.state.code.length
    { scopes := [{ kind := .func }] } p.start where
  low := le_rfl
  held _ h := by cases h
  scopes := rfl
  frames c hc := by
    cases List.mem_singleton.mp hc
    exact ⟨fun _ h => (by cases h), fun _ h => (by cases h), fun _ h => (by cases h), fun _ => rfl⟩
  booked c hc := by
    cases List.mem_singleton.mp hc
    exact ⟨by simp [funcCtrl], fun h => (by cases h), fun _ => rfl, fun h => (by cases h)⟩
  jumps q i hq hi _ := by
    have := (List.getElem?_eq_some_iff.mp hi).1
    exact absurd this (Nat.not_lt_of_le hq)
  ends h := by cases h
  drops h := by cases h

/-- The invariant of the jumps holds where the pass of a function ends. -/
theorem Yields.jumps (hf : p.Yields f) : ∃ t, t.ctrl = [] ∧ t.code = p.result.2.1 ∧
    Lower.PassJumps p.env p.ops p.start p.state.code.length (Scan.function p.ops) t := by
  obtain ⟨t, ht, hctrl, hcode, -⟩ := hf.closed
  exact ⟨t, hctrl, hcode, Lower.operators_jumps (start_jumps p) (List.append_nil p.ops).symm ht⟩

/-- A jump of a function that has not been forgotten leads into it, or to its end if the scan says
so. -/
theorem Yields.leads (hf : p.Yields f) {q : Nat} {i : CuOp} (hq : f.codeOff ≤ q)
    (hi : p.result.2.1[q]? = some i) (hjump : i.IsJump)
    (hF : ¬ Lower.Forgotten p.env p.ops p.start q) :
    Lower.Leads f.codeOff (Lower.LoopHeader p.env p.ops p.start) (Scan.function p.ops).atEnd
      (f.codeOff + f.codeLen) q i := by
  obtain ⟨t, hctrl, hcode, hinv⟩ := hf.jumps
  obtain ⟨hoff, hlen⟩ := hf.range
  rw [hlen, hoff, ← hcode]
  rw [← hcode] at hi
  rcases hinv.jumps q i (hoff ▸ hq) hi hjump with hw | h | h
  · rcases hw with hw | ⟨c, hc, -⟩
    · cases hw
    · rw [hctrl] at hc
      cases hc
  · exact absurd h hF
  · exact h

end Pass

end Translate

/-! ### A second `else` -/

theorem Scan.step_repeated {x : Scan} (h : x.repeated = true) (o : Operator) :
    (x.step o).repeated = true := by
  have hjump (y : Scan) (hy : y.repeated = true) (d : Nat) : (y.jump d).repeated = true := hy
  have hfold (targets : List Nat) (y : Scan) (hy : y.repeated = true) :
      (targets.foldl Scan.jump y).repeated = true :=
    List.foldlRecOn targets Scan.jump hy fun z hz d _ => hjump z hz d
  cases o with
  | else_ =>
    show x.alternative.repeated = true
    unfold Scan.alternative
    split
    · exact h
    · exact Bool.or_eq_true_iff.mpr (.inl h)
  | end_ =>
    show x.leave.repeated = true
    unfold Scan.leave
    split
    · exact h
    · exact h
  | brTable targets default => exact hfold targets x h
  | _ => exact h

theorem Scan.foldl_repeated {x : Scan} (h : x.repeated = true) (ops : List Operator) :
    (ops.foldl Scan.step x).repeated = true :=
  List.foldlRecOn (motive := fun y : Scan => y.repeated = true) ops Scan.step h
    fun _ hy o _ => Scan.step_repeated hy o

/-- A pass forgets no jump unless an `if` has a second `else`. -/
theorem Translate.Pass.not_forgotten {p : Translate.Pass}
    (hr : (Scan.function p.ops).repeated = false) (q : Nat) :
    ¬ Lower.Forgotten p.env p.ops p.start q := by
  rintro ⟨t, c, rest, ⟨pre, post, hops, ht⟩, hctrl, hk, hq⟩
  have hinv := Lower.operators_jumps p.start_jumps hops ht
  have hhas := (hinv.booked c (by rw [hctrl]; exact .head _)).elseBr.mpr (by rw [hq]; rfl)
  set x : Scan := pre.foldl Scan.step { scopes := [{ kind := .func }] } with hx
  have hscopes : Lower.scope c :: rest.map Lower.scope = x.scopes := by
    rw [← hinv.scopes, hctrl]
    rfl
  have helse : (x.step .else_).repeated = true := by
    show x.alternative.repeated = true
    unfold Scan.alternative
    rw [← hscopes]
    exact Bool.or_eq_true_iff.mpr (.inr hhas)
  have hall := Scan.foldl_repeated helse post
  unfold Scan.function at hr
  rw [hops, List.foldl_append, List.foldl_cons, ← hx, hall] at hr
  cases hr

end CuWasm
