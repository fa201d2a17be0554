import CuWasm.Proofs.EmitProofs

/-!
# Immediates survive the lowering

What `EmitProofs` says of the pass, put together with what the translator, the fingerprints and the
verifier guarantee: of the indices that go into a 16-bit field, those of locals are bounded by the
frame, those of data segments by nothing.
-/

namespace CuWasm

open Wasm Exit

/-! ## Passes -/

namespace Translate.Pass

/-- The pass belongs to a valid module that was translated to `m` and verified. -/
structure Sits (p : Pass) (C : Ctx) (nImports : Nat) (m : HostModule) : Prop where
  describes : Structured.Describes p.env C
  short : ∀ ft ∈ C.types, ft.1.length ≤ 8 ∧ ft.2.length ≤ 8
  nImports : p.env.nImports = nImports
  nParams : p.type.1.length ≤ 8
  nLocals : p.nLocals ≤ 2 ^ 16 - 1
  code : (final (Lower.operators p.env p.ops p.start)).code <+: m.code
  consts : (final (Lower.operators p.env p.ops p.start)).consts <+: m.consts
  frame : p.Succeeds → p.type.1.length + p.nLocals < 2 ^ 16
  locals : ∀ o ∈ p.ops, ∀ i, o.Accesses i → i < p.type.1.length + p.nLocals

section

variable {p : Pass} {C : Ctx} {nImports : Nat} {m : HostModule} {o : Operator} {t : LState}

/-- The scratch local, if there is one. -/
def scratch (p : Pass) : Nat := p.env.scratch.getD 0

theorem scratch_eq (ho : o ∈ p.ops) (hb : o.isBrTable = true) : p.env.scratch = some p.scratch ∧
    p.scratch = ((p.type.1.length % 2 ^ 16 + min (p.nLocals + 1) (2 ^ 16 - 1)) % 2 ^ 16 +
      (2 ^ 16 - 1)) % 2 ^ 16 := by
  have hany : p.ops.any Operator.isBrTable = true := List.any_eq_true.mpr ⟨o, ho, hb⟩
  have hscratch : p.env.scratch =
      scratchIndex p.ops (p.type.1.length % 2 ^ 16) (scratchLocals p.ops p.nLocals) := rfl
  rw [scratchIndex, scratchLocals, if_pos hany, if_pos hany] at hscratch
  have hvalue : p.scratch = _ := congrArg (Option.getD · 0) hscratch
  rw [Option.getD_some] at hvalue
  exact ⟨hvalue ▸ hscratch, hvalue⟩

/-- The scratch local lies behind the declared locals exactly if nothing wraps or saturates. -/
theorem Sits.scratch_iff (hs : p.Sits C nImports m) (ho : o ∈ p.ops) (hb : o.isBrTable = true) :
    p.type.1.length + p.nLocals ≤ p.scratch ↔
      p.nLocals < 2 ^ 16 - 1 ∧ p.type.1.length + p.nLocals < 2 ^ 16 := by
  have := hs.nParams
  have := hs.nLocals
  rw [(scratch_eq ho hb).2]
  omega

/-- At every operator the pass can be read from there on. -/
theorem Sits.comesTo (hs : p.Sits C nImports m) (ht : Lower.ComesTo p.env p.ops p.start o t) :
    Lower.Denoting t.code t.consts [] [] t := by
  obtain ⟨pre, post, hops, ht⟩ := ht
  have hstart : Lower.Denoting p.start.code p.start.consts [] [] p.start := by
    refine ⟨le_rfl, fun _ => by rw [List.take_length], by rw [List.drop_length]; rfl,
      List.prefix_refl _, fun i hi => ?_, fun q hq => (by cases hq), fun c hc q hq => ?_⟩
    · rw [List.drop_length] at hi
      cases hi
    · rw [List.mem_singleton.mp hc] at hq
      rcases hq with hq | hq | hq <;> cases hq
  have hscratch : ∀ o' ∈ pre, o'.isBrTable = true → p.env.scratch = some p.scratch :=
    fun o' ho' hb => (scratch_eq (hops ▸ List.mem_append_left _ ho') hb).1
  obtain ⟨hok, -⟩ := Lower.operators_emits hs.describes hs.short pre hscratch _ _ _ hstart
  exact (hok () t ht).restart

/-- What is emitted for an operator stays in the module, with its meaning. -/
theorem Sits.emitted_immediates (hs : p.Sits C nImports m)
    (ht : Lower.ComesTo p.env p.ops p.start o t) {ws : List Immediate}
    (hws : Lower.Denoting t.code t.consts [] ws (final (Lower.operator p.env o t))) :
    (p.emitted m o t).filterMap (CuOp.immediate m.consts) = ws := by
  obtain ⟨pre, post, hops, ht⟩ := ht
  set t' := final (Lower.operator p.env o t) with ht'
  set u := final (Lower.operators p.env p.ops p.start) with hu
  -- the rest of the pass
  obtain ⟨vs, hrest⟩ : ∃ vs, Lower.Denoting t'.code t'.consts [] vs u := by
    have hscratch : ∀ o' ∈ post, o'.isBrTable = true → p.env.scratch = some p.scratch := by
      intro o' ho' hb
      refine (scratch_eq ?_ hb).1
      rw [hops]
      exact List.mem_append_right _ (.tail _ ho')
    have hsplit : u = final ((Lower.operator p.env o >>= fun _ => Lower.operators p.env post) t) := by
      rw [hu, hops, Structured.operators_append, bind_ok ht]
      rfl
    rw [hsplit]
    cases hr : Lower.operator p.env o t with
    | ok a s =>
      rw [bind_ok hr]
      rw [hr] at ht'
      rw [ht'] at hws ⊢
      exact (Lower.operators_emits hs.describes hs.short post hscratch).final hws.restart
    | error e s =>
      rw [bind_error hr]
      rw [hr] at ht'
      rw [ht'] at hws ⊢
      exact ⟨[], hws.restart⟩
  have hcode : m.code.take t'.code.length = u.code.take t'.code.length := by
    obtain ⟨l, hl⟩ := hs.code
    rw [← hl, List.take_append_of_le_length hrest.low]
  have hread : ((m.code.take t'.code.length).drop t.code.length).map (CuOp.immediate m.consts) =
      (t'.code.drop t.code.length).map (CuOp.immediate m.consts) := by
    rw [hcode, List.map_drop, hrest.kept, ← List.map_drop]
  have hpool : t'.consts <+: m.consts := hrest.pool.trans hs.consts
  have hsame := congrArg (List.filterMap id) hread
  simp only [List.filterMap_map, Function.id_comp] at hsame
  unfold emitted
  rw [← ht', hsame, ← hws.denotes]
  exact List.filterMap_congr fun i hi => CuOp.immediate_prefix hpool (hws.defined i hi)

/-- Immediates that fit are not changed by the cut. -/
theorem Sits.uncut (hs : p.Sits C nImports m) (ho : o ∈ p.ops) (hfit : p.Fits o) :
    ∃ scratch, p.type.1.length + p.nLocals ≤ scratch ∧
      o.cut.immediates C nImports p.scratch = o.immediates C nImports scratch := by
  cases o with
  | localGet i =>
    refine ⟨_, le_rfl, ?_⟩
    show [Immediate.localIndex (i % 2 ^ 16)] = _
    rw [Nat.mod_eq_of_lt hfit]
    rfl
  | localSet i =>
    refine ⟨_, le_rfl, ?_⟩
    show [Immediate.localIndex (i % 2 ^ 16)] = _
    rw [Nat.mod_eq_of_lt hfit]
    rfl
  | localTee i =>
    refine ⟨_, le_rfl, ?_⟩
    show [Immediate.localIndex (i % 2 ^ 16), .localIndex (i % 2 ^ 16)] = _
    rw [Nat.mod_eq_of_lt hfit]
    rfl
  | memoryInit di mem =>
    refine ⟨_, le_rfl, ?_⟩
    show [Immediate.dataIndex (if mem = 0 then di % 2 ^ 16 else di)] = [.dataIndex di]
    split_ifs with hmem
    · rw [Nat.mod_eq_of_lt (hfit hmem)]
    · rfl
  | dataDrop di =>
    refine ⟨_, le_rfl, ?_⟩
    show [Immediate.dataIndex (di % 2 ^ 16)] = _
    rw [Nat.mod_eq_of_lt hfit]
    rfl
  | brTable targets default => exact ⟨p.scratch, (hs.scratch_iff ho rfl).mpr hfit, rfl⟩
  | _ => exact ⟨_, le_rfl, rfl⟩

theorem head_of_prefix {α : Type} {ws es : List α} {x : α} (h : ws <+: es)
    (hx : ws.head? = some x) : es.head? = some x := by
  obtain ⟨l, rfl⟩ := h
  cases ws with
  | nil => cases hx
  | cons y ws => exact hx

/-- The first immediate of a certain operator shows whether it fits. -/
theorem Sits.fits (hs : p.Sits C nImports m) (ho : o ∈ p.ops) {scratch : Nat}
    (hscratch : p.type.1.length + p.nLocals ≤ scratch)
    (hhead : o.Certain → (o.immediates C nImports scratch).head? =
      (o.cut.immediates C nImports p.scratch).head?) : p.Fits o := by
  cases o with
  | localGet i | localSet i | localTee i =>
    have hi : i = i % 2 ^ 16 := Immediate.localIndex.inj (Option.some.inj (hhead trivial))
    show i < 2 ^ 16
    omega
  | memoryInit di mem =>
    intro hmem
    have hdi : di = if mem = 0 then di % 2 ^ 16 else di :=
      Immediate.dataIndex.inj (Option.some.inj (hhead hmem))
    rw [if_pos hmem] at hdi
    omega
  | dataDrop di =>
    have hdi : di = di % 2 ^ 16 := Immediate.dataIndex.inj (Option.some.inj (hhead trivial))
    show di < 2 ^ 16
    omega
  | brTable targets default =>
    have heq : scratch = p.scratch := Immediate.localIndex.inj (Option.some.inj (hhead trivial))
    exact (hs.scratch_iff ho rfl).mp (heq ▸ hscratch)
  | _ => trivial

/-- The instructions emitted for an operator denote its immediates exactly if these fit. -/
theorem Sits.denotes_iff (hs : p.Sits C nImports m)
    (ht : Lower.ComesTo p.env p.ops p.start o t) : p.Denotes C nImports m o t ↔ p.Fits o := by
  have ho := ht.mem
  obtain ⟨ws, hws, hpart, hall, hhead⟩ := Lower.operator_result hs.describes hs.short o
    (fun hb => (scratch_eq ho hb).1) (hs.comesTo ht)
  have hread := hs.emitted_immediates ht hws
  rw [hs.nImports] at hpart hall hhead
  unfold Denotes
  rw [hread]
  constructor
  · rintro ⟨scratch, hscratch, hprefix, -⟩
    refine hs.fits ho hscratch fun hc => ?_
    obtain ⟨x, ys, hcut⟩ : ∃ x ys, o.cut.immediates C nImports p.scratch = x :: ys := by
      obtain ⟨x, ys, hcut, -⟩ := Lower.operator_certain hc fun hb => (scratch_eq ho hb).1
      exact ⟨x, ys, hs.nImports ▸ hcut⟩
    have hx := hhead hc
    rw [hcut] at hx ⊢
    exact head_of_prefix hprefix hx
  · intro hfit
    obtain ⟨scratch, hscratch, heq⟩ := hs.uncut ho hfit
    rw [heq] at hpart hall
    exact ⟨scratch, hscratch, hpart, hall⟩

end

end Translate.Pass

/-! ## Modules -/

theorem Wasm.OpTyped.local_lt {C : Ctx} {o : Operator} {ps qs : List ValType}
    (h : OpTyped C o ps qs) {i : Nat} (hi : o.Accesses i) : i < C.locals.length := by
  rcases hi with rfl | rfl | rfl
  · cases h with
    | localGet h => exact (List.getElem?_eq_some_iff.mp h).1
  · cases h with
    | localSet h => exact (List.getElem?_eq_some_iff.mp h).1
  · cases h with
    | localTee h => exact (List.getElem?_eq_some_iff.mp h).1

/-- The locals of a valid sequence are declared, also in code that is not reached. -/
theorem Wasm.Typed.local_lt {C : Ctx} {L : List (List ValType)} {r : Bool} {ts us : List ValType}
    {b : Body} (h : Typed C L r ts b us) :
    ∀ o ∈ b.flatten, ∀ i, o.Accesses i → i < C.locals.length := by
  have halien {o : Operator} (ho : ∀ i, ¬ o.Accesses i) {ops : List Operator}
      (hops : ∀ o ∈ ops, ∀ i, o.Accesses i → i < C.locals.length) :
      ∀ o' ∈ o :: ops, ∀ i, o'.Accesses i → i < C.locals.length := by
    intro o' ho' i hi
    rcases List.mem_cons.mp ho' with rfl | ho'
    · exact absurd hi (ho i)
    · exact hops o' ho' i hi
  have hjoin {xs ys : List Operator} (hxs : ∀ o ∈ xs, ∀ i, o.Accesses i → i < C.locals.length)
      (hys : ∀ o ∈ ys, ∀ i, o.Accesses i → i < C.locals.length) :
      ∀ o ∈ xs ++ ys, ∀ i, o.Accesses i → i < C.locals.length := by
    intro o ho
    rcases List.mem_append.mp ho with ho | ho
    · exact hxs o ho
    · exact hys o ho
  induction h with
  | nil => exact fun o ho => (by cases ho)
  | op ho _ ih =>
    intro o' ho' i hi
    rcases List.mem_cons.mp ho' with rfl | ho'
    · exact ho.local_lt hi
    · exact ih o' ho' i hi
  | unreachable _ ih | br _ _ ih | brIf _ _ ih | brTable _ _ _ ih | return_ _ ih
    | returnCall _ _ _ _ ih => exact halien (by rintro i (h | h | h) <;> cases h) ih
  | block _ _ _ ihb ihr | loop _ _ _ ihb ihr | ifThen _ _ _ _ ihb ihr =>
    refine halien (by rintro i (h | h | h) <;> cases h) (hjoin ihb ?_)
    exact halien (by rintro i (h | h | h) <;> cases h) ihr
  | ifElse _ _ _ _ ihb ihe ihr =>
    refine halien (by rintro i (h | h | h) <;> cases h) (hjoin ihb ?_)
    refine halien (by rintro i (h | h | h) <;> cases h) (hjoin ihe ?_)
    exact halien (by rintro i (h | h | h) <;> cases h) ihr

/-- A verified function has room for its parameters and locals in a frame of 65535 slots. -/
theorem Verified.frame_fits {M : Module} {m0 m : HostModule} (h : Verified M m0 m) {k : Nat}
    {f0 : FuncMeta} (hf0 : m0.funcs[k]? = some f0) (hpos : 0 < f0.codeLen) :
    f0.nParams + f0.nLocals < 2 ^ 16 := by
  have hlt := (List.getElem?_eq_some_iff.mp hf0).1
  rw [← h.typeFp.2.2.2.2] at hlt
  have hf := List.getElem?_eq_getElem hlt
  obtain ⟨f0', hf0', hs, -⟩ := h.func hf
  rw [hf0] at hf0'
  cases hf0'
  obtain ⟨-, ⟨hzero, -⟩ | ⟨hpos', st, hst, hmax, hle⟩⟩ := h.accepted.func k _ hf
  · rw [hs] at hzero
    exact absurd hzero hpos.ne'
  · have hcl := Verify.analyse_closed hpos' hst
    obtain ⟨fl, hfl⟩ := hcl.flowAt 0 hcl.start.ge
    have hnonneg : 0 ≤ st.maxH := hcl.start ▸ hfl.le
    have hsig : m.funcs[k].nParams = f0.nParams ∧ m.funcs[k].nLocals = f0.nLocals := by
      rw [hs]
      exact ⟨rfl, rfl⟩
    omega

namespace Translate

theorem Pass.result_final (p : Pass) :
    p.result.2.1 = (final (Lower.operators p.env p.ops p.start)).code ∧
      p.result.2.2 = (final (Lower.operators p.env p.ops p.start)).consts :=
  lowerOperators_final (Prod.ext rfl rfl : p.result = (p.result.1, p.result.2.1, p.result.2.2))

/-- A function that was lowered has code. -/
theorem lowered_pos {lm : LowerModule} {b : Body} {np nr n : Nat} {code code' : List CuOp}
    {consts consts' : List Slot} {f : FuncMeta} (hb : b.Plain)
    (h : lowerOperators lm b.function np nr n code consts = (.ok f, code', consts')) :
    0 < f.codeLen := by
  obtain ⟨is, hfun, -, rfl⟩ := lowered_items hb h
  obtain ⟨q, -, hq⟩ := Option.map_eq_some_iff.mp hfun
  cases hq
  show 0 < (_ ++ [_]).length
  rw [List.length_append]
  exact Nat.succ_pos _

end Translate

open Translate

/-- The passes over a valid module that is translated and verified. -/
theorem Verified.sits {M : Module} {m m' : HostModule} (h : Verified M m m') {c : Func} {p : Pass}
    (hp : M.Passes c p) : p.Sits (M.ctx p.type c) M.imports.length m := by
  have ht := h.translated
  obtain ⟨⟨k, hc, hty, hbefore⟩, hn, hops⟩ := hp
  obtain ⟨s, ft, f, code', consts', hs, htypes, hidx, hids, htype, hfew, hplaced, hf, hcode, hconsts⟩ :=
    ht.entry k c hc
  rcases p with ⟨ps, pt, pn, pops⟩
  dsimp only at hty hbefore hn hops
  rw [hs] at hbefore
  rw [htype] at hty
  cases hbefore
  cases hty
  subst hn hops
  have hmem : ft ∈ M.funcTypes := by
    obtain ⟨ti, -, hti⟩ := Option.bind_eq_some_iff.mp htype
    exact List.mem_of_getElem? hti
  have hshort := ht.short
  have hreads : Reads s (M.ctx ft c) ft :=
    ⟨htypes, hidx, hmem, rfl, fun ft' h' => by have := hshort ft' h'; omega⟩
  have hvalid := h.valid.body k ft c htype hc
  have hnp : ft.1.length % 2 ^ 16 = ft.1.length :=
    Nat.mod_eq_of_lt (by have := hshort ft hmem; omega)
  set p : Pass := ⟨s, ft, (c.locals.map (·.1)).sum, c.body.function⟩ with hp
  obtain ⟨hfin, hfin'⟩ := p.result_final
  have hresult : p.result.2.1 <+: m.code ∧ p.result.2.2 <+: m.consts ∧
      ∀ g, p.Yields g → g = f ∧ 0 < f.codeLen := by
    unfold Pass.Yields
    cases hplaced with
    | lowered hlow =>
      have hp' : p.result = (.ok f, code', consts') := hlow
      rw [hp']
      refine ⟨hcode, hconsts, fun g hg => ?_⟩
      cases hg
      exact ⟨rfl, lowered_pos (Structured.typed_plain hvalid) hlow⟩
    | stub hlow hstub hc' =>
      rename_i e code1
      have hp' : p.result = (.error e, code1, consts') := hlow
      rw [hp']
      rw [hc'] at hcode
      exact ⟨(List.prefix_append ..).trans hcode, hconsts, fun g hg => (by cases hg)⟩
  refine ⟨hreads.describes _ _, hshort, hids, (hshort ft hmem).1, hfew, hfin ▸ hresult.1,
    hfin' ▸ hresult.2.1, fun hsucc => ?_, fun o ho i hi => ?_⟩
  · obtain ⟨g, hg⟩ := hsucc
    obtain ⟨rfl, hpos⟩ := hresult.2.2 g hg
    have hframe := h.frame_fits hf hpos
    have hmeta := lowerOperators_meta hg.eq
    rw [hmeta] at hframe
    dsimp only at hframe
    rw [hnp] at hframe
    have hle : (c.locals.map (·.1)).sum ≤ scratchLocals c.body.function (c.locals.map (·.1)).sum := by
      unfold scratchLocals
      split_ifs <;> omega
    have hframe' : ft.1.length + scratchLocals c.body.function (c.locals.map (·.1)).sum < 2 ^ 16 :=
      hframe
    show ft.1.length + (c.locals.map (·.1)).sum < 2 ^ 16
    omega
  · have hlen : (M.ctx ft c).locals.length = ft.1.length + (c.locals.map (·.1)).sum := by
      show (ft.1 ++ _).length = _
      rw [List.length_append, sum_locals]
    show i < ft.1.length + (c.locals.map (·.1)).sum
    rw [← hlen]
    rcases List.mem_append.mp ho with ho | ho
    · exact Typed.local_lt hvalid o ho i hi
    · rw [List.mem_singleton.mp ho] at hi
      rcases hi with hi | hi | hi <;> cases hi

/-- In a valid module that is translated and verified, the instructions that a pass emits for an
operator denote its immediates exactly if these fit. Where the pass succeeds, indices of locals fit,
and a `br_table` fits unless there are 65535 declared locals. -/
theorem immediates_denoted_iff {M : Module} {ps : List (Parsed Payload)} {m m' : HostModule}
    (hv : M.Valid) (he : Encodes M ps) (hm : loadWasm ps = .ok m) (hver : verifyCuop m = .ok m')
    {c : Func} {p : Pass} (hp : M.Passes c p) {o : Operator} {t : LState}
    (ht : Lower.ComesTo p.env p.ops p.start o t) :
    (p.Denotes (M.ctx p.type c) M.imports.length m o t ↔ p.Fits o) ∧
      (p.Succeeds → (∀ i, o.Accesses i → p.Fits o) ∧
        (o.isBrTable = true → (p.Fits o ↔ p.nLocals < 2 ^ 16 - 1))) := by
  have hverified : Verified M m m' := ⟨loadWasm_translated he hm, hv, hver⟩
  have hs := hverified.sits hp
  have ho := ht.mem
  refine ⟨hs.denotes_iff ht, fun hsucc => ⟨fun i hi => ?_, fun hb => ?_⟩⟩
  · have hlt := (hs.locals o ho i hi).trans (hs.frame hsucc)
    rcases hi with rfl | rfl | rfl
    · exact hlt
    · exact hlt
    · exact hlt
  · cases o with
    | brTable targets default => exact ⟨fun h => h.1, fun h => ⟨h, hs.frame hsucc⟩⟩
    | _ => cases hb

/-- The function drops the data segment `i`. -/
def dropFunc (i : Nat) : Func where
  locals := []
  body := .op (.dataDrop i) .nil

/-- A module of this function and `n` empty data segments. -/
def dropModule (n i : Nat) : Module where
  types := [[.func ([], [])]]
  funcs := [0]
  code := [dropFunc i]
  datas := List.replicate n { kind := .passive, data := [] }

/-- The pass over it. -/
def dropPass (i : Nat) : Pass where
  state := { funcTypes := [([], [])], funcTypeidx := [0] }
  type := ([], [])
  nLocals := 0
  ops := [.dataDrop i, .end_]

theorem dropModule_passes (n i : Nat) : (dropModule n i).Passes (dropFunc i) (dropPass i) :=
  ⟨⟨0, rfl, rfl, rfl⟩, rfl, rfl⟩

theorem dropModule_valid {n i : Nat} (h : i < n) : (dropModule n i).Valid := by
  refine ⟨fun ti hti => ?_, rfl, fun k ft c hty hc => ?_⟩
  · cases List.mem_singleton.mp hti
    exact Nat.zero_lt_one
  · cases k with
    | zero =>
      cases hc
      cases hty
      have hdrop : OpTyped ((dropModule n i).ctx ([], []) (dropFunc i)) (.dataDrop i) [] [] := by
        refine .dataDrop ?_
        show i < (List.replicate n _).length
        rw [List.length_replicate]
        exact h
      exact .op hdrop .nil
    | succ k => cases hc

/-- The state of the translator behind the body. -/
def dropState (i : Nat) : TState where
  funcTypes := [([], [])]
  funcTypeidx := [0]
  funcs := [{ codeOff := 0, codeLen := 2, nParams := 0, nResults := 0, nLocals := 0 }]
  code := [⟨.dataDrop, i % 2 ^ 16, 0⟩, ⟨.endFunc, 0, 0⟩]

theorem dropModule_code (n i : Nat) : each "parse" payload
    ((dropModule n i).header ++ (dropModule n i).code.map Module.codeEntry) {} = .ok (dropState i) := rfl

/-- Empty passive segments are taken over. -/
theorem passive_data (n : Nat) (s : TState) :
    each "data" addData (List.replicate n (.ok { kind := .passive, data := [] })) s =
      .ok { s with pendingData := s.pendingData ++ List.replicate n (false, 0, []) } := by
  induction n generalizing s with
  | zero =>
    rw [List.replicate_zero, List.replicate_zero, List.append_nil]
    rfl
  | succ n ih =>
    refine (ih { s with pendingData := s.pendingData ++ [(false, 0, [])] }).trans ?_
    rw [List.append_assoc, List.replicate_succ]
    rfl

theorem passive_layout (size n : Nat) (l : Layout) :
    ∃ l', layoutData size (List.replicate n (false, 0, [])) l = .ok l' := by
  induction n generalizing l with
  | zero => exact ⟨l, rfl⟩
  | succ n ih =>
    rw [List.replicate_succ]
    unfold layoutData
    rw [if_neg fun h => (by cases h.1)]
    exact ih _

/-- The module is accepted, however many segments it has. -/
theorem dropModule_loads (n i : Nat) : ∃ m m', loadWasm (dropModule n i).payloads = .ok m ∧
    verifyCuop m = .ok m' ∧ m.code = (dropState i).code := by
  obtain ⟨l, hl⟩ := passive_layout 0 n {}
  set s : TState := { dropState i with pendingData := List.replicate n (false, 0, []) }
  have hall : each "parse" payload (dropModule n i).payloads {} = .ok s := by
    unfold Module.payloads
    rw [each_append, dropModule_code]
    show each "parse" payload [.ok (.dataSection ((List.replicate n _).map .ok))] (dropState i) = _
    rw [List.map_replicate]
    show (each "data" addData _ _ >>= _) = _
    rw [passive_data]
    rfl
  have hfin : finish s = .ok (s.assemble [0] l []) :=
    finish_eq_ok.mpr ⟨[0], l, [], rfl, fun h => (by cases h.1), hl, rfl, nofun, rfl⟩
  refine ⟨s.assemble [0] l [], { s.assemble [0] l [] with
    funcs := [{ codeOff := 0, codeLen := 2, nParams := 0, nResults := 0, nLocals := 0 }] }, ?_, rfl, rfl⟩
  unfold loadWasm translateWasm
  rw [hall]
  show (finish s >>= _) = _
  rw [hfin]
  rfl

theorem dropPass_comesTo (i : Nat) : Lower.ComesTo (dropPass i).env (dropPass i).ops
    (dropPass i).start (.dataDrop i) (dropPass i).start := ⟨[], [.end_], rfl, rfl⟩

/-- The first segment is dropped. -/
theorem drop_first : ∃ m, loadWasm (dropModule 1 0).payloads = .ok m ∧
    (dropPass 0).Denotes ((dropModule 1 0).ctx ([], []) (dropFunc 0)) 0 m (.dataDrop 0)
      (dropPass 0).start := by
  obtain ⟨m, m', hm, hver, -⟩ := dropModule_loads 1 0
  have hiff := immediates_denoted_iff (dropModule_valid Nat.zero_lt_one) rfl hm hver
    (dropModule_passes 1 0) (dropPass_comesTo 0)
  exact ⟨m, hm, hiff.1.mpr (Nat.two_pow_pos 16)⟩

/-- In a valid module of 65537 segments, the instruction for the last one drops the first. -/
theorem drop_truncated : (dropModule 65537 65536).Valid ∧
    ∃ m m', loadWasm (dropModule 65537 65536).payloads = .ok m ∧ verifyCuop m = .ok m' ∧
      m.code[0]? = some ⟨.dataDrop, 0, 0⟩ ∧
      (dropModule 65537 65536).Passes (dropFunc 65536) (dropPass 65536) ∧
      Lower.ComesTo (dropPass 65536).env (dropPass 65536).ops (dropPass 65536).start
        (.dataDrop 65536) (dropPass 65536).start ∧
      ¬ (dropPass 65536).Denotes ((dropModule 65537 65536).ctx ([], []) (dropFunc 65536)) 0 m
        (.dataDrop 65536) (dropPass 65536).start := by
  have hvalid : (dropModule 65537 65536).Valid := dropModule_valid (Nat.lt_succ_self 65536)
  obtain ⟨m, m', hm, hver, hcode⟩ := dropModule_loads 65537 65536
  have hverified : Verified (dropModule 65537 65536) m m' :=
    ⟨loadWasm_translated rfl hm, hvalid, hver⟩
  have hs := hverified.sits (dropModule_passes 65537 65536)
  have ht := dropPass_comesTo 65536
  refine ⟨hvalid, m, m', hm, hver, by rw [hcode]; rfl, dropModule_passes _ _, ht, fun h => ?_⟩
  have hfit := (hs.denotes_iff ht).mp h
  exact absurd (show 65536 < 2 ^ 16 from hfit) (by decide)

end CuWasm
