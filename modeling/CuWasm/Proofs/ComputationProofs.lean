import CuWasm.Proofs.AgreeProofs
import CuWasm.Proofs.CompiledProofs
import CuWasm.Proofs.ConfinedProofs
import CuWasm.Proofs.OpeningProofs
import CuWasm.Proofs.OutcomeProofs
import CuWasm.Proofs.TrapProofs
import CuWasm.Proofs.ValueProofs

/-!
# The lowering preserves the meaning of a computation

A function that only computes is run as the only one of a module. Its frame fits into the stack, and the
run does what the semantics says, or the first instruction ends the run.
-/

namespace CuWasm

open Exit Run Wasm Structured Translate

/-! ## The emitted code -/

section Emitted

variable {c : Func} {f : FuncMeta} {env : LowerEnv} {m : HostModule} {nr : Nat} {consts : List Slot}
  {is : Items} {st : State}

/-- The code of the function `c` with `nr` results, lowered in `env`, stands in the module. -/
structure Laid (m : HostModule) (env : LowerEnv) (f : FuncMeta) (c : Func) (nr : Nat) (consts : List Slot)
    (is : Items) (st : State) : Prop where
  body : Structured.body env [⟨none, 0, nr⟩] false ⟨f.codeOff, consts, 0, false⟩ c.body = some (is, st)
  pool : st.consts <+: m.consts
  code : CodeAt m (ends st.pc fun _ => 0) f.codeOff is
  last : ∃ i, m.code[st.pc]? = some i ∧ i.op = .endFunc

theorem Laid.enclosed (h : Laid m env f c nr consts is st) (hc : c.body.computes = true) :
    Enclosed m.dev f.codeOff st.pc := by
  have hpc : st.pc = f.codeOff + is.length := counts_body c.body is st h.body
  have hstarts : StartsIn f.codeOff st.pc [⟨none, 0, nr⟩] := by
    intro l hl t ht
    rw [List.mem_singleton.mp hl] at ht
    cases ht
  have hitems := confines_body c.body hc hstarts le_rfl is st h.body le_rfl
  refine ⟨by omega, fun r i hr1 hr2 hi => ?_, h.last⟩
  have hlt : r - f.codeOff < is.length := by omega
  have hget := List.getElem?_eq_getElem hlt
  have hcode := codeAt_iff.mp h.code _ _ hget
  rw [Nat.add_sub_cancel' hr1] at hcode
  have hi' : m.code[r]? = some i := hi
  rw [hi'] at hcode
  have hres : i = (is[r - f.codeOff].1.resolve st.pc).render fun _ => 0 := by
    rw [resolve_render]
    exact Option.some.inj hcode
  have hconf := (hitems _ (List.getElem_mem hlt)).resolve (t := st.pc) (by omega) le_rfl
  cases hj : is[r - f.codeOff].1.resolve st.pc with
  | code j =>
    rw [hj] at hconf hres
    exact hres ▸ hconf
  | jump k =>
    rw [hj] at hconf
    cases hconf

theorem laid_of_draft {pre : List CuOp}
    (hb : Structured.body env [⟨none, 0, nr⟩] false ⟨f.codeOff, consts, 0, false⟩ c.body = some (is, st))
    (hpool : st.consts <+: m.consts) (hoff : f.codeOff = pre.length)
    (hcode : m.code = pre ++ draft (close st.pc is ++ [(Item.code ⟨.endFunc, nr, 0⟩, (nr : Int))])) :
    Laid m env f c nr consts is st := by
  have hpc : st.pc = f.codeOff + is.length := counts_body c.body is st hb
  have hat : CodeAt m (fun _ => 0) f.codeOff
      (close st.pc is ++ [(Item.code ⟨.endFunc, nr, 0⟩, (nr : Int))]) := by
    refine codeAt_iff.mpr fun k p hp => ?_
    rw [hcode, hoff, List.getElem?_append_right (Nat.le_add_right _ _), Nat.add_sub_cancel_left, draft,
      List.getElem?_map, hp, ← placeholder_eq]
    rfl
  obtain ⟨hbody, hend, -⟩ := codeAt_append.mp hat
  rw [close_length, ← hpc] at hend
  exact ⟨hb, hpool, codeAt_close.mp hbody, _, hend, rfl⟩

/-- Where `lower_operators` leaves the code of a function. -/
theorem lowered_laid {lm : LowerModule} {np n : Nat} {code code' : List CuOp}
    {consts' : List Slot} (hplain : c.body.Plain) (gs : List Nat)
    (h : lowerOperators lm c.body.function np nr n code consts = (.ok f, code', consts')) :
    (∃ is st, Laid (emittedModule code' consts' f gs) (lowerEnv lm c.body.function np nr n) f c nr consts
      is st) ∧ f.nParams = np ∧ f.nResults = nr ∧ f.nLocals = scratchLocals c.body.function n := by
  obtain ⟨is, hfun, rfl, rfl⟩ := lowered_items hplain h
  unfold function at hfun
  obtain ⟨⟨isb, st⟩, hb, heq⟩ := Option.map_eq_some_iff.mp hfun
  cases heq
  exact ⟨⟨isb, st, laid_of_draft hb List.prefix_rfl rfl rfl⟩, rfl, rfl, rfl⟩

/-- The module of a single function. -/
def singleModule (types : List FuncType) (ti : Nat) (c : Func) : Module where
  types := [types.map .func]
  funcs := [ti]
  code := [c]

theorem singleModule_types (types : List FuncType) (ti : Nat) (c : Func) :
    (singleModule types ti c).funcTypes = types := by
  simp only [Module.funcTypes, singleModule, List.flatten_cons, List.flatten_nil, List.append_nil,
    List.filterMap_map]
  exact List.filterMap_some

variable {types : List FuncType} {ti : Nat} {ft : FuncType} {code : List CuOp} {gs : List Nat}

theorem singleModule_instance (code : List CuOp) (consts : List Slot) (f : FuncMeta) (gs : List Nat) :
    (singleModule types ti c).toInstance (emittedModule code consts f gs) [] noHost = c.alone types ti := by
  unfold Module.toInstance Func.alone
  rw [singleModule_types]
  simp only [Instance.mk.injEq]
  exact ⟨trivial, rfl, rfl, rfl, rfl, Nat.zero_div _, rfl, rfl⟩

theorem singleModule_funcType (ht : types[ti]? = some ft) {fi : Nat} {ft' : FuncType}
    (h : (singleModule types ti c).funcType fi = some ft') : fi = 0 ∧ ft' = ft := by
  unfold Module.funcType at h
  rw [singleModule_types] at h
  cases fi with
  | zero => exact ⟨rfl, Option.some.inj (h.symm.trans ht)⟩
  | succ fi => cases h

theorem emitted_compiled (gs : List Nat) (hsmall : ∀ ft ∈ types, ft.1.length < 2 ^ 16 ∧ ft.2.length < 2 ^ 16)
    (ht : types[ti]? = some ft)
    (hF : FuncAt (singleModule types ti c) (emittedModule code consts f gs) ft c f env) :
    Compiled (singleModule types ti c) (emittedModule code consts f gs) [] where
  small := by
    rw [singleModule_types]
    exact hsmall
  short := fun fi ft hfi => absurd hfi (Nat.not_lt_zero fi)
  hostCount := rfl
  segments := ⟨rfl, nofun, nofun, nofun⟩
  fewSegs := Nat.zero_le _
  memMax := Nat.two_pow_pos 32
  func := fun fi ft' _ hft => by
    obtain ⟨rfl, rfl⟩ := singleModule_funcType ht hft
    exact ⟨c, f, env, rfl, rfl, hF⟩
  indirect := fun ti ft i _ => rfl
  table := nofun

end Emitted

/-! ## A frame that is larger than the stack -/

section Oversize

variable {H : Type} {c : Func} {f : FuncMeta} {env : LowerEnv} {m : HostModule} {nr : Nat}
  {consts : List Slot} {is : Items} {st : State} {ls : List Nat} {s : Wasm.Store H}
  {w : Option (Wasm.Outcome H)} {t u : Mach} {i : CuOp}

theorem push_overflows {x : Run Slot} (hsp : STACK_CAP < t.sp) :
    Run.push m.cpuViews x t = .error .trapStackOverflow t := by
  rw [push_apply, if_pos (show t.sp ≥ m.cpuViews.stack.cap from hsp.le)]

/-- Where the operands do not fit, every instruction ends the run. -/
theorem step_overflows (hi : m.code[t.pc]? = some i)
    (hx : Run.exec m.cpuViews m.dev i (fetched t) = .ok () u) (hsp : STACK_CAP < u.sp) :
    Run.step m.cpuViews m.dev t = .error .trapStackOverflow u := by
  have hi' : m.dev.code[t.pc]? = some i := hi
  rw [step_apply, hi']
  simp only [hx]
  rw [if_pos hsp]

/-- The machine cannot go on, or it ends at once as the semantics does. -/
def EndsAtOnce (w : Option (Wasm.Outcome H)) (ls : List Nat) (s : Wasm.Store H) (t : Mach) (e : Status)
    (u : Mach) : Prop :=
  e = .trapStackOverflow ∨ e = .outOfFuel ∨ u.globals = t.globals ∧
    (w = some (.trap .unreachable s) ∧ e = .trapUnreachable ∨
      (w = some (.ret [] s) ∨ w = some (.next [] ls s)) ∧ e = .ok)

theorem leave_endsAtOnce (hcsp : t.csp = 1) (hw : w = some (.ret [] s) ∨ w = some (.next [] ls s)) :
    ∃ e u, Run.leave m.cpuViews (fetched t) = .error e u ∧ EndsAtOnce w ls s t e u := by
  have hdepth : (fetched t).csp = 1 := hcsp
  rw [leave_apply, if_neg (by omega)]
  simp only
  split_ifs
  · exact ⟨_, _, rfl, .inl rfl⟩
  · exact ⟨_, _, rfl, .inr (.inr ⟨rfl, .inr ⟨hw, rfl⟩⟩)⟩

theorem br_endsAtOnce (hi : m.code[t.pc]? = some i) (hop : i.op = .br) (hsp : STACK_CAP < t.sp) :
    ∃ e u, Run.step m.cpuViews m.dev t = .error e u ∧ EndsAtOnce w ls s t e u := by
  have hexec : Run.exec m.cpuViews m.dev i (fetched t) = Run.br i.b (fetched t) := by
    simp only [Run.exec, hop]
  cases hx : Run.br i.b (fetched t) with
  | ok a u =>
    have hsame : u.sp = t.sp := by
      rw [Run.br_apply] at hx
      split_ifs at hx <;> cases hx <;> rfl
    exact ⟨_, u, step_overflows hi (hexec.trans hx) (hsame ▸ hsp), .inl rfl⟩
  | error e u =>
    have hfuel : e = .outOfFuel := by
      rw [Run.br_apply] at hx
      split_ifs at hx
      cases hx
      rfl
    exact ⟨e, u, step_of_exec_error (x := ⟨t, ()⟩) hi (hexec.trans hx), .inr (.inl hfuel)⟩

/-- A function whose frame is larger than the stack ends with its first instruction. -/
theorem Laid.endsAtOnce (h : Laid m env f c nr consts is st) (hopens : Opens w ls s (is.head?.map (·.1)))
    (hpc : t.pc = f.codeOff) (hsp : STACK_CAP < t.sp) (hcsp : t.csp = 1)
    (hglobals : s.globals.length = m.globals.length) :
    ∃ e u, Run.step m.cpuViews m.dev t = .error e u ∧ EndsAtOnce w ls s t e u := by
  have hlen : st.pc = f.codeOff + is.length := counts_body c.body is st h.body
  have hleaves : ∀ i, m.code[t.pc]? = some i → i.op = .ret ∨ i.op = .endFunc →
      (w = some (.ret [] s) ∨ w = some (.next [] ls s)) →
      ∃ e u, Run.step m.cpuViews m.dev t = .error e u ∧ EndsAtOnce w ls s t e u := by
    intro i hi hop hw
    obtain ⟨e, u, hx, hends⟩ := leave_endsAtOnce (m := m) hcsp hw
    have hexec : Run.exec m.cpuViews m.dev i (fetched t) = Run.leave m.cpuViews (fetched t) := by
      obtain hop | hop := hop <;> simp only [Run.exec, hop]
    exact ⟨e, u, step_of_exec_error (x := ⟨t, ()⟩) hi (hexec.trans hx), hends⟩
  cases is with
  | nil =>
    obtain ⟨i, hi, hop⟩ := h.last
    rw [hlen] at hi
    exact hleaves i (hpc ▸ hi) (.inr hop) (.inr hopens)
  | cons p is =>
    have hcode := codeAt_iff.mp h.code 0 p rfl
    rw [Nat.add_zero, ← hpc] at hcode
    obtain ⟨item, mark⟩ := p
    cases item with
    | jump k => exact br_endsAtOnce hcode rfl hsp
    | code i =>
      have hi : m.code[t.pc]? = some i := hcode
      obtain ⟨op, a, b⟩ := i
      cases op with
      | br => exact br_endsAtOnce hi rfl hsp
      | i64Const | localGet =>
        exact ⟨_, _, step_of_exec_error (x := ⟨t, ()⟩) hi (push_overflows hsp), .inl rfl⟩
      | globalGet =>
        have hb : b < s.globals.length := hopens
        have hlt : ¬ b ≥ m.cpuViews.nGlobals := by
          rw [cpuViews_nGlobals]
          omega
        have hx : Run.exec m.cpuViews m.dev ⟨.globalGet, a, b⟩ (fetched t) =
            .error .trapStackOverflow (fetched t) := by
          simp only [Run.exec, Run.globalGet]
          rw [if_neg hlt]
          exact push_overflows hsp
        exact ⟨_, _, step_of_exec_error (x := ⟨t, ()⟩) hi hx, .inl rfl⟩
      | unreachable =>
        exact ⟨_, _, step_of_exec_error (x := ⟨t, ()⟩) hi rfl, .inr (.inr ⟨rfl, .inl ⟨hopens, rfl⟩⟩)⟩
      | ret => exact hleaves _ hi (.inl rfl) (.inl hopens)
      | _ => exact hopens.elim

end Oversize

/-! ## The run and the semantics -/

section Runs

variable {lm : LowerModule} {c : Func} {C : Ctx} {ti n k : Nat} {ft : FuncType} {f : FuncMeta}
  {code code' : List CuOp} {consts consts' : List Slot} {args gs : List Nat} {t u : Mach} {e : Status}
  {res : Wasm.Result Unit}

/-- The module with the code that the pass has left holds the store with the globals alone. -/
theorem emitted_realizes : Realizes (emittedModule code consts f gs) () (globalStore gs) where
  globals := rfl
  memory := rfl
  live := fun _ => by
    simp only [emittedModule, globalStore, List.getD_nil]
  host := rfl
  size := rfl
  pages := dvd_zero _
  le := le_rfl
  zero := fun _ _ hlt => absurd hlt (Nat.not_lt_zero _)

/-- A body that computes has no structured instruction among its operators. -/
theorem plain_of_computes {b : Body} (h : b.computes = true) : b.Plain := by
  induction b with
  | nil => trivial
  | op o rest ih =>
    simp only [Body.computes, Bool.and_eq_true] at h
    refine ⟨?_, ih h.2⟩
    cases o with
    | block | loop | if_ | else_ | end_ => cases h.1
    | _ => rfl
  | block bt b rest ihb ih | loop bt b rest ihb ih | ifThen bt b rest ihb ih =>
    simp only [Body.computes, Bool.and_eq_true] at h
    exact ⟨ihb h.1, ih h.2⟩
  | ifElse bt b els rest ihb ihe ih =>
    simp only [Body.computes, Bool.and_eq_true] at h
    exact ⟨ihb h.1.1, ihe h.1.2, ih h.2⟩

/-- The machine that `run_instance` starts. -/
def freshMach (code : List CuOp) (consts : List Slot) (f : FuncMeta) (args gs : List Nat) (fuel : Int) :
    Flat Unit :=
  ⟨(cpuEntry (emittedModule code consts f gs) f (args.map (BitVec.ofNat 64)) fuel ()).mach
    (emittedModule code consts f gs), ()⟩

/-- The machine exits in `u` with the status `e` behind `k` steps. -/
def ExitsAfter (code : List CuOp) (consts : List Slot) (f : FuncMeta) (args gs : List Nat) (fuel : Int)
    (k : Nat) (e : Status) (u : Mach) : Prop :=
  let m := emittedModule code consts f gs
  ∃ t, Steps (Run.step m.cpuViews m.dev) k (freshMach code consts f args gs fuel).mach t ∧
    Run.step m.cpuViews m.dev t = .error e u

theorem ExitsAfter.flatLoop {fuel : Int} (h : ExitsAfter code consts f args gs fuel k e u)
    (hp : e ≠ .hostcallPending) :
    flatLoop (emittedModule code consts f gs) f noHost (k + 1) (freshMach code consts f args gs fuel) =
      some (finalResult (emittedModule code consts f gs) f 0 (Flat.left ⟨u, ()⟩ e)) := by
  obtain ⟨t, hsteps, hstep⟩ := h
  exact (flatLoop_steps hsteps).trans (flatLoop_returns (flatStep_final (x := ⟨t, ()⟩) f noHost hstep hp))

theorem exits_of_flatLoop {fuel : Int} {r : Outgoing Unit}
    (h : flatLoop (emittedModule code consts f gs) f noHost k (freshMach code consts f args gs fuel) = some r) :
    ∃ j e u, ExitsAfter code consts f args gs fuel j e u := by
  obtain ⟨-, hsteps⟩ | ⟨j, t, -, hsteps, hstep⟩ := loop_ends (v := (emittedModule code consts f gs).cpuViews)
    (m := (emittedModule code consts f gs).dev) (n := k) (s := (freshMach code consts f args gs fuel).mach) rfl
  · rw [← Nat.add_zero k, flatLoop_steps hsteps] at h
    cases h
  · exact ⟨j, _, _, t, hsteps, hstep⟩

/-- Of the limits only two are met. -/
theorem limited (he : e ≠ .trapCallDepth)
    (h : Exhausted (finalResult (emittedModule code consts f gs) f 0 (Flat.left ⟨u, ()⟩ e))) :
    e = .trapStackOverflow ∨ e = .outOfFuel := by
  cases e with
  | trapStackOverflow => exact .inl rfl
  | outOfFuel => exact .inr rfl
  | trapCallDepth => exact absurd rfl he
  | _ => cases h

/-- What `run_instance` has left when it exits in `u` with the status `e`. -/
def leaves (e : Status) (u : Mach) : VmState × HostMailbox × Arrays := (u.save e, u.mb, u.arrays)

theorem freshRun_eq {fuel : Int} {quota : Nat} (h : Run.loop (emittedModule code consts f gs).cpuViews
    (emittedModule code consts f gs).dev quota (freshMach code consts f args gs fuel).mach = (e, u)) :
    freshRun code consts f args gs fuel quota = leaves e u := by
  unfold freshRun runInstance
  have h' : Run.loop (emittedModule code consts f gs).cpuViews (emittedModule code consts f gs).dev quota
    (Mach.load (entryState (emittedModule code consts f gs) f fuel) (emittedModule code consts f gs).memSize
      {} ((emittedModule code consts f gs).entryArrays f (args.map (BitVec.ofNat 64)))) = (e, u) := h
  simp only [h']
  rfl

/-- Whatever the semantics says of the function is what the machine delivers, once it has exited. -/
theorem delivers_of_means {ft : FuncType} {nr : Nat} (hnr : f.nResults = nr) (htyped : res.Typed C ft)
    (h : Means res (finalResult (emittedModule code consts f gs) f 0 (Flat.left ⟨u, ()⟩ e))) :
    Delivers nr gs.length res (leaves e u) := by
  have hglobals : ∀ s : Wasm.Store Unit, Realizes
      (finalResult (emittedModule code consts f gs) f 0 (Flat.left ⟨u, ()⟩ e)).2.1
      (finalResult (emittedModule code consts f gs) f 0 (Flat.left ⟨u, ()⟩ e)).2.2 s →
      (List.range gs.length).map u.globals = s.globals.map (BitVec.ofNat 64) := by
    intro s hs
    have := hs.globals
    rw [← this]
    show _ = (List.range ((emittedModule code consts f gs).globals).length).map u.globals
    rw [show (emittedModule code consts f gs).globals.length = gs.length from List.length_map _]
  cases res with
  | values ys s =>
    obtain ⟨hst, hres, hs⟩ := h
    have he : e = .ok := hst
    subst he
    have hres' : (List.range f.nResults).map u.stack = ys.map (BitVec.ofNat 64) := hres
    exact ⟨rfl, hnr ▸ hres', hglobals s hs⟩
  | trap t s =>
    obtain ⟨hst, hs⟩ := h
    exact ⟨hst, hglobals s hs⟩
  | refused | wrong => exact htyped.elim

variable (hc : c.Computes C ti ft) (htypes : lm.funcTypes = C.types)
  (hsmall : ∀ ft ∈ C.types, ft.1.length < 2 ^ 16 ∧ ft.2.length < 2 ^ 16)
  (hlow : lowerOperators lm c.body.function ft.1.length ft.2.length (c.locals.map (·.1)).sum code consts =
    (.ok f, code', consts'))
  (hargs : Values args ft.1) (hgs : Values gs (C.globals.map (·.1))) (fuel : Int)

include hc htypes hlow in
/-- The function as the only one of a module. -/
theorem Wasm.Func.Computes.funcAt (hfit : f.nParams + f.nLocals ≤ STACK_CAP) (gs : List Nat) :
    FuncAt (singleModule C.types ti c) (emittedModule code' consts' f gs) ft c f
      (bare (lowerEnv lm c.body.function ft.1.length ft.2.length (c.locals.map (·.1)).sum) ti) := by
  obtain ⟨⟨is, st, hlaid⟩, hnp, hnr, hnl⟩ := lowered_laid (plain_of_computes hc.computes) gs hlow
  have hcap : STACK_CAP = 4096 := rfl
  refine ⟨?_, rfl, rfl, rfl, hnp, hnr, ?_, by omega, ?_, fun k hk => ?_, ?_⟩
  · rw [singleModule_types]
    exact htypes
  · rw [hnp, hnl]
    rfl
  · rw [hnl]
    rw [hnl, hnp] at hfit
    unfold scratchLocals at hfit ⊢
    split_ifs at hfit ⊢ <;> omega
  · rw [hnp, hnl]
    refine scratchIndex_fits ?_ hk
    rw [hnl, hnp] at hfit
    unfold scratchLocals at hfit
    split_ifs at hfit ⊢ <;> omega
  · exact ⟨consts, is, st, (body_bare ti c.body hc.computes).trans hlaid.body, hlaid.pool, hlaid.code,
      hlaid.last⟩

include hc htypes hlow hargs in
/-- A frame that fits starts the function. -/
theorem Wasm.Func.Computes.starts (gs : List Nat) (fuel : Int) (hfit : f.nParams + f.nLocals ≤ STACK_CAP) :
    ∃ A, Starts (singleModule C.types ti c) (emittedModule code' consts' f gs) 0 ft c f
      (bare (lowerEnv lm c.body.function ft.1.length ft.2.length (c.locals.map (·.1)).sum) ti) A args
      (globalStore gs) (freshMach code' consts' f args gs fuel) := by
  have hF := hc.funcAt htypes hlow hfit gs
  have htype : (singleModule C.types ti c).funcType 0 = some ft := by
    unfold Module.funcType
    rw [singleModule_types]
    exact hc.type
  have hlen := (List.Forall₂.length_eq hargs).trans hF.params.symm
  exact ⟨_, Nat.zero_le 0, htype, rfl, hF, entry_atEntry hF hlen hfit emitted_realizes fuel, rfl, rfl⟩

theorem fresh_globals (fuel : Int) :
    (List.range gs.length).map (freshMach code consts f args gs fuel).mach.globals = gs.map (BitVec.ofNat 64) := by
  refine List.ext_getElem (by simp) fun j h1 h2 => ?_
  rw [List.length_map] at h2
  simp only [List.getElem_map, List.getElem_range]
  show (gs.map (BitVec.ofNat 64)).getD j 0 = _
  rw [List.getD_eq_getElem?_getD, List.getElem?_map, List.getElem?_eq_getElem h2]
  rfl

include hc htypes hlow hargs hgs in
/-- A frame that does not fit ends the run with its first instruction. -/
theorem Wasm.Func.Computes.oversize (hfit : STACK_CAP < f.nParams + f.nLocals) (n : Nat) :
    ∃ e u, ExitsAfter code' consts' f args gs fuel 0 e u ∧
      (e = .trapStackOverflow ∨ e = .outOfFuel ∨ ∃ res, c.result C.types ti (n + 1) args gs = some res ∧
        Delivers ft.2.length gs.length res (leaves e u)) := by
  obtain ⟨⟨is, st, hlaid⟩, -⟩ := lowered_laid (plain_of_computes hc.computes) gs hlow
  have heq := Func.result_succ hc.type (List.Forall₂.length_eq hargs) c n gs
  have htyped : ∀ res, c.result C.types ti (n + 1) args gs = some res → res.Typed C ft :=
    fun res => hc.result_typed hargs hgs
  set w := (c.alone C.types ti).body ((c.alone C.types ti).eval n) c.body [] (Instance.locals c args)
    (globalStore gs) with hw
  have hopens : OpensBody w (Instance.locals c args) (globalStore gs) is st :=
    body_opens htypes.symm c.body hc.computes hlaid.body rfl rfl
  rcases hopens with hwrong | ⟨hopens, -⟩
  · rw [hwrong] at heq
    exact (htyped _ heq).elim
  have hglobals : (globalStore gs).globals.length = (emittedModule code' consts' f gs).globals.length :=
    (List.length_map _).symm
  obtain ⟨e, u, hstep, hends⟩ := hlaid.endsAtOnce (t := (freshMach code' consts' f args gs fuel).mach)
    hopens rfl hfit rfl hglobals
  refine ⟨e, u, ⟨_, .zero _, hstep⟩, ?_⟩
  rcases hends with rfl | rfl | ⟨hg, hends⟩
  · exact .inl rfl
  · exact .inr (.inl rfl)
  have hg' : (List.range gs.length).map u.globals = gs.map (BitVec.ofNat 64) := hg ▸ fresh_globals fuel
  rcases hends with ⟨htrap, rfl⟩ | ⟨hok, rfl⟩
  · rw [htrap] at heq
    exact .inr (.inr ⟨_, heq, rfl, hg'⟩)
  · -- with nothing on the stack the function has no results
    have h0 : ft.2.length = 0 := by
      by_contra h0
      have hwrong : c.result C.types ti (n + 1) args gs = some .wrong := by
        rcases hok with hret | hnext
        · rw [heq, hret]
          exact congrArg some (if_neg fun hle => h0 (Nat.le_zero.mp hle))
        · rw [heq, hnext]
          exact congrArg some (if_neg (Ne.symm h0))
      exact htyped _ hwrong
    have hvalues : c.result C.types ti (n + 1) args gs = some (.values [] (globalStore gs)) := by
      rcases hok with hret | hnext
      · rw [heq, hret]
        refine congrArg some ((if_pos h0.le).trans ?_)
        rw [List.take_nil]
        rfl
      · rw [heq, hnext]
        exact congrArg some (if_pos h0.symm)
    refine .inr (.inr ⟨_, hvalues, rfl, ?_, hg'⟩)
    rw [h0]
    rfl

include hc hlow in
/-- The machine neither asks a host nor runs out of frames. -/
theorem Wasm.Func.Computes.final (hexit : ExitsAfter code' consts' f args gs fuel k e u) :
    e ≠ .hostcallPending ∧ e ≠ .trapCallDepth := by
  obtain ⟨⟨is, st, hlaid⟩, -⟩ := lowered_laid (plain_of_computes hc.computes) gs hlow
  obtain ⟨t, hsteps, hstep⟩ := hexit
  have hin := hlaid.enclosed hc.computes
  exact hin.not_pending (hin.steps_at ⟨le_rfl, hin.le, rfl⟩ hsteps) hstep

include hc htypes hsmall hlow hargs hgs in
/-- Where the run exits without meeting a limit, the semantics has a result, and the run delivers it. -/
theorem Wasm.Func.Computes.exits (hexit : ExitsAfter code' consts' f args gs fuel k e u) :
    e = .trapStackOverflow ∨ e = .outOfFuel ∨ ∃ n res, c.result C.types ti n args gs = some res ∧
      Delivers ft.2.length gs.length res (leaves e u) := by
  by_cases hfit : f.nParams + f.nLocals ≤ STACK_CAP
  · obtain ⟨A, hstart⟩ := hc.starts htypes hlow hargs gs fuel hfit
    have hfinal := hc.final hlow fuel hexit
    have hM := emitted_compiled gs hsmall hc.type hstart.lowered
    rcases hstart.means_of_flat hM (fun _ _ _ _ _ _ => rfl) (hexit.flatLoop hfinal.1) with
      hlimit | ⟨n, res, hres, hmeans⟩
    · exact (limited hfinal.2 hlimit).imp_right .inl
    · rw [singleModule_instance] at hres
      have htyped := hc.result_typed hargs hgs hres
      refine .inr (.inr ⟨n, res, hres, ?_⟩)
      rcases hmeans with rfl | hmeans
      · exact htyped.elim
      · exact delivers_of_means hstart.lowered.results htyped hmeans
  · obtain ⟨e', u', ⟨t', h0, hstep'⟩, hends⟩ :=
      hc.oversize htypes hlow hargs hgs fuel (Nat.lt_of_not_le hfit) 0
    cases h0
    obtain ⟨t, hsteps, hstep⟩ := hexit
    cases hsteps with
    | zero =>
      cases hstep'.symm.trans hstep
      exact hends.imp_right (Or.imp_right fun ⟨res, h⟩ => ⟨1, res, h⟩)
    | succ h1 _ => cases hstep'.symm.trans h1

include hc htypes hsmall hlow hargs hgs in
/-- Where the semantics has a result, the run exits, and it delivers the result or meets a limit. -/
theorem Wasm.Func.Computes.finishes (hres : c.result C.types ti n args gs = some res) :
    ∃ k e u, ExitsAfter code' consts' f args gs fuel k e u ∧
      (e = .trapStackOverflow ∨ e = .outOfFuel ∨ Delivers ft.2.length gs.length res (leaves e u)) := by
  have htyped := hc.result_typed hargs hgs hres
  by_cases hfit : f.nParams + f.nLocals ≤ STACK_CAP
  · obtain ⟨A, hstart⟩ := hc.starts htypes hlow hargs gs fuel hfit
    have hM := emitted_compiled gs hsmall hc.type hstart.lowered
    have hwrong : res ≠ .wrong := by
      rintro rfl
      exact htyped
    have hcall := hres
    unfold Func.result at hcall
    rw [← singleModule_instance code' consts' f gs] at hcall
    obtain ⟨j, r, hr, hends⟩ := hstart.flat_means hM (fun _ _ _ _ _ _ => rfl) hcall hwrong
    obtain ⟨k, e, u, hexit⟩ := exits_of_flatLoop hr
    have hfinal := hc.final hlow fuel hexit
    cases flatLoop_unique hr (hexit.flatLoop hfinal.1)
    refine ⟨k, e, u, hexit, ?_⟩
    rcases hends with hlimit | hmeans
    · exact (limited hfinal.2 hlimit).imp_right .inl
    · exact .inr (.inr (delivers_of_means hstart.lowered.results htyped hmeans))
  · cases n with
    | zero => cases hres
    | succ n =>
      obtain ⟨e, u, hexit, hends⟩ := hc.oversize htypes hlow hargs hgs fuel (Nat.lt_of_not_le hfit) n
      refine ⟨0, e, u, hexit, hends.imp_right (Or.imp_right fun ⟨res', hres', hd⟩ => ?_)⟩
      cases hres.symm.trans hres'
      exact hd

end Runs

/-- The lowering preserves the meaning of a function that only computes. The run of the emitted code from
a fresh frame meets a limit of the machine, or it ends exactly as the semantics says; and it ends where the
semantics has a result, which is one of the type of the function. -/
theorem lowering_preserves_meaning {lm : LowerModule} {c : Func} {C : Ctx} {ti : Nat} {ft : FuncType}
    {f : FuncMeta} {code code' : List CuOp} {consts consts' : List Slot} {args gs : List Nat}
    (hc : c.Computes C ti ft) (htypes : lm.funcTypes = C.types)
    (hsmall : ∀ ft ∈ C.types, ft.1.length < 2 ^ 16 ∧ ft.2.length < 2 ^ 16)
    (hlow : lowerOperators lm c.body.function ft.1.length ft.2.length (c.locals.map (·.1)).sum code consts =
      (.ok f, code', consts'))
    (hargs : Values args ft.1) (hgs : Values gs (C.globals.map (·.1))) (fuel : Int) :
    (∀ quota,
      let out := freshRun code' consts' f args gs fuel quota
      out.1.status = .running ∨ Limited out ∨ ∃ n res, c.result C.types ti n args gs = some res ∧
        Delivers ft.2.length gs.length res out) ∧
    ∀ n res, c.result C.types ti n args gs = some res →
      res.Typed C ft ∧ ∃ q, ∀ quota ≥ q,
        let out := freshRun code' consts' f args gs fuel quota
        Limited out ∨ Delivers ft.2.length gs.length res out := by
  refine ⟨fun quota => ?_, fun n res hres => ⟨hc.result_typed hargs hgs hres, ?_⟩⟩
  · cases hrun : Run.loop (emittedModule code' consts' f gs).cpuViews (emittedModule code' consts' f gs).dev
      quota (freshMach code' consts' f args gs fuel).mach with
    | mk e u =>
      simp only [freshRun_eq hrun]
      rcases loop_ends hrun with ⟨he, -⟩ | ⟨k, t, -, hsteps, hstep⟩
      · exact .inl he
      · right
        rcases hc.exits htypes hsmall hlow hargs hgs fuel ⟨t, hsteps, hstep⟩ with h | h | h
        · exact .inl (.inl h)
        · exact .inl (.inr h)
        · exact .inr h
  · obtain ⟨k, e, u, ⟨t, hsteps, hstep⟩, hends⟩ := hc.finishes htypes hsmall hlow hargs hgs fuel hres
    refine ⟨k + 1, fun quota hq => ?_⟩
    simp only [freshRun_eq (loop_of_error hq hsteps hstep)]
    rcases hends with h | h | h
    · exact .inl (.inl h)
    · exact .inl (.inr h)
    · exact .inr h

/-- The sum of 1 and the argument, or of 1 and 5 where the argument is zero: the branch carries the
argument over the operand 9. -/
def orFive : Func where
  locals := []
  body :=
    .op (.const (.i32 1))
      (.block (.type .i32)
        (.op (.const (.i32 9)) (.op (.localGet 0) (.op (.localGet 0) (.op (.brIf 0)
          (.op .drop (.op .drop (.op (.const (.i32 5)) .nil)))))))
        (.op (.num .i32Add) .nil))

/-- The context of the function. -/
def orFiveCtx : Ctx where
  types := [([.i32], [.i32])]
  funcs := []
  globals := []
  locals := [.i32]
  memories := 0
  tables := 0
  datas := 0
  results := [.i32]

/-- The lowered function. -/
def orFiveMeta : FuncMeta where
  codeOff := 0
  codeLen := 12
  nParams := 1
  nResults := 1
  nLocals := 0

/-- Its code. -/
def orFiveCode : List CuOp :=
  [⟨.i64Const, 0, 0⟩, ⟨.i64Const, 0, 1⟩, ⟨.localGet, 0, 0⟩, ⟨.localGet, 0, 0⟩, ⟨.brIfNot, 0, 7⟩,
    ⟨.unwind, 1, 3⟩, ⟨.br, 0, 10⟩, ⟨.drop, 0, 0⟩, ⟨.drop, 0, 0⟩, ⟨.i64Const, 0, 2⟩, ⟨.bin .i32Add, 0, 0⟩,
    ⟨.endFunc, 1, 0⟩]

theorem orFive_computes : orFive.Computes orFiveCtx 0 ([.i32], [.i32]) := by
  have hfive : Typed orFiveCtx [[.i32], [.i32]] true ([.i32] ++ [])
      (.op .drop (.op (.const (.i32 5)) .nil)) [.i32] := .op (.drop .i32) (.op (.const (.i32 5)) .nil)
  have hdrop : Typed orFiveCtx [[.i32], [.i32]] true ([.i32] ++ [.i32])
      (.op .drop (.op .drop (.op (.const (.i32 5)) .nil))) [.i32] := .op (.drop .i32) hfive
  have hbranch : Typed orFiveCtx [[.i32], [.i32]] true (.i32 :: ([.i32] ++ [.i32]))
      (.op (.brIf 0) (.op .drop (.op .drop (.op (.const (.i32 5)) .nil)))) [.i32] := .brIf rfl hdrop
  have hlocal : OpTyped orFiveCtx (.localGet 0) [] [.i32] := .localGet rfl
  have htop : Typed orFiveCtx [[.i32], [.i32]] true ([] ++ [.i32, .i32])
      (.op (.localGet 0) (.op (.brIf 0) (.op .drop (.op .drop (.op (.const (.i32 5)) .nil))))) [.i32] :=
    .op hlocal hbranch
  have hget : Typed orFiveCtx [[.i32], [.i32]] true ([] ++ [.i32])
      (.op (.localGet 0) (.op (.localGet 0) (.op (.brIf 0)
        (.op .drop (.op .drop (.op (.const (.i32 5)) .nil)))))) [.i32] := .op hlocal htop
  have hblock : Typed orFiveCtx [[.i32], [.i32]] true ([] ++ [])
      (.op (.const (.i32 9)) (.op (.localGet 0) (.op (.localGet 0) (.op (.brIf 0)
        (.op .drop (.op .drop (.op (.const (.i32 5)) .nil))))))) [.i32] :=
    .op (.const (.i32 9)) hget
  have hadd : Typed orFiveCtx [[.i32]] true (NumOp.i32Add.pops ++ []) (.op (.num .i32Add) .nil)
      (NumOp.i32Add.pushes ++ []) := .op (.num _) .nil
  have hblockType : (BlockType.type .i32).expand orFiveCtx.types = some ([], [.i32]) := rfl
  exact ⟨rfl, rfl, rfl, .op (.const (.i32 1)) (.block hblockType hblock hadd), rfl⟩

/-- Called with 7, the function returns 8, unless the run meets a limit. -/
theorem orFive_delivers :
    ∃ q, ∀ quota ≥ q, Limited (freshRun orFiveCode [1, 9, 5] orFiveMeta [7] [] 10 quota) ∨
      Delivers 1 0 (.values [8] (globalStore [])) (freshRun orFiveCode [1, 9, 5] orFiveMeta [7] [] 10 quota) := by
  have hlow : lowerOperators ⟨[([.i32], [.i32])], [], 0, []⟩ orFive.body.function 1 1 0 [] [] =
      (.ok orFiveMeta, orFiveCode, [1, 9, 5]) := by decide +kernel
  have hargs : Values [7] [.i32] := .cons (by decide) .nil
  have hgs : Values [] (orFiveCtx.globals.map (·.1)) := .nil
  have hres : orFive.result orFiveCtx.types 0 1 [7] [] = some (.values [8] (globalStore [])) := rfl
  exact ((lowering_preserves_meaning orFive_computes rfl (by decide) hlow hargs hgs 10).2 1 _ hres).2

end CuWasm
