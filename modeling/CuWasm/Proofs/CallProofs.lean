import CuWasm.Proofs.IndirectProofs

/-!
# Calls restore the caller

A call of a valid module without imports enters its callee with the arguments as the first locals and
zeros behind them. However the callee runs, when the frame stack is back at the caller's depth the
caller finds its frame, its slots and the results of the callee.
-/

namespace CuWasm

open Exit Wasm Translate

/-- A call that does not trap has entered its callee. -/
theorem CallsAt.enters {v : Views} {m : HostModule} {s t : Mach} {g : FuncMeta} {top : Nat}
    (h : CallsAt v m s g top) (ht : Run.step v m.dev s = .ok () t) : Enters v g s top t := by
  obtain ⟨i, hi, hcall⟩ := h
  have hi' : m.dev.code[s.pc]? = some i := hi
  rw [Run.step_apply, hi'] at ht
  simp only at ht
  have henter : ∃ t0 : Mach, t0.pc = s.pc + 1 ∧ t0.fp = s.fp ∧ t0.csp = s.csp ∧
      t0.frames = s.frames ∧ t0.stack = s.stack ∧ t0.sp = top ∧
      Run.exec v m.dev i (Run.fetched s) = Run.enter v g t0 := by
    rcases hcall with ⟨hop, hg, rfl⟩ | ⟨hop, htop, hg⟩
    · have hg' : m.dev.funcs[i.b]? = some g := hg
      refine ⟨Run.fetched s, rfl, rfl, rfl, rfl, rfl, rfl, ?_⟩
      simp only [Run.exec, hop, hg']
    · have heq : s.sp - 1 = top := by omega
      rw [← heq] at hg
      refine ⟨{ Run.fetched s with
        sp := s.sp - 1, log := ⟨.stack, v.stack.idx (s.sp - 1), 1⟩ :: (Run.fetched s).log },
        rfl, rfl, rfl, rfl, rfl, heq, exec_callIndirect hop (by omega) hg⟩
  obtain ⟨t0, hpc, hfp, hcsp, hfr, hst, rfl, hexec⟩ := henter
  rw [hexec] at ht
  cases hw : Run.enter v g t0 with
  | error e w =>
    rw [hw] at ht
    cases ht
  | ok _ w =>
    rw [hw] at ht
    simp only at ht
    split_ifs at ht
    cases ht
    exact enter_enters hw hpc hfp hcsp hfr hst

section Verified

variable {M : Module} {m0 m : HostModule} {v : Views} {f : FuncMeta} {gs : List FuncMeta}
  {s t u w : Mach}

/-- While a callee runs, every state satisfies `StepOk`. -/
theorem Verified.above_stepOk (h : Verified M m0 m) (himp : M.imports = []) {k : Nat}
    (ht : ∃ f gs, FrameInv v m f gs t)
    (hrun : Relation.ReflTransGen (fun x y => Go v m Declared x y ∧ k < y.csp) t u) :
    (∃ f gs, FrameInv v m f gs u) ∧
      Relation.ReflTransGen (fun x y => GoWhen v m (StepOk v m) x y ∧ k < y.csp) t u := by
  induction hrun with
  | refl => exact ⟨ht, .refl⟩
  | @tail x y _ hxy ih =>
    obtain ⟨⟨f, gs, hx⟩, hrun⟩ := ih
    have hok := h.stepOk himp hx
    exact ⟨(go_frame h.accepted hx hok hxy.1).1, hrun.tail ⟨⟨hok, hxy.1⟩, hxy.2⟩⟩

/-- Only an instruction changes the depth of the frame stack. -/
theorem FrameInv.go_step (hm : Accepted m) (hinv : FrameInv v m f gs u) (hok : StepOk v m u)
    (hg : Go v m Declared u w) (hcsp : w.csp ≠ u.csp) : Run.step v m.dev u = .ok () w := by
  cases hg with
  | step h => exact h
  | reenter h => exact absurd h.csp hcsp
  | @host t _ _ h hn h' =>
    subst hn
    have hstep := step_frame hm hinv hok
    rw [h] at hstep
    have hcsp' := (hstep.2 rfl).2.csp
    have hcsp0 := hinv.csp
    exact absurd (by rw [h'.csp]; omega) hcsp

/-- A call that comes back restores the caller. -/
theorem Verified.call_restores (h : Verified M m0 m) (himp : M.imports = [])
    (hinv : FrameInv v m f gs s) {g : FuncMeta} {top : Nat} (henters : Enters v g s top t)
    (hst : Run.step v m.dev s = .ok () t)
    (hrun : Relation.ReflTransGen (fun x y => Go v m Declared x y ∧ s.csp < y.csp) t u)
    (huw : Go v m Declared u w) (hw : w.csp ≤ s.csp) : Restores v m g s t.fp u w := by
  have hm := h.accepted
  have hpos : 0 < s.csp := by rw [hinv.csp]; omega
  have hcsp := henters.csp
  obtain ⟨g', np, ht, -, -, hts, -⟩ := call_enters hm hinv (h.stepOk himp hinv) hst (by omega)
  obtain ⟨⟨fu, gsu, hu⟩, hrun'⟩ := h.above_stepOk himp ⟨_, _, ht⟩ hrun
  obtain ⟨-, hku, hfru, hsu⟩ := above_keeps hm hpos (by omega) ⟨_, _, ht⟩ hrun'
  have hoku := h.stepOk himp hu
  have hstep := hu.go_step hm hoku huw (by omega)
  have hl := return_leaves hm hu hoku hstep (by omega)
  -- the callee and all tail callees run on the frame that the call has pushed
  have hone := hl.csp
  have hclose := hl.pos
  have hbelow : w.csp = s.csp := by omega
  have htop : u.frames (v.frames.idx (u.csp - 1)) = ⟨s.pc + 1, s.fp, t.fp, g.nResults⟩ := by
    rw [show u.csp - 1 = s.csp by omega, hfru _ le_rfl, henters.frame]
  have hbase := hl.base
  have hres := hl.nResults
  have hsp := hl.sp
  have hen := hl.enough
  rw [htop] at hbase hres
  rw [henters.frame] at hsu
  simp only at hbase hres hsu
  refine ⟨hl.instr, by rw [hl.pc, htop], by rw [hl.fp, htop], hbelow, by omega, by omega,
    fun j hj => ?_, fun j hj => ?_, fun k hk => ?_⟩
  · rw [hbase, hres]
    exact hl.results j (by omega)
  · rw [hl.kept.stack j (by omega), hsu j hj, hts j hj]
  · rw [hl.kept.frames (by omega) k (by omega), hfru k (by omega), henters.frames k (by omega)]

end Verified

/-- A call that a run of a valid module without imports executes enters its callee with the arguments
as the first locals and zeros behind them, and whenever the run is back at the depth of the caller for
the first time, the caller has its frame, its slots and the callee's results. -/
theorem calls_restore {M : Module} {ps : List (Parsed Payload)} {m0 m : HostModule} (hv : M.Valid)
    (himp : M.imports = []) (he : Encodes M ps) (hm : loadWasm ps = .ok m0)
    (hver : verifyCuop m0 = .ok m) {v : Views} {e : FuncMeta} (hmem : e ∈ m.funcs) {s0 s t : Mach}
    (h0 : Entry v e s0) (hr : Runs v m (fun _ => True) s0 s) {g : FuncMeta} {top : Nat}
    (hcall : CallsAt v m s g top) (ht : Run.step v m.dev s = .ok () t) :
    Enters v g s top t ∧ ∀ u w,
      Relation.ReflTransGen (fun x y => Go v m Declared x y ∧ s.csp < y.csp) t u → Go v m Declared u w →
      w.csp ≤ s.csp → Restores v m g s t.fp u w := by
  have h : Verified M m0 m := ⟨loadWasm_translated he hm, hv, hver⟩
  obtain ⟨f, gs, hinv⟩ := h.frameInv himp hmem h0 hr
  have henters := hcall.enters ht
  exact ⟨henters, fun u w hrun huw hw => h.call_restores himp hinv henters ht hrun huw hw⟩

/-- One instruction that succeeds. -/
def stepped (m : HostModule) (s : Mach) : Option Mach :=
  match Run.step m.cpuViews m.dev s with
  | .ok _ t => some t
  | .error _ _ => none

theorem stepped_some {m : HostModule} {s t : Mach} (h : stepped m s = some t) :
    Run.step m.cpuViews m.dev s = .ok () t := by
  unfold stepped at h
  split at h
  · cases h
    assumption
  · cases h

/-- The five instructions of `callModule` from the entry of its caller to the return of its callee. -/
def callSteps : Option (Option (Bool × Nat × List Nat)) :=
  (loadWasm callModule.payloads).toOption.bind fun m0 =>
    (verifyCuop m0).toOption.map fun m =>
      (stepped m (entryMach m callerMeta [5] 10)).bind fun r => (stepped m r).bind fun s =>
      (stepped m s).bind fun t => (stepped m t).bind fun u => (stepped m u).map fun w =>
        (m.funcs == [calleeMeta, callerMeta] && m.code[s.pc]? == some ⟨.callIndirect, 0, 0⟩ &&
            Run.indirectTarget m.dev 0 (u32 (s.stack (m.cpuViews.stack.idx 2))).toNat ==
              some calleeMeta && w.stack (m.cpuViews.stack.idx 1) == 5,
          s.sp, [s.csp, u.csp, w.csp])

/-- The callee of `callModule` gives the argument 5 back on top of the local of its caller. -/
theorem callModule_restored : ∃ m0 m s t u w, loadWasm callModule.payloads = .ok m0 ∧
    verifyCuop m0 = .ok m ∧ Run.step m.cpuViews m.dev s = .ok () t ∧
    Enters m.cpuViews calleeMeta s 2 t ∧ Restores m.cpuViews m calleeMeta s t.fp u w ∧
    w.stack (m.cpuViews.stack.idx 1) = 5 := by
  have hload : callSteps = some (some (true, 3, [1, 2, 1])) := by decide +kernel
  obtain ⟨m0, m, hm, hver, heval⟩ := loaded_eval hload
  simp only [Option.bind_eq_some_iff, Option.map_eq_some_iff, Prod.mk.injEq, Bool.and_eq_true,
    beq_iff_eq] at heval
  obtain ⟨r, hr, s, hs, t, ht, u, hu, w, hw, ⟨⟨⟨hfuncs, hi⟩, hg⟩, htop⟩, hsp, hdepths⟩ := heval
  simp only [List.cons.injEq, and_true] at hdepths
  obtain ⟨hcs, hcu, hcw⟩ := hdepths
  have hmem : callerMeta ∈ m.funcs := by
    rw [hfuncs]
    exact List.mem_cons_of_mem _ (List.mem_singleton_self _)
  have hrun : Runs m.cpuViews m (fun _ => True) (entryMach m callerMeta [5] 10) s :=
    (Relation.ReflTransGen.refl.tail ⟨trivial, .step (stepped_some hr)⟩).tail
      ⟨trivial, .step (stepped_some hs)⟩
  obtain ⟨henters, hrest⟩ := calls_restore callModule_valid rfl rfl hm hver hmem
    (entryMach_entry m callerMeta [5] 10) hrun
    ⟨_, hi, .inr ⟨rfl, by rw [hsp], hg⟩⟩ (stepped_some ht)
  refine ⟨m0, m, s, t, u, w, hm, hver, stepped_some ht, henters, ?_, htop⟩
  exact hrest u w (.single ⟨.step (stepped_some hu), by omega⟩) (.step (stepped_some hw)) (by omega)

end CuWasm
