import CuWasm.HostEffect
import CuWasm.Proofs.ControlProofs
import CuWasm.Proofs.TranslateProofs

/-!
# Host calls and the drivers

A driver pushes as many results as the host left in the mailbox, not as many as the import declares:
when the two numbers differ, the run goes on with a stack that `verify_cuop` did not expect.
-/

namespace CuWasm

/-! ## Push loops -/

/-- The stack with `n` results from `i` on in the slots behind `sp`. -/
def withResults (results : Nat → Slot) (i n sp : Nat) (stack : Nat → Slot) : Nat → Slot :=
  fun j => if sp ≤ j ∧ j < sp + n then results (i + (j - sp)) else stack j

theorem withResults_zero (results : Nat → Slot) (i sp : Nat) (stack : Nat → Slot) :
    withResults results i 0 sp stack = stack := by
  funext j
  unfold withResults
  rw [if_neg (by omega)]

theorem withResults_succ (results : Nat → Slot) (i n sp : Nat) (stack : Nat → Slot) :
    withResults results (i + 1) n (sp + 1) (Function.update stack sp (results i)) =
      withResults results i (n + 1) sp stack := by
  funext j
  unfold withResults
  by_cases hj : j = sp
  · rw [hj, if_neg (by omega), if_pos (by omega), Function.update_self, Nat.sub_self, Nat.add_zero]
  · by_cases hin : sp + 1 ≤ j ∧ j < sp + 1 + n
    · rw [if_pos hin, if_pos (by omega), show i + 1 + (j - (sp + 1)) = i + (j - sp) by omega]
    · rw [if_neg hin, if_neg (by omega), Function.update_of_ne hj]

theorem pushResults_eq (mb : HostMailbox) (i n : Nat) (stack : Nat → Slot) (sp : Nat) :
    pushResults mb i n stack sp =
      if n = 0 ∨ sp + n ≤ STACK_CAP then some (sp + n, withResults mb.results i n sp stack)
      else none := by
  induction n generalizing i sp stack with
  | zero => rw [if_pos (.inl rfl), withResults_zero, pushResults, Nat.add_zero]
  | succ n ih =>
    rw [pushResults]
    by_cases hfull : sp ≥ STACK_CAP
    · rw [if_pos hfull, if_neg (by omega)]
    · rw [if_neg hfull, ih, withResults_succ, show sp + 1 + n = sp + (n + 1) by omega]
      by_cases hn : n = 0
      · rw [if_pos (.inl hn), if_pos (by omega)]
      · by_cases hle : sp + (n + 1) ≤ STACK_CAP
        · rw [if_pos (.inr hle), if_pos (.inr hle)]
        · rw [if_neg (by omega), if_neg (by omega)]

theorem pushWhile_one (v : Views) (results : Nat → Slot) (stack : Nat → Slot) (sp : Nat) :
    pushWhile v results 0 1 stack sp =
      if sp < BENCH_STACK_CAP then (sp + 1, Function.update stack (v.stack.idx sp) (results 0))
      else (sp, stack) := by
  unfold pushWhile
  split_ifs <;> rfl

/-! ## The suspended machine -/

section Call

variable {v : Views} {m : HostModule} {s t : Mach} {i : CuOp}

/-- What `OP_CALL_HOST` leaves behind. -/
theorem callHost_pending (hi : m.code[s.pc]? = some i) (hop : i.op = .callHost)
    (hstep : Run.step v m.dev s = .error .hostcallPending t) :
    t.sp = s.sp - i.declared.1 ∧ t.stack = s.stack ∧ t.mb.fnId = i.b ∧
      t.mb.nArgs = i.declared.1 := by
  have hi' : m.dev.code[s.pc]? = some i := hi
  rw [Run.step_apply, hi'] at hstep
  simp only [Run.exec, hop, Run.callHost_apply] at hstep
  split_ifs at hstep
  · cases hstep
  · cases hstep
  · have ht : t = Run.suspended v i.a i.b (Run.fetched s) := by
      injection hstep with _ ht
      exact ht.symm
    subst ht
    exact ⟨rfl, rfl, rfl, rfl⟩

theorem cpuViews_idx (m : HostModule) (j : Nat) : m.cpuViews.stack.idx j = j := by
  simp [AoSView.idx, HostModule.cpuViews]

/-- A loop that pushes `n` results, or ends the run when they do not fit, has the declared effect
just when `n` is the declared number and fits the mailbox, or when at most one cell was read before
the end. -/
theorem pushed_effect_iff (hsp : t.sp = s.sp - i.declared.1) (hst : t.stack = s.stack) (n : Nat)
    (results : Nat → Slot) :
    CallEffect m.cpuViews s i.declared.1 i.declared.2 n results (cellsRead n STACK_CAP t.sp)
        (if n = 0 ∨ t.sp + n ≤ STACK_CAP then
          .resumed (t.sp + n) (withResults results 0 n t.sp t.stack)
        else .ended .trapStackOverflow) ↔
      if n = 0 ∨ t.sp + n ≤ STACK_CAP then n = i.declared.2 ∧ n ≤ 1 else STACK_CAP ≤ t.sp + 1 := by
  by_cases hfit : n = 0 ∨ t.sp + n ≤ STACK_CAP
  · simp only [if_pos hfit, CallEffect, cpuViews_idx, cellsRead, hst]
    constructor
    · rintro ⟨h1, -, -, -, h4⟩
      omega
    · rintro ⟨h1, h2⟩
      refine ⟨h1, by omega, fun j hj => ?_, fun j hj => ?_, by omega⟩
      · unfold withResults
        rw [if_pos (by omega), hsp, Nat.zero_add, Nat.add_sub_cancel_left]
      · unfold withResults
        rw [if_neg (by omega)]
  · simp only [if_neg hfit, CallEffect, cellsRead]
    constructor
    · rintro ⟨-, h⟩
      omega
    · intro h
      exact ⟨by decide, by omega⟩

theorem cpuResumption_ok {H : Type} {host : HostFn H} {c : CpuState H} {n : Nat}
    {results : Nat → Slot} (hr : (c.ask host).reply = .ok (n, results)) (maxSteps : Nat) :
    cpuResumption m host maxSteps c =
      if n = 0 ∨ c.st.sp + n ≤ STACK_CAP then
        .resumed (c.st.sp + n) (withResults results 0 n c.st.sp c.ar.stack)
      else .ended .trapStackOverflow := by
  unfold cpuResumption hostCall
  simp only [hr, pushResults_eq]
  by_cases hfit : n = 0 ∨ c.st.sp + n ≤ STACK_CAP
  · simp only [if_pos hfit]
  · simp only [if_neg hfit]

theorem cpu_effect_iff {H : Type} (host : HostFn H) (h : H) (maxSteps : Nat)
    (hi : m.code[s.pc]? = some i) (hop : i.op = .callHost)
    (hstep : Run.step m.cpuViews m.dev s = .error .hostcallPending t) :
    CpuEffect m maxSteps s t i host h ↔
      ReplyDeclared i.declared.2 (s.sp - i.declared.1)
        (CpuState.ask host ⟨t.save .hostcallPending, t.mb, t.arrays, h⟩).reply := by
  obtain ⟨hsp, hst, -, -⟩ := callHost_pending hi hop hstep
  unfold CpuEffect
  cases hr : (CpuState.ask host ⟨t.save .hostcallPending, t.mb, t.arrays, h⟩).reply with
  | error e =>
    simp only [hr, cpuResumption, hostCall, CallEffect, ReplyDeclared, iff_true]
    exact ⟨by decide, by decide⟩
  | ok p =>
    obtain ⟨n, results⟩ := p
    simp only [hr, cpuResumption_ok hr, ReplyDeclared, ← hsp]
    exact pushed_effect_iff hsp hst n results

/-- The dispatcher leaves one result, whatever the import declares. -/
theorem gpuHostDispatch_results {hs hs' : GpuHostState} {mb mb' : HostMailbox} {mem : Nat → Byte}
    {memSize : Nat} (h : gpuHostDispatch hs mb mem memSize = some (hs', mb')) : mb'.nResults = 1 := by
  unfold gpuHostDispatch at h
  cases hfn : GpuFn.ofId mb.fnId with
  | none =>
    rw [hfn] at h
    cases h
  | some fn =>
    rw [hfn] at h
    simp only [Option.some.injEq, Prod.mk.injEq] at h
    rw [← h.2]

theorem gpuHostDispatch_none {hs : GpuHostState} {mb : HostMailbox} {mem : Nat → Byte}
    {memSize : Nat} : gpuHostDispatch hs mb mem memSize = none ↔ GpuFn.ofId mb.fnId = none := by
  unfold gpuHostDispatch
  cases GpuFn.ofId mb.fnId with
  | none => simp
  | some fn => simp

theorem gpuHost_effect_iff (hs : GpuHostState) (hi : m.code[s.pc]? = some i) (hop : i.op = .callHost)
    (hstep : Run.step m.cpuViews m.dev s = .error .hostcallPending t) :
    GpuHostEffect m s t i hs ↔
      (GpuFn.ofId i.b = none ∨ STACK_CAP ≤ s.sp - i.declared.1 ∨ i.declared.2 = 1) := by
  obtain ⟨hsp, hst, hfn, -⟩ := callHost_pending hi hop hstep
  rw [← hsp]
  unfold GpuHostEffect gpuHostResumption gpuHostCall
  rcases Option.eq_none_or_eq_some (gpuHostDispatch hs t.mb t.mem t.memSize) with hd | ⟨p, hd⟩
  · have hd' : gpuHostDispatch hs t.mb t.arrays.mem (t.save .hostcallPending).memSize = none := hd
    have hid := gpuHostDispatch_none.mp hd
    rw [hfn] at hid
    simp only [hd, hd', CallEffect, hid, true_or, iff_true]
    exact ⟨by decide, by decide⟩
  · obtain ⟨hs', mb'⟩ := p
    have hd' : gpuHostDispatch hs t.mb t.arrays.mem (t.save .hostcallPending).memSize =
      some (hs', mb') := hd
    have hid : GpuFn.ofId i.b ≠ none := by
      intro hno
      rw [← hfn] at hno
      rw [gpuHostDispatch_none.mpr hno] at hd
      cases hd
    have heff := pushed_effect_iff (m := m) hsp hst mb'.nResults mb'.results
    have hn := gpuHostDispatch_results hd
    rw [hn] at heff
    have hnot : ¬ (1 = 0) := by decide
    simp only [hd, hd', pushResults_eq, hn, hnot, false_or, hid] at heff ⊢
    have hsp' : (t.save .hostcallPending).sp = t.sp := rfl
    by_cases hfit : t.sp + 1 ≤ STACK_CAP
    · simp only [hsp', if_pos hfit] at heff ⊢
      refine Iff.trans heff ?_
      omega
    · simp only [hsp', if_neg hfit] at heff ⊢
      refine Iff.trans heff ?_
      omega

theorem batch_effect_iff (maxSteps tid : Nat) (hs : GpuHostState) (hi : m.code[s.pc]? = some i)
    (hop : i.op = .callHost)
    (hstep : Run.step (m.batchViews tid) m.dev s = .error .hostcallPending t) :
    BatchEffect m maxSteps s t i tid hs ↔
      (GpuFn.ofId i.b = none ∨ (i.declared.2 = 1 ∧ s.sp - i.declared.1 < BENCH_STACK_CAP)) := by
  obtain ⟨hsp, hst, hfn, -⟩ := callHost_pending hi hop hstep
  rw [← hsp]
  unfold BatchEffect batchResumption batchExit
  rcases Option.eq_none_or_eq_some (gpuHostDispatch hs t.mb
    (fun j => t.mem ((m.batchViews tid).memory + j)) t.memSize) with hd | ⟨p, hd⟩
  · have hid := gpuHostDispatch_none.mp hd
    rw [hfn] at hid
    simp only [hd, if_true, CallEffect, hid, true_or, iff_true]
    exact ⟨by decide, by decide⟩
  · obtain ⟨hs', mb'⟩ := p
    have hid : GpuFn.ofId i.b ≠ none := by
      intro hno
      rw [← hfn] at hno
      rw [gpuHostDispatch_none.mpr hno] at hd
      cases hd
    have hn := gpuHostDispatch_results hd
    simp only [hd, hn, if_true, hid, false_or, pushWhile_one, Mach.load, Mach.save, CallEffect,
      cellsRead]
    by_cases hfit : t.sp < BENCH_STACK_CAP
    · simp only [hfit, and_true, if_true]
      constructor
      · rintro ⟨h1, -⟩
        exact h1.symm
      · intro h1
        refine ⟨h1.symm, by omega, fun j hj => ?_, fun j hj => ?_, by omega⟩
        · have hj0 : j = 0 := by omega
          rw [hj0, Nat.add_zero, ← hsp]
          exact Function.update_self _ _ _
        · have hne : (m.batchViews tid).stack.idx j ≠ (m.batchViews tid).stack.idx t.sp := by
            simp only [AoSView.idx]
            omega
          rw [Function.update_of_ne hne, hst]
    · simp only [hfit, and_false, iff_false, if_false]
      rintro ⟨h1, h2, -⟩
      omega

/-- An `OP_CALL_HOST` with its arguments on the stack suspends the machine. -/
theorem callHost_suspends (v : Views) (hi : m.code[s.pc]? = some i) (hop : i.op = .callHost)
    (hnp : i.declared.1 ≤ 16) (hsp : i.declared.1 ≤ s.sp) :
    ∃ t, Run.step v m.dev s = .error .hostcallPending t := by
  have hi' : m.dev.code[s.pc]? = some i := hi
  have hargs : (Run.fetched s).sp = s.sp := rfl
  rw [Run.step_apply, hi']
  simp only [Run.exec, hop, Run.callHost_apply]
  unfold CuOp.declared at hnp hsp
  rw [if_neg (by omega), if_neg (by omega)]
  exact ⟨_, rfl⟩

/-- A host call has its declared effect in each driver just when the host left as many results as
the import declares: in `run_cpu` the reply decides; `gpu_host_dispatch` leaves one result for every
function it knows, so `run_gpu_host` and `k_batch` need one declared result, and `k_batch` also a
free slot because it drops a result that does not fit. -/
theorem hostCall_declared_iff {H : Type} (hi : m.code[s.pc]? = some i) (hop : i.op = .callHost)
    (maxSteps tid : Nat) (host : HostFn H) (h : H) (hs : GpuHostState) :
    (∀ t, Run.step m.cpuViews m.dev s = .error .hostcallPending t →
      (CpuEffect m maxSteps s t i host h ↔
        ReplyDeclared i.declared.2 (s.sp - i.declared.1)
          (CpuState.ask host ⟨t.save .hostcallPending, t.mb, t.arrays, h⟩).reply)) ∧
    (∀ t, Run.step m.cpuViews m.dev s = .error .hostcallPending t →
      (GpuHostEffect m s t i hs ↔
        (GpuFn.ofId i.b = none ∨ STACK_CAP ≤ s.sp - i.declared.1 ∨ i.declared.2 = 1))) ∧
    (∀ t, Run.step (m.batchViews tid) m.dev s = .error .hostcallPending t →
      (BatchEffect m maxSteps s t i tid hs ↔
        (GpuFn.ofId i.b = none ∨
          (i.declared.2 = 1 ∧ s.sp - i.declared.1 < BENCH_STACK_CAP)))) := by
  refine ⟨fun t hstep => ?_, fun t hstep => ?_, fun t hstep => ?_⟩
  · exact cpu_effect_iff host h maxSteps hi hop hstep
  · exact gpuHost_effect_iff hs hi hop hstep
  · exact batch_effect_iff maxSteps tid hs hi hop hstep

end Call

open Wasm

/-- A function that asks for the ledger sequence, with the results its import declares. -/
def seqModule (results : List ValType) : Module where
  types := [[.func ([], results)]]
  imports := [⟨"x", "3", .func 0⟩]
  funcs := [0]
  code := [{ locals := [], body := .op (.call 0) .nil }]

/-- The call of the module, with the given number of declared results. -/
def seqCall (nr : Nat) : CuOp := ⟨.callHost, nr <<< 8, 4⟩

/-- The function, with the given number of results. -/
def seqMeta (nr : Nat) : FuncMeta := ⟨0, 2, 0, nr, 0, 0⟩

/-- The entry state of the function. -/
def seqEntry (m : HostModule) (nr : Nat) : Mach :=
  Mach.load (entryState m (seqMeta nr) CPU_FUEL) m.memSize {} (m.entryArrays (seqMeta nr) [])

/-- A host that answers every call with one result. -/
def seqHost : HostFn Unit := fun h _ _ mem => ⟨.ok (1, fun _ => 100), mem, h⟩

/-- The first instruction of the verified module. -/
def seqLoad (results : List ValType) : Option (Option CuOp) :=
  (loadWasm (seqModule results).payloads).toOption.bind fun m0 =>
    (verifyCuop m0).toOption.map fun m => m.code[0]?

/-- An import declared without results: all three drivers push the result of the host all the same
and go on. -/
theorem undeclared_result_pushed : ∃ m0 m t t',
    loadWasm (seqModule []).payloads = .ok m0 ∧ verifyCuop m0 = .ok m ∧
      m.code[(seqEntry m 0).pc]? = some (seqCall 0) ∧
      Run.step m.cpuViews m.dev (seqEntry m 0) = .error .hostcallPending t ∧
      ¬ CpuEffect m 1 (seqEntry m 0) t (seqCall 0) seqHost () ∧
      ¬ GpuHostEffect m (seqEntry m 0) t (seqCall 0) {} ∧
      Run.step (m.batchViews 0) m.dev (seqEntry m 0) = .error .hostcallPending t' ∧
      ¬ BatchEffect m 1 (seqEntry m 0) t' (seqCall 0) 0 {} := by
  have hload : seqLoad [] = some (some (seqCall 0)) := by decide +kernel
  obtain ⟨m0, m, hm, hv, hcode⟩ := loaded_eval hload
  have hi : m.code[(seqEntry m 0).pc]? = some (seqCall 0) := hcode
  obtain ⟨t, ht⟩ := callHost_suspends m.cpuViews hi rfl (by decide) (Nat.zero_le _)
  obtain ⟨t', ht'⟩ := callHost_suspends (m.batchViews 0) hi rfl (by decide) (Nat.zero_le _)
  refine ⟨m0, m, t, t', hm, hv, hi, ht, ?_, ?_, ht', ?_⟩
  · rw [cpu_effect_iff seqHost () 1 hi rfl ht]
    show ¬ ReplyDeclared 0 0 (.ok (1, fun _ => 100))
    simp [ReplyDeclared, STACK_CAP]
  · rw [gpuHost_effect_iff {} hi rfl ht]
    show ¬ (GpuFn.ofId 4 = none ∨ STACK_CAP ≤ 0 ∨ 0 = 1)
    decide
  · rw [batch_effect_iff 1 0 {} hi rfl ht']
    show ¬ (GpuFn.ofId 4 = none ∨ (0 = 1 ∧ 0 < BENCH_STACK_CAP))
    decide

/-- With one declared result the call has its effect in all three drivers. -/
theorem declared_result_pushed : ∃ m0 m t t',
    loadWasm (seqModule [.i64]).payloads = .ok m0 ∧ verifyCuop m0 = .ok m ∧
      m.code[(seqEntry m 1).pc]? = some (seqCall 1) ∧
      Run.step m.cpuViews m.dev (seqEntry m 1) = .error .hostcallPending t ∧
      CpuEffect m 1 (seqEntry m 1) t (seqCall 1) seqHost () ∧
      GpuHostEffect m (seqEntry m 1) t (seqCall 1) {} ∧
      Run.step (m.batchViews 0) m.dev (seqEntry m 1) = .error .hostcallPending t' ∧
      BatchEffect m 1 (seqEntry m 1) t' (seqCall 1) 0 {} := by
  have hload : seqLoad [.i64] = some (some (seqCall 1)) := by decide +kernel
  obtain ⟨m0, m, hm, hv, hcode⟩ := loaded_eval hload
  have hi : m.code[(seqEntry m 1).pc]? = some (seqCall 1) := hcode
  obtain ⟨t, ht⟩ := callHost_suspends m.cpuViews hi rfl (by decide) (Nat.zero_le _)
  obtain ⟨t', ht'⟩ := callHost_suspends (m.batchViews 0) hi rfl (by decide) (Nat.zero_le _)
  obtain ⟨hcpu, hgpu, hbatch⟩ := hostCall_declared_iff hi rfl 1 0 seqHost () {}
  refine ⟨m0, m, t, t', hm, hv, hi, ht, ?_, ?_, ht', ?_⟩
  · refine (hcpu t ht).mpr ?_
    show ReplyDeclared 1 0 (.ok (1, fun _ => 100))
    simp [ReplyDeclared, STACK_CAP]
  · exact (hgpu t ht).mpr (.inr (.inr rfl))
  · refine (hbatch t' ht').mpr (.inr ⟨rfl, ?_⟩)
    show 0 < BENCH_STACK_CAP
    decide

end CuWasm
