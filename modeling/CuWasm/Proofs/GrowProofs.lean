import CuWasm.LinearMemory
import CuWasm.Proofs.MemSizeProofs
import CuWasm.Proofs.NumericProofs

/-!
# Growing into zero pages

The buffer of a memory has its maximal size from the start. Every instruction writes below the current
size only, so what `memory.grow` exposes is still zero.
-/

namespace CuWasm

open Run Exit BlockMove

section Outside

variable {v : Views} {m : DevModule} {s : Mach}

theorem writesMem_cases {o : Opcode} (h : writesMem o = true) :
    o = .store ∨ o = .memoryCopy ∨ o = .memoryFill ∨ o = .memoryInit := by
  cases o <;> first | (cases h; done) | simp

/-- An instruction writes inside the current size of the memory only. -/
theorem exec_mem_outside (i : CuOp) (s : Mach) {c : Nat}
    (hc : c < v.memory ∨ v.memory + s.memSize ≤ c) : (final (exec v m i s)).mem c = s.mem c := by
  by_cases hw : writesMem i.op = false
  · exact congrFun (exec_keeps_mem v m hw s) c
  · rw [Bool.not_eq_false] at hw
    rcases writesMem_cases hw with hop | hop | hop | hop
    · simp only [exec, hop, store, bind_apply, pop_apply, get_apply, ite_run, throw_apply, touch_apply, modify_apply]
      split_ifs with h
      · rfl
      · have hb : (u32 (s.stack (v.stack.idx (dec32 (dec32 s.sp))))).toNat + i.b + i.a ≤ s.memSize := by
          apply memInBounds_iff.mp
          simp only [not_or, Bool.not_eq_true, Bool.not_eq_false'] at h
          simpa using h.2.2
        simp only [final_ok, memStoreLe, fillAsc_apply]
        rw [if_neg (by omega)]
    · simp only [exec, hop, memoryCopy, bind_apply, pop_apply, get_apply, ite_run, throw_apply, touch_apply,
        modify_apply]
      split_ifs with h
      · rfl
      · simp only [final_ok, move_eq_blockMove]
        exact blockMove_of_not_mem _ (by omega)
    · simp only [exec, hop, memoryFill, bind_apply, pop_apply, get_apply, ite_run, throw_apply, touch_apply,
        modify_apply]
      split_ifs with h
      · rfl
      · simp only [final_ok, fillAsc_apply]
        rw [if_neg (by omega)]
    · simp only [exec, hop, memoryInit, bind_apply, pop_apply, get_apply, ite_run, throw_apply, touch_apply,
        modify_apply]
      split_ifs with h1 h2
      · rfl
      -- live or dropped, the range has been tested
      all_goals try rfl
      all_goals
        simp only [final_ok, fillAsc_apply]
        rw [if_neg (by omega)]

theorem step_mem_outside (s : Mach) {c : Nat} (hc : c < v.memory ∨ v.memory + s.memSize ≤ c) :
    (final (step v m s)).mem c = s.mem c := by
  rcases Option.eq_none_or_eq_some (m.code[s.pc]?) with hi | ⟨i, hi⟩
  · rw [step_apply, hi]
    rfl
  · rw [final_step v m hi]
    exact exec_mem_outside i (fetched s) hc

end Outside

section Grow

variable {v : Views} {m : DevModule} {s t : Mach}

/-- The size `memory.grow` leaves: that of the pages it may add, or the old one. -/
theorem step_size (hmax : v.memMax < 2 ^ 32) (h : ZeroBeyond v s) :
    WASM_PAGE ∣ (final (step v m s)).memSize ∧ s.memSize ≤ (final (step v m s)).memSize ∧
      (final (step v m s)).memSize ≤ v.memMax := by
  rcases Option.eq_none_or_eq_some (m.code[s.pc]?) with hi | ⟨i, hi⟩
  · have hsame : (final (step v m s)).memSize = s.memSize := by
      rw [step_apply, hi]
      rfl
    rw [hsame]
    exact ⟨h.pages, le_rfl, h.le⟩
  · rw [final_step v m hi]
    by_cases hop : i.op = .memoryGrow
    · have hexec : exec v m i = memoryGrow v := by
        unfold exec
        rw [hop]
      have hsize : (fetched s).memSize = s.memSize := rfl
      rw [hexec, memoryGrow_memSize, hsize]
      simp only
      have hpages := Nat.div_mul_cancel h.pages
      have hle := h.le
      unfold WASM_PAGE at hpages ⊢
      split_ifs with hfail
      · exact ⟨h.pages, le_rfl, h.le⟩
      · generalize (u32 _).toNat = delta at hfail ⊢
        have hnp : s.memSize / 65536 + delta < 2 ^ 32 := by omega
        rw [Nat.mod_eq_of_lt hnp, Nat.mod_eq_of_lt (by omega)]
        refine ⟨Nat.dvd_mul_left _ _, ?_, ?_⟩ <;> omega
    · have hkeep : (final (exec v m i (fetched s))).memSize = s.memSize :=
        exec_keeps_memSize v m hop (fetched s)
      rw [hkeep]
      exact ⟨h.pages, le_rfl, h.le⟩

/-- One instruction keeps the pages behind the memory zero, also when it traps. -/
theorem ZeroBeyond.step (hmax : v.memMax < 2 ^ 32) (h : ZeroBeyond v s) :
    ZeroBeyond v (final (Run.step v m s)) := by
  obtain ⟨hpages, hmono, hle⟩ := step_size (m := m) hmax h
  refine ⟨hpages, hle, fun c hc hlt => ?_⟩
  rw [step_mem_outside s (.inr (by omega))]
  exact h.zero c (by omega) hlt

theorem ZeroBeyond.steps (hmax : v.memMax < 2 ^ 32) {k : Nat} (hst : Steps (Run.step v m) k s t)
    (h : ZeroBeyond v s) : ZeroBeyond v t := by
  refine hst.invariant (fun s t hs hok => ?_) h
  have hnext := hs.step (m := m) hmax
  rwa [hok] at hnext

/-- `OP_MEMORY_GROW`: the old page count and the larger memory, or minus one and no change. -/
theorem exec_memoryGrow {i : CuOp} {x : Slot} (hmax : v.memMax < 2 ^ 32) (hop : i.op = .memoryGrow)
    (h : OnTop v s [x]) :
    let old := s.memSize / WASM_PAGE
    if old + operand .i32 x ≤ v.memMax / WASM_PAGE then
      Yields v 1 (.ok [BitVec.ofNat 64 old]) { s with memSize := (old + operand .i32 x) * WASM_PAGE }
        (exec v m i s)
    else Yields v 1 (.ok [BitVec.ofNat 64 (2 ^ 32 - 1)]) s (exec v m i s) := by
  simp only [operand_i32]
  simp only [exec, hop]
  obtain ⟨t1, e1, p1⟩ := h.pop (k := 0) (.refl s) rfl rfl
  unfold memoryGrow
  rw [bind_ok e1, bind_ok (get_apply t1), ite_run, p1.memSize]
  by_cases hc : s.memSize / WASM_PAGE + (u32 x).toNat ≤ v.memMax / WASM_PAGE
  · have hfits : (s.memSize / WASM_PAGE + (u32 x).toNat) % 2 ^ 32 * WASM_PAGE % 2 ^ 32 =
        (s.memSize / WASM_PAGE + (u32 x).toNat) * WASM_PAGE := by
      unfold WASM_PAGE at hc ⊢
      rw [Nat.mod_eq_of_lt (by omega), Nat.mod_eq_of_lt (by omega)]
    rw [if_pos hc, if_neg (by unfold WASM_PAGE at hc ⊢; omega), bind_ok (modify_apply _ t1), hfits]
    have p2 : Popped 1 { s with memSize := (s.memSize / WASM_PAGE + (u32 x).toNat) * WASM_PAGE }
        { t1 with memSize := (s.memSize / WASM_PAGE + (u32 x).toNat) * WASM_PAGE } := by
      refine ⟨p1.sp, p1.stack, ?_⟩
      have ho := congrArg (fun u : Mach =>
        { u with memSize := (s.memSize / WASM_PAGE + (u32 x).toNat) * WASM_PAGE }) p1.others
      exact ho
    obtain ⟨t2, e2, r⟩ := p2.push (v := v) (by omega) h.enough h.fits
      (BitVec.ofNat 64 (s.memSize / WASM_PAGE))
    rw [e2]
    exact ⟨_, rfl, r⟩
  · rw [if_neg hc, if_pos (.inl (by omega))]
    obtain ⟨t2, e2, r⟩ := p1.push (v := v) (by omega) h.enough h.fits (slot32 (-1))
    rw [e2]
    exact ⟨_, rfl, r⟩

/-- `OP_MEMORY_SIZE`. -/
theorem exec_memorySize {i : CuOp} (hop : i.op = .memorySize) (s : Mach) :
    Yields v 0 (if s.sp < v.stack.cap then .ok [BitVec.ofNat 64 (s.memSize / WASM_PAGE)]
      else .error .trapStackOverflow) s (exec v m i s) := by
  simp only [exec, hop]
  rw [bind_ok (get_apply s)]
  by_cases hc : s.sp < v.stack.cap
  · obtain ⟨t, e, r⟩ := (Popped.refl s).push_room (v := v) (by omega)
      (BitVec.ofNat 64 (s.memSize / WASM_PAGE))
    rw [if_pos hc, e]
    exact ⟨_, rfl, r⟩
  · rw [if_neg hc, push_apply, if_pos (by omega)]
    exact ⟨rfl, rfl, rfl⟩

end Grow

/-- Linear memory grows monotonically into zero pages: after every instruction of a run, a trapping one
included, the size is a whole number of pages between the size before it and the maximum, and whatever
lies behind the memory is zero; `memory.grow` and `memory.size` report page counts. -/
theorem memory_grows_into_zero_pages (v : Views) (m : DevModule) (hmax : v.memMax < 2 ^ 32) (s : Mach)
    (h : ZeroBeyond v s) {k : Nat} {t : Mach} (hst : Steps (step v m) k s t) :
    let t' := final (step v m t)
    ZeroBeyond v t' ∧ t.memSize ≤ t'.memSize ∧
    -- the pages that are new
    (∀ c, t.memSize ≤ c → c < t'.memSize → t'.mem (v.memory + c) = 0) ∧
    ∀ i, m.code[t.pc]? = some i →
      (i.op = .memoryGrow → ∀ x, OnTop v t [x] →
        let old := t.memSize / WASM_PAGE
        if old + operand .i32 x ≤ v.memMax / WASM_PAGE then
          Yields v 1 (.ok [BitVec.ofNat 64 old])
            { fetched t with memSize := (old + operand .i32 x) * WASM_PAGE } (exec v m i (fetched t))
        else Yields v 1 (.ok [BitVec.ofNat 64 (2 ^ 32 - 1)]) (fetched t) (exec v m i (fetched t))) ∧
      (i.op = .memorySize →
        Yields v 0 (if t.sp < v.stack.cap then .ok [BitVec.ofNat 64 (t.memSize / WASM_PAGE)]
          else .error .trapStackOverflow) (fetched t) (exec v m i (fetched t))) := by
  have ht := h.steps hmax hst
  obtain ⟨-, hmono, hle⟩ := step_size (m := m) hmax ht
  refine ⟨ht.step hmax, hmono, fun c hc hlt => ?_, fun i hi => ⟨fun hop x hx => ?_, fun hop => ?_⟩⟩
  · rw [step_mem_outside t (.inr (by omega))]
    exact ht.zero c hc (by omega)
  · exact exec_memoryGrow (s := fetched t) hmax hop ⟨hx.enough, hx.fits, hx.operands⟩
  · exact exec_memorySize hop (fetched t)

/-- Growing an empty memory with a buffer of one page. -/
theorem grow_first_page :
    ∃ t, step { operandViews with memMax := WASM_PAGE } ⟨[⟨.memoryGrow, 0, 0⟩], [], [], [], [], []⟩
      (operandMach [1]) = .ok () t ∧ t.memSize = WASM_PAGE ∧ t.mem 7 = 0 := by
  obtain ⟨-, -, hnew, -⟩ := memory_grows_into_zero_pages
    { operandViews with memMax := WASM_PAGE } ⟨[⟨.memoryGrow, 0, 0⟩], [], [], [], [], []⟩ (by decide)
    (operandMach [1]) ⟨Nat.dvd_zero _, Nat.zero_le _, fun _ _ _ => rfl⟩ (.zero _)
  have hstep : step { operandViews with memMax := WASM_PAGE }
      ⟨[⟨.memoryGrow, 0, 0⟩], [], [], [], [], []⟩ (operandMach [1]) = .ok () _ := rfl
  exact ⟨_, hstep, rfl, hnew 7 (by decide) (by decide)⟩

end CuWasm
