import CuWasm.Operands
import CuWasm.Proofs.PlainProofs

/-!
# Popping operands and pushing results

The operators of the arithmetic part pop their operands one by one and push their results. Between the
pops the machine is the old one with a lower stack pointer (`Popped`); the pushes then write into the
places of the operands.
-/

namespace CuWasm

open Exit

namespace Run

variable {v : Views} {s t : Mach} {n : Nat}

/-- The machine `t` is `s` with `n` operands popped. -/
structure Popped (n : Nat) (s t : Mach) : Prop where
  sp : t.sp = s.sp - n
  stack : t.stack = s.stack
  others : t.offStack = s.offStack

theorem Popped.refl (s : Mach) : Popped 0 s s := ⟨rfl, rfl, rfl⟩

theorem Popped.memSize (h : Popped n s t) :
    t.memSize = s.memSize := by
  have h := congrArg Mach.memSize h.others
  exact h

theorem Popped.mem (h : Popped n s t) : t.mem = s.mem := by
  have h := congrArg Mach.mem h.others
  exact h

theorem Popped.pop (h : Popped n s t) (hn : n < s.sp) :
    ∃ t', pop v t = .ok (s.stack (v.stack.idx (s.sp - (n + 1)))) t' ∧ Popped (n + 1) s t' := by
  have hsp : dec32 t.sp = s.sp - (n + 1) := by
    rw [h.sp, dec32_of_pos (by omega)]
    omega
  have hpop := pop_apply v t
  rw [hsp, h.stack] at hpop
  exact ⟨_, hpop, rfl, rfl, h.others⟩

/-- A push that has room. -/
theorem Popped.push_room (h : Popped n s t) (hroom : s.sp - n < v.stack.cap) (y : Slot) :
    ∃ t', Run.push v (pure y) t = .ok () t' ∧ Replaced v n [y] s t' := by
  have hsp := h.sp
  rw [push_apply, if_neg (by omega)]
  refine ⟨_, rfl, by simp only [hsp, List.length_singleton], fun k y' hk => ?_, fun c hc => ?_, ?_⟩
  · obtain ⟨rfl, hy⟩ : k = 0 ∧ y = y' := by
      cases k with
      | zero => exact ⟨rfl, by simpa using hk⟩
      | succ k => simp at hk
    simp only [hsp, hy, Nat.add_zero, Function.update_self]
  · have hne := hc 0 (by simp)
    simp only [hsp, h.stack]
    exact Function.update_of_ne hne _ _
  · exact h.others

/-- A push into the place of a popped operand. -/
theorem Popped.push (h : Popped n s t) (h0 : 0 < n) (hn : n ≤ s.sp) (hcap : s.sp ≤ v.stack.cap)
    (y : Slot) : ∃ t', Run.push v (pure y) t = .ok () t' ∧ Replaced v n [y] s t' :=
  h.push_room (by omega) y

/-- Two pushes into the places of popped operands. -/
theorem Popped.pushPair (h : Popped n s t) (h0 : 1 < n) (hn : n ≤ s.sp) (hcap : s.sp ≤ v.stack.cap)
    (p : Slot × Slot) :
    ∃ t', Run.pushPair v p t = .ok () t' ∧ Replaced v n [p.1, p.2] s t' := by
  obtain ⟨t1, e1, r1⟩ := h.push (v := v) (by omega) hn hcap p.1
  have hsp := r1.sp
  simp only [List.length_singleton] at hsp
  unfold Run.pushPair
  rw [bind_apply, e1]
  simp only
  rw [push_apply, if_neg (by omega)]
  refine ⟨_, rfl, by simp [hsp], fun k y hk => ?_, fun c hc => ?_, ?_⟩
  · rcases k with _ | _ | k
    · obtain rfl : p.1 = y := by simpa using hk
      rw [← r1.results 0 p.1 rfl]
      refine Function.update_of_ne ?_ _ _
      rw [ne_eq, AoSView.idx_inj]
      omega
    · obtain rfl : p.2 = y := by simpa using hk
      simp only [hsp, Function.update_self]
    · simp at hk
  · have h0 := hc 0 (by simp)
    have h1 := hc 1 (by simp)
    simp only [hsp]
    rw [Function.update_of_ne h1]
    refine r1.cells c fun k hk => ?_
    obtain rfl : k = 0 := by simpa using hk
    exact h0
  · exact r1.others

end Run

open Run

theorem onTop_operandMach (xs : List Slot) (h : xs.length ≤ STACK_CAP) :
    OnTop operandViews (operandMach xs) xs := by
  refine ⟨le_rfl, h, fun k x hk => ?_⟩
  simp [operandMach, Mach.load, operandViews, AoSView.idx, List.getD_eq_getElem?_getD, hk]

section Exec

variable {v : Views} {m : DevModule} {i : CuOp} {s : Mach}

/-- The next operand. -/
theorem OnTop.pop {xs : List Slot} {t : Mach} {n k : Nat} {x : Slot} (h : OnTop v s xs)
    (ht : Popped n s t) (hk : xs[k]? = some x) (hn : n + 1 + k = xs.length) :
    ∃ t', Run.pop v t = .ok x t' ∧ Popped (n + 1) s t' := by
  have he := h.enough
  have hx := h.operands k x hk
  rw [show s.sp - xs.length + k = s.sp - (n + 1) by omega] at hx
  obtain ⟨t', e, ht'⟩ := ht.pop (v := v) (by omega)
  rw [hx] at e
  exact ⟨t', e, ht'⟩

/-- A one-operand instruction. -/
theorem yields_one {x : Slot} (h : OnTop v s [x]) {g : Slot → Slot} :
    Yields v 1 (.ok [g x]) s ((do let a ← pop v; push v (pure (g a)) : Run Unit) s) := by
  obtain ⟨t1, e1, p1⟩ := h.pop (k := 0) (.refl s) rfl rfl
  obtain ⟨t2, e2, r⟩ := p1.push (v := v) (by omega) h.enough h.fits (g x)
  rw [bind_ok e1, e2]
  exact ⟨_, rfl, r⟩

/-- A two-operand instruction. -/
theorem yields_two {x y : Slot} (h : OnTop v s [x, y]) {g : Slot → Slot → Run Unit}
    {r : Except Status (List Slot)} (hg : ∀ t, Popped 2 s t → Yields v 2 r s (g x y t)) :
    Yields v 2 r s ((do let b ← pop v; let a ← pop v; g a b : Run Unit) s) := by
  obtain ⟨t1, e1, p1⟩ := h.pop (k := 1) (.refl s) rfl rfl
  obtain ⟨t2, e2, p2⟩ := h.pop (k := 0) p1 rfl rfl
  rw [bind_ok e1, bind_ok e2]
  exact hg t2 p2

/-- A four-operand instruction. -/
theorem yields_four {x y z w : Slot} (h : OnTop v s [x, y, z, w])
    {g : Slot → Slot → Slot → Slot → Run Unit} {r : Except Status (List Slot)}
    (hg : ∀ t, Popped 4 s t → Yields v 4 r s (g x y z w t)) :
    Yields v 4 r s ((do
      let d ← pop v; let c ← pop v; let b ← pop v; let a ← pop v; g a b c d : Run Unit) s) := by
  obtain ⟨t1, e1, p1⟩ := h.pop (k := 3) (.refl s) rfl rfl
  obtain ⟨t2, e2, p2⟩ := h.pop (k := 2) p1 rfl rfl
  obtain ⟨t3, e3, p3⟩ := h.pop (k := 1) p2 rfl rfl
  obtain ⟨t4, e4, p4⟩ := h.pop (k := 0) p3 rfl rfl
  rw [bind_ok e1, bind_ok e2, bind_ok e3, bind_ok e4]
  exact hg t4 p4

theorem exec_un {o : UnOp} {x : Slot} (hop : i.op = .un o) (h : OnTop v s [x]) :
    Yields v 1 (.ok [o.eval x]) s (exec v m i s) := by
  simp only [exec, hop]
  exact yields_one h

theorem exec_clz {x : Slot} (hop : i.op = .clz) (h : OnTop v s [x]) :
    Yields v 1 (.ok [clz i.a x]) s (exec v m i s) := by
  simp only [exec, hop]
  exact yields_one h

theorem exec_bin {o : BinOp} {x y : Slot} (hop : i.op = .bin o) (h : OnTop v s [x, y]) :
    Yields v 2 ((o.eval x y).map ([·])) s (exec v m i s) := by
  simp only [exec, hop]
  refine yields_two h fun t ht => ?_
  cases hr : o.eval x y with
  | ok r =>
    obtain ⟨t', e, hp⟩ := ht.push (v := v) (by omega) h.enough h.fits r
    show Yields v 2 _ s (push v (pure r) t)
    rw [e]
    exact ⟨_, rfl, hp⟩
  | error e => exact ⟨rfl, ht.stack, ht.others⟩

/-- The two-operand instructions with two results. -/
theorem yields_pair {x y : Slot} (h : OnTop v s [x, y]) (p : Slot → Slot → Slot × Slot) :
    Yields v 2 (.ok [(p x y).1, (p x y).2]) s
      ((do let b ← pop v; let a ← pop v; pushPair v (p a b) : Run Unit) s) := by
  refine yields_two h fun t ht => ?_
  obtain ⟨t', e, hp⟩ := ht.pushPair (v := v) (by omega) h.enough h.fits (p x y)
  rw [e]
  exact ⟨_, rfl, hp⟩

/-- The four-operand instructions with two results. -/
theorem yields_pair4 {x y z w : Slot} (h : OnTop v s [x, y, z, w])
    (p : Slot → Slot → Slot → Slot → Slot × Slot) :
    Yields v 4 (.ok [(p x y z w).1, (p x y z w).2]) s
      ((do let d ← pop v; let c ← pop v; let b ← pop v; let a ← pop v
           pushPair v (p a b c d) : Run Unit) s) := by
  refine yields_four h fun t ht => ?_
  obtain ⟨t', e, hp⟩ := ht.pushPair (v := v) (by omega) h.enough h.fits (p x y z w)
  rw [e]
  exact ⟨_, rfl, hp⟩

end Exec

end CuWasm
