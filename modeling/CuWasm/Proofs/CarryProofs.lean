import CuWasm.Proofs.StepProofs
import CuWasm.Proofs.WidthProofs

/-!
# Widths of the slots of a frame

A machine carries a list of widths if the slots of the running frame hold numbers of these widths. An
instruction takes the widths of its operands to those of its results, whatever it does with the values.
-/

namespace CuWasm

open Exit Wasm Structured

/-- The stack slots from `base` on hold numbers of the widths `ws`, bottom first. -/
def Holds (v : Views) (s : Mach) (base : Nat) (ws : List Nat) : Prop :=
  ∀ (k w : Nat), ws[k]? = some w → (s.stack (v.stack.idx (base + k))).toNat < 2 ^ w

/-- The widths of types listed bottom first. -/
theorem reverse_widths (ts : List ValType) : (widths ts.reverse).reverse = widths ts := by
  unfold widths
  rw [← List.map_reverse, List.reverse_reverse]

section Holds

variable {v : Views} {s t : Mach} {base : Nat} {ws ws' : List Nat}

/-- Only the slots in question matter, and they may have been moved. -/
theorem Holds.moved {base' : Nat} (h : Holds v s base ws)
    (heq : ∀ k, k < ws.length → t.stack (v.stack.idx (base' + k)) = s.stack (v.stack.idx (base + k))) :
    Holds v t base' ws := by
  intro k w hk
  rw [heq k (List.getElem?_eq_some_iff.mp hk).1]
  exact h k w hk

theorem Holds.append : Holds v s base (ws ++ ws') ↔
    Holds v s base ws ∧ Holds v s (base + ws.length) ws' := by
  constructor
  · intro h
    constructor
    · intro k w hk
      refine h k w ?_
      rw [List.getElem?_append_left (List.getElem?_eq_some_iff.mp hk).1, hk]
    · intro k w hk
      rw [Nat.add_assoc]
      refine h _ w ?_
      rw [List.getElem?_append_right (Nat.le_add_right ..), Nat.add_sub_cancel_left, hk]
  · rintro ⟨h1, h2⟩ k w hk
    by_cases hlt : k < ws.length
    · rw [List.getElem?_append_left hlt] at hk
      exact h1 k w hk
    · rw [List.getElem?_append_right (Nat.le_of_not_lt hlt)] at hk
      have := h2 _ w hk
      rwa [Nat.add_assoc, Nat.add_sub_cancel' (Nat.le_of_not_lt hlt)] at this

theorem Holds.singleton {w : Nat} :
    Holds v s base [w] ↔ (s.stack (v.stack.idx base)).toNat < 2 ^ w := by
  constructor
  · intro h
    exact h 0 w rfl
  · intro h k w' hk
    have hlt := (List.getElem?_eq_some_iff.mp hk).1
    cases Nat.lt_one_iff.mp hlt
    cases hk
    exact h

/-- A slot that is overwritten with a number of its width. -/
theorem Holds.set {a w : Nat} {x : Slot} (h : Holds v s base ws) (ha : ws[a]? = some w)
    (hx : x.toNat < 2 ^ w) (hst : t.stack = Function.update s.stack (v.stack.idx (base + a)) x) :
    Holds v t base ws := by
  intro k w' hk
  rw [hst]
  by_cases hka : k = a
  · subst hka
    rw [ha] at hk
    cases hk
    rw [Function.update_self]
    exact hx
  · rw [Function.update_of_ne (by rw [ne_eq, AoSView.idx_inj]; omega)]
    exact h k w' hk

/-- Zeros have any width. -/
theorem Holds.zeros (h : ∀ k, k < ws.length → s.stack (v.stack.idx (base + k)) = 0) :
    Holds v s base ws := by
  intro k w hk
  rw [h k (List.getElem?_eq_some_iff.mp hk).1]
  exact Nat.two_pow_pos w

end Holds

/-- The globals hold numbers of the widths of their types. -/
def GlobalsHold (v : Views) (C : Ctx) (s : Mach) : Prop :=
  ∀ (k : Nat) (p : ValType × Bool), C.globals[k]? = some p →
    (s.globals (v.globals + k)).toNat < 2 ^ p.1.width

/-- The running frame has locals of the widths `loc` and operands of the widths `ws`, top first. -/
structure Carries (v : Views) (C : Ctx) (loc ws : List Nat) (s : Mach) : Prop where
  sp : s.sp = s.fp + loc.length + ws.length
  holds : Holds v s s.fp (loc ++ ws.reverse)
  globals : GlobalsHold v C s
  memSize : s.memSize < 2 ^ 32

/-- A computation takes the widths `ws` to the widths `ws'`, unless it traps. -/
abbrev Takes (v : Views) (C : Ctx) (loc ws ws' : List Nat) (x : Run Unit) : Prop :=
  Spec (Carries v C loc ws) x (fun _ => Carries v C loc ws') fun _ _ => True

section Rules

variable {v : Views} {C : Ctx} {loc ws ws' : List Nat} {w : Nat} {s t : Mach}

/-- A change of parts of the machine that hold no operands. -/
theorem Carries.congr (h : Carries v C loc ws s) (hsp : t.sp = s.sp) (hfp : t.fp = s.fp)
    (hst : t.stack = s.stack) (hg : t.globals = s.globals) (hmem : t.memSize < 2 ^ 32) :
    Carries v C loc ws t := by
  refine ⟨by rw [hsp, hfp]; exact h.sp, ?_, ?_, hmem⟩
  · rw [hfp]
    exact h.holds.moved fun k _ => by rw [hst]
  · intro k p hk
    rw [hg]
    exact h.globals k p hk

theorem takes_modify {f : Mach → Mach} (h : ∀ s, (f s).sp = s.sp ∧ (f s).fp = s.fp ∧
    (f s).stack = s.stack ∧ (f s).globals = s.globals ∧ (f s).memSize = s.memSize) :
    Takes v C loc ws ws (modify f) := by
  refine Spec.modify fun s hs => ?_
  obtain ⟨h1, h2, h3, h4, h5⟩ := h s
  exact hs.congr h1 h2 h3 h4 (h5 ▸ hs.memSize)

theorem takes_throw {α : Type} {e : Status} {Q : α → Mach → Prop} :
    Spec (Carries v C loc ws) (throw e : Run α) Q fun _ _ => True :=
  Spec.throw fun _ _ => trivial

/-- The operand on top has the width on top, and the others stay. -/
theorem Carries.pop (h : Carries v C loc (w :: ws) s) :
    dec32 s.sp = s.sp - 1 ∧ (s.stack (v.stack.idx (s.sp - 1))).toNat < 2 ^ w ∧
      ∀ log, Carries v C loc ws { s with sp := s.sp - 1, log := log } := by
  have hsp := h.sp
  rw [List.length_cons] at hsp
  have hholds := h.holds
  rw [List.reverse_cons, ← List.append_assoc] at hholds
  obtain ⟨hlow, htop⟩ := Holds.append.mp hholds
  rw [Holds.singleton, List.length_append, List.length_reverse, ← Nat.add_assoc] at htop
  have heq : s.sp - 1 = s.fp + loc.length + ws.length := by omega
  rw [heq]
  exact ⟨heq ▸ dec32_of_pos (by omega), htop, fun _ => ⟨rfl, hlow, h.globals, h.memSize⟩⟩

/-- The popped operand has the width on top. -/
theorem takes_pop {α : Type} {g : Slot → Run α} {Q : α → Mach → Prop}
    (hg : ∀ x : Slot, x.toNat < 2 ^ w → Spec (Carries v C loc ws) (g x) Q fun _ _ => True) :
    Spec (Carries v C loc (w :: ws)) (Run.pop v >>= g) Q fun _ _ => True := by
  intro s hs
  obtain ⟨hdec, htop, hrest⟩ := hs.pop
  rw [bind_apply, Run.pop_apply, hdec]
  exact hg _ htop _ (hrest _)

/-- A pushed operand of the width `w`. -/
theorem takes_push {x : Run Slot}
    (hx : Spec (Carries v C loc ws) x (fun y s => y.toNat < 2 ^ w ∧ Carries v C loc ws s)
      fun _ _ => True) : Takes v C loc ws (w :: ws) (Run.push v x) := by
  intro s hs
  refine ⟨fun _ s' h => ?_, fun _ _ _ => trivial⟩
  rw [Run.push_apply] at h
  split_ifs at h
  cases hxs : x s with
  | error e t =>
    rw [hxs] at h
    cases h
  | ok y t =>
    rw [hxs] at h
    cases h
    obtain ⟨hy, ht⟩ := (hx s hs).1 y t hxs
    have hsp := ht.sp
    refine ⟨?_, ?_, ht.globals, ht.memSize⟩
    · simp only [List.length_cons]
      omega
    · simp only
      rw [List.reverse_cons, ← List.append_assoc]
      refine Holds.append.mpr ⟨ht.holds.moved fun k hk => ?_, ?_⟩
      · rw [List.length_append, List.length_reverse] at hk
        exact Function.update_of_ne (by rw [ne_eq, AoSView.idx_inj]; omega) ..
      · rw [Holds.singleton, List.length_append, List.length_reverse, ← Nat.add_assoc, ← hsp]
        simp only [Function.update_self]
        exact hy

theorem takes_push_pure {x : Slot} (h : x.toNat < 2 ^ w) :
    Takes v C loc ws (w :: ws) (Run.push v (pure x)) :=
  takes_push (Spec.pure fun _ hs => ⟨h, hs⟩)

theorem takes_pair (p : Slot × Slot) : Takes v C loc ws (64 :: 64 :: ws) (Run.pushPair v p) :=
  Spec.bind (Q := fun _ => Carries v C loc (64 :: ws)) (takes_push_pure (BitVec.isLt _)) fun _ =>
    takes_push_pure (BitVec.isLt _)

/-- A test that traps. -/
theorem takes_guard {c : Prop} [Decidable c] {e : Status} {g : PUnit → Run Unit}
    (hg : ¬ c → Takes v C loc ws ws' (g ⟨⟩)) :
    Takes v C loc ws ws' (if c then throw e >>= g else g ⟨⟩) :=
  Spec.guard (fun _ _ _ => trivial) hg

theorem takes_get_bind {α : Type} {g : Mach → Run α} {Q : α → Mach → Prop}
    (hg : ∀ a, Carries v C loc ws a → Spec (Carries v C loc ws) (g a) Q fun _ _ => True) :
    Spec (Carries v C loc ws) (get >>= g) Q fun _ _ => True := by
  intro s hs
  exact hg s hs s hs

end Rules

/-! ## The instructions that go on with the next one -/

section Shapes

variable {v : Views} {m : HostModule} {d : DevModule} {C : Ctx} {loc ps qs r : List Nat}

/-- The integer operators. -/
theorem takes_num (o : NumOp) : Takes v C loc (widths o.pops ++ r) (widths o.pushes ++ r)
    (Run.exec v d ⟨(NumOp.lower o).1, (NumOp.lower o).2.1, 0⟩) := by
  cases hl : (NumOp.lower o).1 with
  | bin b =>
    have hn : o.type.1.1 = 2 ∧ o.type.2.1 = 1 := by cases o <;> first | exact ⟨rfl, rfl⟩ | cases hl
    unfold NumOp.pops NumOp.pushes
    rw [hn.1, hn.2]
    refine takes_pop fun y hy => takes_pop fun x hx => ?_
    cases he : b.eval x y with
    | ok z => exact takes_push_pure (bin_canonical o hl he)
    | error e => exact takes_throw
  | un u =>
    have hn : o.type.1.1 = 1 ∧ o.type.2.1 = 1 := by cases o <;> first | exact ⟨rfl, rfl⟩ | cases hl
    unfold NumOp.pops NumOp.pushes
    rw [hn.1, hn.2]
    exact takes_pop fun x hx => takes_push_pure (un_canonical o hl x)
  | clz =>
    cases o <;> cases hl
    · exact takes_pop fun x hx => takes_push_pure (clz_canonical .i32 (.inl rfl) x)
    · exact takes_pop fun x hx => takes_push_pure (clz_canonical .i64 (.inr rfl) x)
  | i64MulWideU | i64MulWideS =>
    cases o <;> cases hl
    exact takes_pop fun _ _ => takes_pop fun _ _ => takes_pair _
  | i64Add128 | i64Sub128 =>
    cases o <;> cases hl
    exact takes_pop fun _ _ => takes_pop fun _ _ => takes_pop fun _ _ => takes_pop fun _ _ =>
      takes_pair _
  | _ => cases o <;> cases hl

theorem takes_localGet {a w : Nat} (h : loc[a]? = some w) :
    Takes v C loc r (w :: r) (Run.exec v d ⟨.localGet, a, 0⟩) := by
  refine takes_push (Spec.get_bind fun s hs => ?_)
  rintro _ rfl
  refine ⟨fun x t ht => ?_, fun _ _ _ => trivial⟩
  cases ht
  refine ⟨hs.holds a w ?_, hs.congr rfl rfl rfl rfl hs.memSize⟩
  rw [List.getElem?_append_left (List.getElem?_eq_some_iff.mp h).1, h]

theorem takes_localSet {a w w' : Nat} (h : loc[a]? = some w') (hw : w ≤ w') :
    Takes v C loc (w :: r) r (Run.exec v d ⟨.localSet, a, 0⟩) := by
  refine takes_pop fun x hx => Spec.get_bind fun s hs => ?_
  rintro _ rfl
  refine ⟨fun _ t ht => ?_, fun _ _ _ => trivial⟩
  cases ht
  refine ⟨hs.sp, hs.holds.set ?_ (hx.trans_le (Nat.pow_le_pow_right (by norm_num) hw)) rfl,
    hs.globals, hs.memSize⟩
  rw [List.getElem?_append_left (List.getElem?_eq_some_iff.mp h).1, h]

theorem takes_globalGet {b : Nat} {p : ValType × Bool} (h : C.globals[b]? = some p) :
    Takes v C loc r (p.1.width :: r) (Run.globalGet v b) := by
  unfold Run.globalGet
  refine takes_guard fun _ => takes_push (Spec.bind (takes_modify fun _ => by simp) fun _ => ?_)
  exact takes_get_bind fun s hs => Spec.pure fun _ ht => ⟨hs.globals b p h, ht⟩

theorem takes_globalSet {b : Nat} {p : ValType × Bool} (h : C.globals[b]? = some p) :
    Takes v C loc (p.1.width :: r) r (Run.globalSet v b) := by
  unfold Run.globalSet
  refine takes_guard fun _ => takes_pop fun x hx => Spec.bind (takes_modify fun _ => by simp) fun _ =>
    Spec.modify fun s hs => ⟨hs.sp, hs.holds, fun k q hk => ?_, hs.memSize⟩
  by_cases hkb : k = b
  · subst hkb
    rw [h] at hk
    cases hk
    simp only [Function.update_self]
    exact hx
  · simp only
    rw [Function.update_of_ne (by omega)]
    exact hs.globals k q hk

/-- The value that `OP_LOAD` builds from the loaded bytes. -/
theorem load_canonical (o : LoadOp) (x : Slot) :
    Canonical o.type
      (if LoadOp.lower o &&& 0x10 ≠ 0 then
        if LoadOp.lower o &&& 0x20 ≠ 0 then sext64 x ((LoadOp.lower o &&& 0xf) * 8)
        else slot32 (u32 (sext64 x ((LoadOp.lower o &&& 0xf) * 8)))
      else if ¬ LoadOp.lower o &&& 0x20 ≠ 0 ∧ LoadOp.lower o &&& 0xf < 8 then slot32 (u32 x)
      else x) := by
  by_cases hw : o.type.width = 64
  · exact wide_canonical hw _
  · cases o <;> first | exact absurd rfl hw | exact slot32_canonical _

theorem takes_load (o : LoadOp) (off w : Nat) :
    Takes v C loc (w :: r) (o.type.width :: r) (Run.load v (LoadOp.lower o) off) := by
  refine takes_pop fun x _ => takes_get_bind fun _ _ => takes_guard fun _ => ?_
  refine Spec.bind (takes_modify fun _ => by simp) fun _ => takes_get_bind fun s _ => ?_
  exact takes_push_pure (load_canonical o _)

theorem takes_store (a off w w' : Nat) : Takes v C loc (w :: w' :: r) r (Run.store v a off) := by
  refine takes_pop fun x _ => takes_pop fun y _ => takes_get_bind fun _ _ => takes_guard fun _ => ?_
  exact Spec.bind (takes_modify fun _ => by simp) fun _ => takes_modify fun _ => by simp

theorem pages_lt {n : Nat} (h : n < 2 ^ 32) : (BitVec.ofNat 64 (n / WASM_PAGE)).toNat < 2 ^ 32 := by
  have hle := Nat.div_le_self n WASM_PAGE
  generalize n / WASM_PAGE = k at hle
  rw [BitVec.toNat_ofNat]
  omega

theorem takes_memorySize : Takes v C loc r (32 :: r) (Run.exec v d ⟨.memorySize, 0, 0⟩) := by
  refine takes_get_bind fun s hs => takes_push_pure ?_
  exact pages_lt hs.memSize

theorem takes_memoryGrow (w : Nat) : Takes v C loc (w :: r) (32 :: r) (Run.memoryGrow v) := by
  refine takes_pop fun x _ => takes_get_bind fun s hs => Spec.ite (fun _ => ?_) fun _ => ?_
  · exact takes_push_pure (slot32_canonical (t := .i32) _)
  · refine Spec.bind (Q := fun _ => Carries v C loc r) (Spec.modify fun t ht => ?_) fun _ =>
      takes_push_pure ?_
    · exact ht.congr rfl rfl rfl rfl (Nat.mod_lt _ (by norm_num))
    · exact pages_lt hs.memSize

/-- Every instruction of the flat shape; those that access a local need room for an operand. -/
theorem takes_shape {i : CuOp} (hs : Shape m C loc i ps qs) (hd : d.consts = m.consts)
    (hroom : ∀ k, localOf i = some k → loc.length < 65535) :
    Takes v C loc (ps ++ r) (qs ++ r) (Run.exec v d i) := by
  cases hs with
  | const h =>
    refine takes_push_pure ?_
    rw [hd]
    exact h
  | localGet h => exact takes_localGet (h (hroom _ rfl))
  | localSet h hw => exact takes_localSet (h (hroom _ rfl)) hw
  | num o => exact takes_num o
  | drop w => exact takes_pop fun _ _ => Spec.pure fun _ hs => hs
  | select c w =>
    refine takes_pop fun z _ => takes_pop fun y hy => takes_pop fun x hx => takes_push_pure ?_
    split_ifs
    · exact hx
    · exact hy
  | globalGet h => exact takes_globalGet h
  | globalSet h => exact takes_globalSet h
  | load o off w => exact takes_load o off w
  | store a off w w' => exact takes_store a off w w'
  | memorySize => exact takes_memorySize
  | memoryGrow w => exact takes_memoryGrow w
  | memoryCopy w w' w'' =>
    refine takes_pop fun _ _ => takes_pop fun _ _ => takes_pop fun _ _ => takes_get_bind fun _ _ =>
      takes_guard fun _ => ?_
    refine Spec.bind (takes_modify fun _ => by simp) fun _ =>
      Spec.bind (takes_modify fun _ => by simp) fun _ => takes_modify fun _ => by simp
  | memoryFill w w' w'' =>
    refine takes_pop fun _ _ => takes_pop fun _ _ => takes_pop fun _ _ => takes_get_bind fun _ _ =>
      takes_guard fun _ => ?_
    exact Spec.bind (takes_modify fun _ => by simp) fun _ => takes_modify fun _ => by simp
  | memoryInit a w w' w'' =>
    refine takes_pop fun _ _ => takes_pop fun _ _ => takes_pop fun _ _ => takes_guard fun _ => ?_
    refine Spec.bind (takes_modify fun _ => by simp) fun _ => takes_get_bind fun _ _ =>
      takes_get_bind fun _ _ => takes_guard fun _ => ?_
    exact Spec.bind (takes_modify fun _ => by simp) fun _ => takes_modify fun _ => by simp
  | dataDrop a =>
    show Takes v C loc _ _ (Run.dataDrop v a)
    unfold Run.dataDrop
    refine takes_guard fun _ => ?_
    exact Spec.bind (takes_modify fun _ => by simp) fun _ => takes_modify fun _ => by simp

theorem Structured.Shape.transfers {i : CuOp} (hs : Shape m C loc i ps qs) : Run.transfers i.op = false := by
  cases hs with
  | num o => cases o <;> rfl
  | _ => rfl

/-- The rule of a return. -/
theorem Structured.WidthOk.returns {K : Nat → List Nat} {n : Nat} {i : CuOp} (h : WidthOk m C loc K n i)
    (hop : i.op = .ret ∨ i.op = .endFunc) : ∃ r, K n = widths C.results.reverse ++ r := by
  cases h with
  | plain hs =>
    have ht := hs.transfers
    rcases hop with hop | hop <;> rw [hop] at ht <;> cases ht
  | leave _ hn => exact ⟨_, hn⟩
  | unreachable hop' => rcases hop with hop | hop <;> rw [hop] at hop' <;> cases hop'
  | unwind | br | brIfNot | call | callIndirect | returnCall => rcases hop with hop | hop <;> cases hop

/-- The rule of `OP_GLOBAL_SET`. -/
theorem Structured.WidthOk.sets {K : Nat → List Nat} {n : Nat} {i : CuOp} (h : WidthOk m C loc K n i)
    (hop : i.op = .globalSet) : ∃ b p r, i = ⟨.globalSet, 0, b⟩ ∧ C.globals[b]? = some p ∧
      K n = p.1.width :: r := by
  cases h with
  | plain hs hn =>
    cases hs with
    | globalSet hp => exact ⟨_, _, _, rfl, hp, hn⟩
    | num o => cases o <;> cases hop
    | _ => cases hop
  | leave hop' => rcases hop' with hop' | hop' <;> rw [hop] at hop' <;> cases hop'
  | unreachable hop' =>
    rw [hop] at hop'
    cases hop'
  | unwind | br | brIfNot | call | callIndirect | returnCall => cases hop

/-- A trap of `OP_GLOBAL_SET` comes before the assignment. -/
theorem globalSet_error {b : Nat} {e : Status} {s t : Mach} (h : Run.globalSet v b s = .error e t) :
    t.globals = s.globals := by
  simp only [Run.globalSet, ite_run, bind_apply, throw_apply, Run.pop_apply, Run.touch_apply,
    modify_apply] at h
  split_ifs at h
  cases h
  rfl

end Shapes

/-! ## The instructions that drop operands or branch -/

section Control

variable {v : Views} {C : Ctx} {loc top mid low r : List Nat} {s t : Mach}

open BlockMove in
/-- The operands that `OP_UNWIND` keeps move down onto those below the label. -/
theorem carries_unwind {a b : Nat} {u : Unit} (hc : Carries v C loc (top ++ (mid ++ low)) s)
    (ha : a = top.length) (hb : b = loc.length + (low.length + a)) (hsmall : s.sp < 2 ^ 31)
    (ht : Run.unwind v a b s = .ok u t) : Carries v C loc (top ++ low) t := by
  have hsp := hc.sp
  rw [List.length_append, List.length_append] at hsp
  have hdest : (s.fp + b) % 2 ^ 32 = s.fp + b := Nat.mod_eq_of_lt (by omega)
  rw [Run.unwind_apply, hdest] at ht
  split_ifs at ht
  all_goals
    cases ht
    have hholds := hc.holds
    rw [List.reverse_append, List.reverse_append, List.append_assoc, ← List.append_assoc] at hholds
    obtain ⟨hlow, hholds⟩ := Holds.append.mp hholds
    obtain ⟨-, htop⟩ := Holds.append.mp hholds
    rw [List.length_append, List.length_reverse, List.length_reverse] at htop
    have hdst : s.fp + (loc ++ low.reverse).length = s.fp + b - a := by
      rw [List.length_append, List.length_reverse]
      omega
    refine ⟨?_, ?_, hc.globals, hc.memSize⟩
    · simp only [List.length_append]
      omega
    · rw [List.reverse_append, ← List.append_assoc]
      refine Holds.append.mpr ⟨hlow.moved fun k hk => ?_, htop.moved fun k hk => ?_⟩
      · rw [List.length_append, List.length_reverse] at hk
        exact blockMove_of_not_mem _ (.inl (v.stack.idx_lt.mpr (by simp only; omega)))
      · rw [List.length_reverse] at hk
        have hmove : blockMove s.stack (v.stack.idx (s.fp + b - a)) (v.stack.idx (s.sp - a)) a
            (v.stack.idx (s.fp + b - a) + k) = s.stack (v.stack.idx (s.sp - a) + k) :=
          blockMove_of_mem s.stack (by omega)
        have hidx (x y : Nat) : v.stack.idx (x + y) = v.stack.idx x + y := by
          simp only [AoSView.idx]
          omega
        simp only [hdst]
        rw [hidx, hmove, ← hidx]
        congr 2
        omega

open BlockMove Run in
/-- The machine behind `OP_RETURN_CALL`: the arguments have moved to the frame base, and zeros follow. -/
theorem returnCall_state {f : FuncMeta} {u : Unit} (hx : returnCall v f s = .ok u t) :
    f.nParams ≤ s.sp ∧ t.pc = f.codeOff ∧ t.fp = s.fp ∧ t.csp = s.csp ∧
      t.sp = s.fp + f.nParams + f.nLocals ∧
      (∀ i, i < f.nParams →
        t.stack (v.stack.idx (s.fp + i)) = s.stack (v.stack.idx (s.sp - f.nParams + i))) ∧
      ∀ i, i < f.nLocals → t.stack (v.stack.idx (s.fp + f.nParams + i)) = 0 := by
  rw [returnCall_apply, pushZeros_apply] at hx
  split_ifs at hx with hle
  cases hx
  have hidx (x y : Nat) : v.stack.idx (x + y) = v.stack.idx x + y := by
    simp only [AoSView.idx]
    omega
  unfold retargeted
  refine ⟨by omega, rfl, ?_, ?_, ?_, fun i hi => ?_, fun i hi => ?_⟩
  · split_ifs <;> rfl
  · split_ifs <;> rfl
  · split_ifs <;> rfl
  · have hmove : fillAsc (rebased v f s).stack (v.stack.idx (rebased v f s).sp) (fun _ => 0) f.nLocals
        (v.stack.idx (s.fp + i)) = s.stack (v.stack.idx (s.sp - f.nParams + i)) := by
      rw [fillAsc_apply, if_neg (by simp only [rebased, AoSView.idx]; omega), hidx, hidx]
      exact blockMove_of_mem _ hi
    split_ifs <;> exact hmove
  · have hzero : fillAsc (rebased v f s).stack (v.stack.idx (rebased v f s).sp) (fun _ => 0) f.nLocals
        (v.stack.idx (s.fp + f.nParams + i)) = 0 := by
      rw [fillAsc_apply, if_pos (by simp only [rebased, AoSView.idx]; omega)]
    split_ifs <;> exact hzero

end Control

end CuWasm
