import CuWasm.Canonical
import CuWasm.Proofs.WideProofs

/-!
# The opcodes of the integer operators

Every integer operator is lowered to one opcode. On any slots, that opcode leaves the results that the
operator has on the low parts of the slots, or the status of its trap, and 32-bit results are
canonical.
-/

namespace CuWasm

open Wasm Numeric Run

/-! ## One operand -/

theorem slotBool_zero {w : Nat} (y : BitVec w) :
    slotBool (y == 0) = BitVec.ofNat 64 (Numeric.bool (y.toNat = 0)) := by
  rw [← slotBool_eq]
  congr 1
  by_cases h : y = 0
  · simp [h]
  · rw [beq_eq_false_iff_ne.mpr h]
    simpa using mt (toNat_eq_zero y).mpr h

theorem signExtend_extendS (x : Slot) :
    (u32 x).signExtend 64 = BitVec.ofNat 64 (extendS 64 32 x.toNat) := by
  have h : ((u32 x).signExtend 64).toNat = extendS 64 32 x.toNat := by
    rw [toNat_eq_unsigned, BitVec.toInt_signExtend_of_le (by norm_num),
      toInt_eq_signed (by norm_num)]
    simp only [extendS, ← operand_i32]
    rfl
  rw [← h]
  exact slot_eq _

/-- The one-operand opcodes compute the operators they are emitted for. -/
theorem un_apply (o : NumOp) {u : UnOp} (hu : (NumOp.lower o).1 = .un u) (x : Slot) :
    (.ok [u.eval x] : Except Status (List Slot)) = slots (o.apply [operand o.type.1.2 x]) := by
  have h32 : operand .i32 x = x.toNat % 2 ^ 32 := rfl
  have hmod : x.toNat % 2 ^ 32 % 2 ^ 32 = x.toNat % 2 ^ 32 := Nat.mod_mod _ _
  cases o <;> cases hu <;> simp only [UnOp.eval, NumOp.apply, NumOp.type, List.getD_cons_zero, slots,
    List.map_cons, List.map_nil]
  case i32Eqz => rw [slotBool_zero, operand_i32]
  case i64Eqz => rw [slotBool_zero, operand_i64]
  case i32WrapI64 => rw [slot32_eq, ← operand_i32, h32, operand_i64]
  case i64ExtendI32U => rw [slot32_eq, ← operand_i32]
  case i64Extend32S => rw [signExtend_extendS, operand_i64]
  case i64ExtendI32S =>
    rw [signExtend_extendS, h32]
    simp only [extendS, hmod]

/-! ## Two results -/

theorem wide_lt (lo hi : Slot) : wide lo hi < 2 ^ 128 := by
  have h1 := lo.isLt
  have h2 := hi.isLt
  unfold wide
  omega

/-- The two words of a number. -/
theorem halves_wide (lo hi : Slot) :
    (.ok [lo, hi] : Except Status (List Slot)) = slots (.ok (halves 64 (wide lo hi))) := by
  have h1 := lo.isLt
  have h2 := hi.isLt
  have hlo : wide lo hi % 2 ^ 64 = lo.toNat := by
    unfold wide
    omega
  have hhi : wide lo hi / 2 ^ 64 % 2 ^ 64 = hi.toNat := by
    unfold wide
    omega
  simp only [slots, halves, hlo, hhi, List.map_cons, List.map_nil, ← slot_eq]

theorem mulWideS_wide (a b : Slot) :
    wide (mulWideS a b).1 (mulWideS a b).2 = unsigned 128 (a.toInt * b.toInt) := by
  have hexact := mulWideS_exact a b
  have hlt := wide_lt (mulWideS a b).1 (mulWideS a b).2
  have hhi := toInt_eq_sub (mulWideS a b).2
  have heq : (wide (mulWideS a b).1 (mulWideS a b).2 : Int) =
      a.toInt * b.toInt + 2 ^ 128 * (mulWideS a b).2.msb.toInt := by
    rw [← hexact, hhi]
    unfold wide
    push_cast
    ring
  unfold unsigned
  generalize a.toInt * b.toInt = p at heq ⊢
  have hp : p % 2 ^ 128 = wide (mulWideS a b).1 (mulWideS a b).2 := by omega
  rw [hp]
  rfl

theorem sub128_wide (a b c d : Slot) :
    wide (sub128 a b c d).1 (sub128 a b c d).2 = isub 128 (wide a b) (wide c d) := by
  have h := sub128_exact a b c d
  have h1 := wide_lt a b
  have h2 := wide_lt c d
  have h3 := wide_lt (sub128 a b c d).1 (sub128 a b c d).2
  unfold isub
  omega

/-! ## Every operator -/

section Exec

variable {v : Views} {m : DevModule} {i : CuOp} {s : Mach}

theorem onTop_one {xs : List Slot} (h : OnTop v s xs) (hlen : xs.length = 1) :
    ∃ x, xs = [x] ∧ OnTop v s [x] := by
  obtain ⟨x, rfl⟩ := List.length_eq_one_iff.mp hlen
  exact ⟨x, rfl, h⟩

theorem onTop_two {xs : List Slot} (h : OnTop v s xs) (hlen : xs.length = 2) :
    ∃ x y, xs = [x, y] ∧ OnTop v s [x, y] := by
  obtain ⟨x, y, rfl⟩ := List.length_eq_two.mp hlen
  exact ⟨x, y, rfl, h⟩

/-- On the slots `xs`, the opcode of an integer operator leaves the results of the operator on the low
parts of the slots. -/
theorem numOp_yields (o : NumOp) {xs : List Slot} (hop : i.op = (NumOp.lower o).1)
    (ha : i.a = (NumOp.lower o).2.1) (hlen : xs.length = o.type.1.1) (h : OnTop v s xs) :
    Yields v o.type.1.1 (slots (o.apply (xs.map (operand o.type.1.2)))) s (exec v m i s) := by
  cases hl : (NumOp.lower o).1 with
  | bin b =>
    have hn : o.type.1.1 = 2 := by cases o <;> first | rfl | cases hl
    obtain ⟨x, y, rfl, h⟩ := onTop_two h (hlen.trans hn)
    rw [List.map_cons, List.map_cons, List.map_nil, ← bin_apply o hl x y, hn]
    exact exec_bin (hop.trans hl) h
  | un u =>
    have hn : o.type.1.1 = 1 := by cases o <;> first | rfl | cases hl
    obtain ⟨x, rfl, h⟩ := onTop_one h (hlen.trans hn)
    rw [List.map_cons, List.map_nil, ← un_apply o hl x, hn]
    exact exec_un (hop.trans hl) h
  | clz =>
    cases o <;> cases hl
    all_goals
      obtain ⟨x, rfl, h⟩ := onTop_one h hlen
      have hy := exec_clz (m := m) hop h
      rw [ha] at hy
      simp only [NumOp.lower] at hy
      first
      | rw [clz_iclz (.inl rfl)] at hy
        exact hy
      | rw [clz_iclz (.inr rfl)] at hy
        exact hy
  | i64MulWideU =>
    cases o <;> cases hl
    obtain ⟨x, y, rfl, h⟩ := onTop_two h hlen
    have hy := exec_mulWideU (m := m) hop h
    rw [halves_wide, mulWideU_exact, ← operand_i64 x, ← operand_i64 y] at hy
    exact hy
  | i64MulWideS =>
    cases o <;> cases hl
    obtain ⟨x, y, rfl, h⟩ := onTop_two h hlen
    have hy := exec_mulWideS (m := m) hop h
    rw [halves_wide, mulWideS_wide, toInt_eq_signed (by norm_num), toInt_eq_signed (by norm_num),
      ← operand_i64 x, ← operand_i64 y] at hy
    exact hy
  | i64Add128 =>
    cases o <;> cases hl
    obtain ⟨x, y, z, w, rfl⟩ := List.length_eq_four.mp hlen
    have hy := exec_add128 (m := m) hop h
    rw [halves_wide, add128_exact] at hy
    simp only [NumOp.apply, NumOp.type, List.map_cons, List.map_nil, List.getD_cons_zero,
      List.getD_cons_succ, operand_i64]
    exact hy
  | i64Sub128 =>
    cases o <;> cases hl
    obtain ⟨x, y, z, w, rfl⟩ := List.length_eq_four.mp hlen
    have hy := exec_sub128 (m := m) hop h
    rw [halves_wide, sub128_wide] at hy
    simp only [NumOp.apply, NumOp.type, List.map_cons, List.map_nil, List.getD_cons_zero,
      List.getD_cons_succ, operand_i64]
    exact hy
  | _ => cases o <;> cases hl

end Exec

/-! ## Canonical results -/

theorem canonical_of_lt (t : ValType) {x : Slot} (h : x.toNat < 2 ^ 32) : Canonical t x := by
  have hw : 32 ≤ t.width := by
    cases t <;> simp [ValType.width]
  exact h.trans_le (Nat.pow_le_pow_right (by norm_num) hw)

theorem slot32_canonical {t : ValType} (x : BitVec 32) : Canonical t (slot32 x) := by
  refine canonical_of_lt t ?_
  have hx := x.isLt
  rw [slot32_eq, BitVec.toNat_ofNat]
  omega

theorem slotBool_canonical {t : ValType} (b : Bool) : Canonical t (slotBool b) := by
  refine canonical_of_lt t ?_
  cases b <;> decide

theorem wide_canonical {t : ValType} (ht : t.width = 64) (x : Slot) : Canonical t x := by
  unfold Canonical
  rw [ht]
  exact x.isLt

/-- A two-operand opcode leaves a canonical result. -/
theorem bin_canonical (o : NumOp) {b : BinOp} (hb : (NumOp.lower o).1 = .bin b) {x y r : Slot}
    (h : b.eval x y = .ok r) : Canonical o.type.2.2 r := by
  have hmap {e : Except Status (BitVec 32)} (h : e.map slot32 = .ok r) : Canonical .i32 r := by
    cases e with
    | error e => cases h
    | ok z =>
      cases h
      exact slot32_canonical z
  cases o <;> cases hb <;> simp only [BinOp.eval, Except.ok.injEq] at h <;>
    first
    | exact wide_canonical rfl r
    | exact hmap h
    | (subst h; exact slotBool_canonical _)
    | (subst h; exact slot32_canonical _)

/-- So does a one-operand opcode. -/
theorem un_canonical (o : NumOp) {u : UnOp} (hu : (NumOp.lower o).1 = .un u) (x : Slot) :
    Canonical o.type.2.2 (u.eval x) := by
  cases o <;> cases hu <;>
    first
    | exact wide_canonical rfl _
    | exact slotBool_canonical _
    | exact slot32_canonical _

theorem clz_canonical (t : ValType) {bits : Nat} (hb : bits = 32 ∨ bits = 64) (x : Slot) :
    Canonical t (clz bits x) := by
  have hle : iclz bits (x.toNat % 2 ^ bits) ≤ 64 := by
    unfold iclz
    omega
  refine canonical_of_lt t ?_
  rw [clz_iclz hb, BitVec.toNat_ofNat]
  omega

/-- The results of an operator are canonical. -/
theorem numOp_canonical (o : NumOp) {xs ys : List Slot} (hlen : xs.length = o.type.1.1)
    (h : slots (o.apply (xs.map (operand o.type.1.2))) = .ok ys) :
    ∀ y ∈ ys, Canonical o.type.2.2 y := by
  intro y hy
  by_cases ht : o.type.2.2.width = 64
  · exact wide_canonical ht y
  cases hl : (NumOp.lower o).1 with
  | bin b =>
    have hn : o.type.1.1 = 2 := by cases o <;> first | rfl | cases hl
    obtain ⟨x, z, rfl⟩ := List.length_eq_two.mp (hlen.trans hn)
    rw [List.map_cons, List.map_cons, List.map_nil, ← bin_apply o hl x z] at h
    cases he : b.eval x z with
    | error e =>
      rw [he] at h
      cases h
    | ok r =>
      rw [he] at h
      cases h
      rw [List.mem_singleton.mp hy]
      exact bin_canonical o hl he
  | un u =>
    have hn : o.type.1.1 = 1 := by cases o <;> first | rfl | cases hl
    obtain ⟨x, rfl⟩ := List.length_eq_one_iff.mp (hlen.trans hn)
    rw [List.map_cons, List.map_nil, ← un_apply o hl x] at h
    cases h
    rw [List.mem_singleton.mp hy]
    exact un_canonical o hl x
  | clz =>
    cases o <;> cases hl
    · obtain ⟨x, rfl⟩ := List.length_eq_one_iff.mp hlen
      have h' : (.ok [BitVec.ofNat 64 (iclz 32 (x.toNat % 2 ^ 32))] :
        Except Status (List Slot)) = .ok ys := h
      rw [← clz_iclz (.inl rfl)] at h'
      cases h'
      rw [List.mem_singleton.mp hy]
      exact clz_canonical _ (.inl rfl) x
    · exact absurd rfl ht
  | _ => cases o <;> cases hl <;> exact absurd rfl ht

/-! ## Traps -/

/-- The quotient of slots is out of range exactly for the minimum divided by `-1`. -/
theorem idivS_overflow {w : Nat} (hw : 0 < w) (x y : BitVec w) :
    idivS w x.toNat y.toNat = .error .intOverflow ↔
      x.toNat = 2 ^ (w - 1) ∧ y.toNat = 2 ^ w - 1 := by
  have hmin : (BitVec.intMin w).toNat = 2 ^ (w - 1) := by
    rw [BitVec.toNat_intMin, Nat.mod_eq_of_lt (Nat.pow_lt_pow_right (by norm_num) (by omega))]
  have hones : (-1 : BitVec w).toNat = 2 ^ w - 1 := by
    rw [show (-1 : BitVec w) = BitVec.allOnes w from BitVec.neg_one_eq_allOnes, BitVec.toNat_allOnes]
  have hover := tdiv_overflow hw x y
  rw [← BitVec.toNat_inj, ← BitVec.toNat_inj, hmin, hones] at hover
  rw [← hover]
  unfold idivS
  by_cases hy : y.toNat = 0
  · rw [if_pos hy]
    refine iff_of_false nofun fun h => ?_
    have hzero : signed w 0 = 0 := if_pos (Nat.two_pow_pos _)
    rw [hy, hzero, Int.tdiv_zero] at h
    exact absurd h.symm (by positivity)
  · rw [if_neg hy]
    by_cases h : (signed w x.toNat).tdiv (signed w y.toNat) = 2 ^ (w - 1)
    · rw [if_pos h]
      exact iff_of_true rfl h
    · rw [if_neg h]
      exact iff_of_false nofun h

theorem map_error {x : Except Trap Nat} {f : Nat → List Nat} {e : Trap} :
    x.map f = .error e ↔ x = .error e := by
  cases x <;> simp [Except.map]

theorem idivS_zero {w a b : Nat} : idivS w a b = .error .divByZero ↔ b = 0 := by
  unfold idivS
  split_ifs <;> simp_all

theorem iremS_traps {w a b : Nat} {e : Trap} :
    iremS w a b = .error e ↔ e = .divByZero ∧ b = 0 := by
  unfold iremS
  split_ifs <;> simp_all [eq_comm]

theorem idivU_traps {a b : Nat} {e : Trap} : idivU a b = .error e ↔ e = .divByZero ∧ b = 0 := by
  unfold idivU
  split_ifs <;> simp_all [eq_comm]

theorem iremU_traps {a b : Nat} {e : Trap} : iremU a b = .error e ↔ e = .divByZero ∧ b = 0 := by
  unfold iremU
  split_ifs <;> simp_all [eq_comm]

/-- An operator traps exactly for a division by zero and for the minimum divided by `-1`. -/
theorem numOp_traps (o : NumOp) {xs : List Slot} (hlen : xs.length = o.type.1.1) :
    (o.apply (xs.map (operand o.type.1.2)) = .error .divByZero ↔
      o.divides = true ∧ operand o.type.1.2 (xs.getD 1 0) = 0) ∧
    (o.apply (xs.map (operand o.type.1.2)) = .error .intOverflow ↔
      (o = .i32DivS ∨ o = .i64DivS) ∧
        operand o.type.1.2 (xs.getD 0 0) = 2 ^ (o.type.1.2.width - 1) ∧
        operand o.type.1.2 (xs.getD 1 0) = 2 ^ o.type.1.2.width - 1) := by
  by_cases hd : o.divides = true
  · have hn : o.type.1.1 = 2 := by cases o <;> first | rfl | cases hd
    obtain ⟨x, y, rfl⟩ := List.length_eq_two.mp (hlen.trans hn)
    cases o with
    | i32DivS =>
      simp only [NumOp.apply, List.map_cons, List.map_nil, List.getD_cons_zero, List.getD_cons_succ,
        map_error, idivS_zero, NumOp.type, operand_i32, idivS_overflow (show 0 < 32 by norm_num)]
      simp [NumOp.divides, ValType.width]
    | i64DivS =>
      simp only [NumOp.apply, List.map_cons, List.map_nil, List.getD_cons_zero, List.getD_cons_succ,
        map_error, idivS_zero, NumOp.type, operand_i64, idivS_overflow (show 0 < 64 by norm_num)]
      simp [NumOp.divides, ValType.width]
    | i32DivU | i32RemS | i32RemU | i64DivU | i64RemS | i64RemU =>
      simp only [NumOp.apply, List.map_cons, List.map_nil, List.getD_cons_zero, List.getD_cons_succ,
        map_error, idivU_traps, iremU_traps, iremS_traps]
      simp [NumOp.divides]
    | _ => cases hd
  · cases o <;> first | exact absurd rfl hd | simp [NumOp.apply, NumOp.divides]

end CuWasm
