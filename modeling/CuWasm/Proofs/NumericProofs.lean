import CuWasm.Lower
import CuWasm.Operands
import CuWasm.Proofs.OperandProofs
import Mathlib.Tactic.Ring
import Mathlib.Tactic.NormNum
import Mathlib.Tactic.Positivity

/-!
# The integer operators compute what Wasm says

The cases of `run_instance` work with casts and masks on 64-bit slots. For words of any width, each
C++ operator is compared with the operator of the specification on numbers; the operators of both
widths then follow by reading the operands out of their slots.
-/

namespace CuWasm

open Wasm Numeric Run

section Width
variable {w : Nat}

theorem toInt_eq_signed (hw : 0 < w) (x : BitVec w) : x.toInt = signed w x.toNat := by
  have hp : 2 ^ w = 2 * 2 ^ (w - 1) := by
    rw [← pow_succ', Nat.sub_add_cancel hw]
  unfold signed
  rw [BitVec.toInt_eq_toNat_cond]
  split_ifs
  · rfl
  · omega
  · omega
  · norm_cast

theorem toNat_eq_unsigned (x : BitVec w) : x.toNat = unsigned w x.toInt := by
  have h := BitVec.toNat_ofInt (n := w) x.toInt
  rw [BitVec.ofInt_toInt] at h
  exact_mod_cast h

theorem toNat_isub (x y : BitVec w) : (x - y).toNat = isub w x.toNat y.toNat := by
  have hy := y.isLt
  unfold isub
  rw [BitVec.toNat_sub]
  congr 1
  omega

theorem toNat_ishrS (hw : 0 < w) (x : BitVec w) (n : Nat) :
    (x.sshiftRight n).toNat = unsigned w (signed w x.toNat / 2 ^ n) := by
  rw [toNat_eq_unsigned, BitVec.toInt_sshiftRight, Int.shiftRight_eq_div_pow, toInt_eq_signed hw]
  norm_cast

theorem toNat_shl (x : BitVec w) (n : Nat) : (x <<< n).toNat = x.toNat * 2 ^ n % 2 ^ w := by
  rw [BitVec.toNat_shiftLeft, Nat.shiftLeft_eq]

theorem toNat_shr (x : BitVec w) (n : Nat) : (x >>> n).toNat = x.toNat / 2 ^ n := by
  rw [BitVec.toNat_ushiftRight, Nat.shiftRight_eq_div_pow]

theorem toNat_mask {k : Nat} {x m : BitVec w} (hm : m.toNat = 2 ^ k - 1) :
    (x &&& m).toNat = x.toNat % 2 ^ k := by
  rw [BitVec.toNat_and, hm, Nat.and_two_pow_sub_one_eq_mod]

theorem toNat_eq_zero (y : BitVec w) : y = 0 ↔ y.toNat = 0 := by
  rw [← BitVec.toNat_inj]
  simp

theorem divU_idivU (x y : BitVec w) :
    (divU x y).map BitVec.toNat = (idivU x.toNat y.toNat).mapError trapStatus := by
  unfold divU idivU
  have h0 := toNat_eq_zero y
  simp only [h0]
  split_ifs
  · rfl
  · simp [Except.map, Except.mapError, BitVec.toNat_udiv]

theorem remU_iremU (x y : BitVec w) :
    (remU x y).map BitVec.toNat = (iremU x.toNat y.toNat).mapError trapStatus := by
  unfold remU iremU
  have h0 := toNat_eq_zero y
  simp only [h0]
  split_ifs
  · rfl
  · simp [Except.map, Except.mapError, BitVec.toNat_umod]


theorem toInt_minusOne (hw : 0 < w) : (-1 : BitVec w).toInt = -1 := by
  rw [show (-1 : BitVec w) = BitVec.allOnes w from BitVec.neg_one_eq_allOnes, BitVec.toInt_allOnes,
    if_pos hw]

/-- The quotient is out of range exactly for the minimum divided by `-1`. -/
theorem tdiv_overflow (hw : 0 < w) (x y : BitVec w) :
    (signed w x.toNat).tdiv (signed w y.toNat) = 2 ^ (w - 1) ↔ x = BitVec.intMin w ∧ y = -1 := by
  rw [← toInt_eq_signed hw, ← toInt_eq_signed hw]
  by_cases h : x = BitVec.intMin w ∧ y = -1
  · refine iff_of_true ?_ h
    rw [h.1, h.2, BitVec.toInt_intMin_of_pos hw, toInt_minusOne hw]
    simp
  · refine iff_of_false (fun hq => ?_) h
    have h' : x ≠ BitVec.intMin w ∨ y ≠ -1#w := by
      by_contra hc
      push Not at hc
      exact h hc
    have hlt := BitVec.toInt_lt (x := x.sdiv y)
    rw [BitVec.toInt_sdiv_of_ne_or_ne x y h', hq] at hlt
    exact lt_irrefl _ hlt

theorem divS_idivS (hw : 0 < w) (x y : BitVec w) :
    (divS x y).map BitVec.toNat = (idivS w x.toNat y.toNat).mapError trapStatus := by
  unfold divS idivS
  have h0 := toNat_eq_zero y
  simp only [h0, tdiv_overflow hw]
  split_ifs with h1 h2
  · rfl
  · rfl
  · have h' : x ≠ BitVec.intMin w ∨ y ≠ -1#w := by
      by_contra hc
      push Not at hc
      exact h2 hc
    simp only [Except.map, Except.mapError]
    rw [toNat_eq_unsigned, BitVec.toInt_sdiv_of_ne_or_ne x y h', toInt_eq_signed hw,
      toInt_eq_signed hw]

theorem remS_iremS (hw : 0 < w) (x y : BitVec w) :
    (remS x y).map BitVec.toNat = (iremS w x.toNat y.toNat).mapError trapStatus := by
  unfold remS iremS
  have h0 := toNat_eq_zero y
  simp only [h0]
  rw [← toInt_eq_signed hw, ← toInt_eq_signed hw, ← BitVec.toInt_srem, ← toNat_eq_unsigned]
  split_ifs with h1 h2
  · rfl
  · have hz : x.srem y = 0 := by
      apply BitVec.eq_of_toInt_eq
      rw [BitVec.toInt_srem, h2.2, toInt_minusOne hw]
      simp
    rw [hz]
    simp [Except.map, Except.mapError]
  · rfl
end Width

theorem slot_eq (x : Slot) : x = BitVec.ofNat 64 x.toNat := by
  rw [BitVec.ofNat_toNat, BitVec.setWidth_eq]

theorem slot32_eq (x : BitVec 32) : slot32 x = BitVec.ofNat 64 x.toNat :=
  BitVec.eq_of_toNat_eq (by simp [slot32])

theorem slotBool_eq (p : Prop) [Decidable p] :
    slotBool (decide p) = BitVec.ofNat 64 (Numeric.bool p) := by
  unfold slotBool Numeric.bool
  by_cases h : p <;> simp [h]

/-! ## Leading zeros -/

theorem shl_toNat {j : Nat} (hj : j < 64) : ((1 : Slot) <<< j).toNat = 2 ^ j := by
  rw [BitVec.toNat_shiftLeft, Nat.shiftLeft_eq, Nat.mod_eq_of_lt]
  · simp
  · simpa using Nat.pow_lt_pow_right (a := 2) (by norm_num) hj

theorem and_bit {v : Slot} {j : Nat} (hj : j < 64) :
    v &&& ((1 : Slot) <<< j) = 0 ↔ v.toNat.testBit j = false := by
  have h : v &&& ((1 : Slot) <<< j) = if v.toNat.testBit j then (1 : Slot) <<< j else 0 :=
    BitVec.and_twoPow v j
  have hne : (1 : Slot) <<< j ≠ 0 := by
    intro h0
    have h1 := congrArg BitVec.toNat h0
    rw [shl_toNat hj] at h1
    exact absurd h1 (by simp)
  rw [h]
  cases v.toNat.testBit j
  · simp
  · simpa using hne

theorem size_eq {x j : Nat} (hlt : x < 2 ^ (j + 1)) (hbit : x.testBit j = true) :
    x.size = j + 1 := by
  apply le_antisymm
  · exact Nat.size_le.mpr hlt
  · exact Nat.lt_size.mpr (Nat.ge_two_pow_of_testBit hbit)

theorem lt_of_bit {x j : Nat} (hlt : x < 2 ^ (j + 1)) (hbit : x.testBit j = false) : x < 2 ^ j := by
  refine Nat.lt_pow_two_of_testBit x fun i hi => ?_
  rcases Nat.eq_or_lt_of_le hi with rfl | hi
  · exact hbit
  · exact Nat.testBit_lt_two_pow (hlt.trans_le (Nat.pow_le_pow_right (by norm_num) hi))

theorem shl_shr {j : Nat} (hj : j + 1 < 64) :
    ((1 : Slot) <<< (j + 1)) >>> 1 = (1 : Slot) <<< j := by
  apply BitVec.eq_of_toNat_eq
  rw [BitVec.toNat_ushiftRight, shl_toNat hj, shl_toNat (by omega), Nat.shiftRight_eq_div_pow,
    pow_succ]
  omega

/-- The loop of `OP_CLZ` from the mask of bit `j` on. -/
theorem clzLoop_eq {v : Slot} (hv : v.toNat ≠ 0) {j k n : Nat} (hj : j < 64) (hk : j < k)
    (hlt : v.toNat < 2 ^ (j + 1)) :
    clzLoop k v ((1 : Slot) <<< j) n = n + (j + 1 - v.toNat.size) := by
  induction j generalizing k n with
  | zero =>
    obtain ⟨k, rfl⟩ := Nat.exists_eq_succ_of_ne_zero (Nat.ne_of_gt hk)
    have h1 : v.toNat = 1 := by omega
    have hbit : v.toNat.testBit 0 = true := by rw [h1]; rfl
    have hne : ¬ v &&& ((1 : Slot) <<< 0) = 0 := by
      rw [and_bit hj, hbit]
      simp
    rw [Nat.succ_eq_add_one, clzLoop, if_neg hne, size_eq hlt hbit, Nat.sub_self, Nat.add_zero]
  | succ j ih =>
    obtain ⟨k, rfl⟩ := Nat.exists_eq_succ_of_ne_zero (Nat.ne_zero_of_lt hk)
    rw [Nat.succ_eq_add_one, clzLoop]
    by_cases hbit : v.toNat.testBit (j + 1) = true
    · have hne : ¬ v &&& ((1 : Slot) <<< (j + 1)) = 0 := by
        rw [and_bit hj, hbit]
        simp
      rw [if_neg hne, size_eq hlt hbit, Nat.sub_self, Nat.add_zero]
    · have hbit := Bool.eq_false_iff.mpr hbit
      have hlt' := lt_of_bit hlt hbit
      have hsize : v.toNat.size ≤ j + 1 := Nat.size_le.mpr hlt'
      rw [if_pos ((and_bit hj).mpr hbit), shl_shr hj, ih (by omega) (by omega) hlt']
      omega

theorem clz_iclz {bits : Nat} (hb : bits = 32 ∨ bits = 64) (v : Slot) :
    clz bits v = BitVec.ofNat 64 (iclz bits (v.toNat % 2 ^ bits)) := by
  have hm : (if bits = 32 then v &&& 0xffffffff else v).toNat = v.toNat % 2 ^ bits := by
    rcases hb with rfl | rfl
    · rw [if_pos rfl, BitVec.toNat_and]
      exact Nat.and_two_pow_sub_one_eq_mod _ 32
    · rw [if_neg (by norm_num), Nat.mod_eq_of_lt v.isLt]
  have h0 : ¬ bits = 0 := by omega
  unfold clz iclz
  simp only [if_neg h0]
  rw [← hm]
  have hlt : (if bits = 32 then v &&& 0xffffffff else v).toNat < 2 ^ bits := by
    rw [hm]
    exact Nat.mod_lt _ (by positivity)
  generalize (if bits = 32 then v &&& 0xffffffff else v) = x at *
  split_ifs with hx
  · rw [hx]
    simp
  · have hx' : x.toNat ≠ 0 := by
      intro h
      exact hx (BitVec.eq_of_toNat_eq (by simpa using h))
    have hbits : bits - 1 + 1 = bits := by omega
    rw [clzLoop_eq hx' (by omega) (by omega) (by rw [hbits]; exact hlt), hbits, Nat.zero_add]

/-! ## Operators on slots -/

theorem operand_i32 (x : Slot) : operand .i32 x = (u32 x).toNat := by
  simp [operand, ValType.width, u32]

theorem operand_i64 (x : Slot) : operand .i64 x = x.toNat :=
  Nat.mod_eq_of_lt x.isLt

theorem map_slots {x : Except Status Slot} {y : Except Trap Nat}
    (h : x.map BitVec.toNat = y.mapError trapStatus) : x.map ([·]) = slots (y.map ([·])) := by
  cases x <;> cases y <;> simp_all only [Except.map, Except.mapError, slots, reduceCtorEq,
    Except.ok.injEq, Except.error.injEq, List.map_cons, List.map_nil]
  rw [← h, ← slot_eq]

theorem map_slots32 {x : Except Status (BitVec 32)} {y : Except Trap Nat}
    (h : x.map BitVec.toNat = y.mapError trapStatus) :
    (x.map slot32).map ([·]) = slots (y.map ([·])) := by
  cases x <;> cases y <;> simp_all only [Except.map, Except.mapError, slots, reduceCtorEq,
    Except.ok.injEq, Except.error.injEq, List.map_cons, List.map_nil]
  rw [← h, ← slot32_eq]

theorem ok_slots {x : Slot} {n : Nat} (h : x = BitVec.ofNat 64 n) :
    (Except.ok x : Except Status Slot).map ([·]) = slots (.ok [n]) := by
  rw [h]
  rfl

/-- The two-operand opcodes compute the operators they are emitted for. -/
theorem bin_apply (o : NumOp) {b : BinOp} (hb : (NumOp.lower o).1 = .bin b) (x y : Slot) :
    (b.eval x y).map ([·]) = slots (o.apply [operand o.type.1.2 x, operand o.type.1.2 y]) := by
  have h32 : 0 < 32 := by norm_num
  have h64 : 0 < 64 := by norm_num
  have hbool {p : Bool} {q : Prop} [Decidable q] (h : p = decide q) :
      (Except.ok (slotBool p) : Except Status Slot).map ([·]) = slots (.ok [Numeric.bool q]) :=
    ok_slots (by rw [h, slotBool_eq])
  have hbeq {w : Nat} (a b : BitVec w) : (a == b) = decide (a.toNat = b.toNat) := by
    simp only [BitVec.toNat_inj]
    rfl
  have hbne {w : Nat} (a b : BitVec w) : (a != b) = decide (a.toNat ≠ b.toNat) := by
    simp only [ne_eq, BitVec.toNat_inj, decide_not]
    rfl
  have hm32 : (u32 y &&& 31).toNat = (u32 y).toNat % 32 := toNat_mask (k := 5) rfl
  have hm64 : (y &&& 63).toNat = y.toNat % 64 := toNat_mask (k := 6) rfl
  cases o <;> cases hb <;> simp only [BinOp.eval, NumOp.apply, NumOp.type, List.getD_cons_zero,
    List.getD_cons_succ, operand_i32, operand_i64, ← toInt_eq_signed h32, ← toInt_eq_signed h64]
  case i32DivS => exact map_slots32 (divS_idivS (by norm_num) _ _)
  case i32DivU => exact map_slots32 (divU_idivU _ _)
  case i32RemS => exact map_slots32 (remS_iremS (by norm_num) _ _)
  case i32RemU => exact map_slots32 (remU_iremU _ _)
  case i64DivS => exact map_slots (divS_idivS (by norm_num) x y)
  case i64DivU => exact map_slots (divU_idivU x y)
  case i64RemS => exact map_slots (remS_iremS (by norm_num) x y)
  case i64RemU => exact map_slots (remU_iremU x y)
  case i32Eq | i64Eq => exact hbool (hbeq _ _)
  case i32Ne | i64Ne => exact hbool (hbne _ _)
  case i32LtS | i64LtS | i32LtU | i64LtU | i32LeS | i64LeS | i32LeU | i64LeU => exact hbool rfl
  case i32GtS | i64GtS | i32GtU | i64GtU | i32GeS | i64GeS | i32GeU | i64GeU => exact hbool rfl
  case i32Add | i32Mul | i32And | i32Or | i32Xor =>
    exact ok_slots (by rw [slot32_eq]; simp [iadd, imul])
  case i64Add | i64Mul | i64And | i64Or | i64Xor =>
    exact ok_slots (BitVec.eq_of_toNat_eq (by simp [iadd, imul]))
  case i32Sub => exact ok_slots (by rw [slot32_eq, toNat_isub])
  case i64Sub => exact ok_slots (by rw [← toNat_isub, ← slot_eq])
  case i32Shl => exact ok_slots (by rw [slot32_eq, toNat_shl, hm32]; rfl)
  case i64Shl => exact ok_slots (by rw [slot_eq (x <<< _), toNat_shl, hm64]; rfl)
  case i32ShrU => exact ok_slots (by rw [slot32_eq, toNat_shr, hm32]; rfl)
  case i64ShrU => exact ok_slots (by rw [slot_eq (x >>> _), toNat_shr, hm64]; rfl)
  case i32ShrS => exact ok_slots (by rw [slot32_eq, toNat_ishrS h32, hm32]; rfl)
  case i64ShrS => exact ok_slots (by rw [slot_eq (x.sshiftRight _), toNat_ishrS h64, hm64]; rfl)
end CuWasm
