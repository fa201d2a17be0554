import CuWasm.Proofs.NumericProofs
import Mathlib.Algebra.Order.Ring.Abs
import Mathlib.Tactic.LinearCombination

/-!
# Wide arithmetic is exact

`mul_wide_u` assembles the product from four 32-bit partial products; over the natural numbers this
is the schoolbook multiplication of two-digit numbers to the base `2 ^ 32`, and no intermediate sum
overflows. `mul_wide_s` corrects the high word only, which decides the signed product because that
fits in 128 bits.
-/

namespace CuWasm

open Run

theorem toNat_slot32_u32 (x : Slot) : (slot32 (u32 x)).toNat = x.toNat % 2 ^ 32 := by
  simp [slot32, u32]
  omega

theorem toNat_shiftRight32 (x : Slot) : (x >>> 32).toNat = x.toNat / 2 ^ 32 := by
  simp [Nat.shiftRight_eq_div_pow]

/-- The schoolbook product of two-digit numbers to the base `B`. -/
theorem schoolbook (B a0 a1 b0 b1 : Nat) :
    (a1 * b1 + a0 * b1 / B + a1 * b0 / B +
        (a0 * b0 / B + a0 * b1 % B + a1 * b0 % B) / B) * (B * B) +
      ((a0 * b0 / B + a0 * b1 % B + a1 * b0 % B) % B * B + a0 * b0 % B) =
      (a1 * B + a0) * (b1 * B + b0) := by
  have h0 := Nat.div_add_mod (a0 * b0) B
  have h1 := Nat.div_add_mod (a0 * b1) B
  have h2 := Nat.div_add_mod (a1 * b0) B
  have hc := Nat.div_add_mod (a0 * b0 / B + a0 * b1 % B + a1 * b0 % B) B
  generalize (a0 * b0 / B + a0 * b1 % B + a1 * b0 % B) / B = q at *
  generalize (a0 * b0 / B + a0 * b1 % B + a1 * b0 % B) % B = r at *
  generalize a0 * b0 / B = x0 at *
  generalize a0 * b0 % B = y0 at *
  generalize a0 * b1 / B = x1 at *
  generalize a0 * b1 % B = y1 at *
  generalize a1 * b0 / B = x2 at *
  generalize a1 * b0 % B = y2 at *
  calc
    (a1 * b1 + x1 + x2 + q) * (B * B) + (r * B + y0)
      = a1 * b1 * (B * B) + x1 * B * B + x2 * B * B + (B * q + r) * B + y0 := by ring
    _ = a1 * b1 * (B * B) + (B * x1 + y1) * B + (B * x2 + y2) * B + (B * x0 + y0) := by
      rw [hc]
      ring
    _ = (a1 * B + a0) * (b1 * B + b0) := by
      rw [h0, h1, h2]
      ring
theorem toNat_join {p c mask : Slot} (hmask : mask.toNat = 2 ^ 32 - 1) :
    ((p &&& mask) ||| (c <<< 32)).toNat = c.toNat % 2 ^ 32 * 2 ^ 32 + p.toNat % 2 ^ 32 := by
  have hp : p.toNat % 2 ^ 32 < 2 ^ 32 := Nat.mod_lt _ (by norm_num)
  have hc : c.toNat <<< 32 % 2 ^ 64 = 2 ^ 32 * (c.toNat % 2 ^ 32) := by
    rw [Nat.shiftLeft_eq]
    omega
  rw [BitVec.toNat_or, BitVec.toNat_and, BitVec.toNat_shiftLeft, hmask, hc,
    Nat.and_two_pow_sub_one_eq_mod, Nat.or_comm, ← Nat.two_pow_add_eq_or_of_lt hp]
  ring

theorem toNat_mul_of_lt {x y : Slot} (hx : x.toNat < 2 ^ 32) (hy : y.toNat < 2 ^ 32) :
    (x * y).toNat = x.toNat * y.toNat := by
  have h : x.toNat * y.toNat < 2 ^ 64 := by
    calc x.toNat * y.toNat < 2 ^ 32 * 2 ^ 32 := Nat.mul_lt_mul'' hx hy
      _ = 2 ^ 64 := by norm_num
  rw [BitVec.toNat_mul, Nat.mod_eq_of_lt h]

theorem toNat_halves (x : Slot) :
    (x >>> 32).toNat * 2 ^ 32 + (slot32 (u32 x)).toNat = x.toNat := by
  rw [toNat_slot32_u32, toNat_shiftRight32, Nat.div_add_mod']

theorem toNat_low_lt (x : Slot) : (slot32 (u32 x)).toNat < 2 ^ 32 := by
  rw [toNat_slot32_u32]
  omega

theorem toNat_high_lt (x : Slot) : (x >>> 32).toNat < 2 ^ 32 := by
  rw [toNat_shiftRight32]
  omega

theorem mulWideU_exact (a b : Slot) :
    wide (mulWideU a b).1 (mulWideU a b).2 = a.toNat * b.toNat := by
  have ha0 := toNat_low_lt a
  have hb0 := toNat_low_lt b
  have ha1 := toNat_high_lt a
  have hb1 := toNat_high_lt b
  have hsum := schoolbook (2 ^ 32) (slot32 (u32 a)).toNat (a >>> 32).toNat (slot32 (u32 b)).toNat
    (b >>> 32).toNat
  rw [toNat_halves, toNat_halves] at hsum
  have hlt : a.toNat * b.toNat < 2 ^ 64 * 2 ^ 64 := Nat.mul_lt_mul'' a.isLt b.isLt
  simp only [wide, mulWideU]
  generalize a >>> 32 = a1 at *
  generalize b >>> 32 = b1 at *
  generalize slot32 (u32 a) = a0 at *
  generalize slot32 (u32 b) = b0 at *
  have p0 := toNat_mul_of_lt ha0 hb0
  have p1 := toNat_mul_of_lt ha0 hb1
  have p2 := toNat_mul_of_lt ha1 hb0
  have p3 := toNat_mul_of_lt ha1 hb1
  rw [← p0, ← p1, ← p2, ← p3] at hsum
  have l0 := (a0 * b0).isLt
  have l1 := (a0 * b1).isLt
  have l2 := (a1 * b0).isLt
  generalize a0 * b0 = x0 at *
  generalize a0 * b1 = x1 at *
  generalize a1 * b0 = x2 at *
  generalize a1 * b1 = x3 at *
  have hc : ((x0 >>> 32) + slot32 (u32 x1) + slot32 (u32 x2)).toNat =
      x0.toNat / 2 ^ 32 + x1.toNat % 2 ^ 32 + x2.toNat % 2 ^ 32 := by
    simp only [BitVec.toNat_add, toNat_shiftRight32, toNat_slot32_u32]
    omega
  have hhi : (x3 + (x1 >>> 32) + (x2 >>> 32) +
      (((x0 >>> 32) + slot32 (u32 x1) + slot32 (u32 x2)) >>> 32)).toNat =
      x3.toNat + x1.toNat / 2 ^ 32 + x2.toNat / 2 ^ 32 +
        (x0.toNat / 2 ^ 32 + x1.toNat % 2 ^ 32 + x2.toNat % 2 ^ 32) / 2 ^ 32 := by
    rw [BitVec.toNat_add, toNat_shiftRight32, hc]
    simp only [BitVec.toNat_add, toNat_shiftRight32]
    omega
  rw [hhi, toNat_join rfl, hc]
  omega

/-- A word read as signed is the word less `2 ^ 64` if its sign bit is set. -/
theorem toInt_eq_sub (x : Slot) : x.toInt = x.toNat - 2 ^ 64 * x.msb.toInt := by
  rw [BitVec.toInt_eq_msb_cond]
  cases x.msb <;> simp

/-- A signed word is determined by its residue class. -/
theorem toInt_eq_of_dvd {x : Slot} {n : Int} (h : (2 ^ 64 : Int) ∣ x.toNat - n)
    (h1 : -2 ^ 63 ≤ n) (h2 : n < 2 ^ 63) : x.toInt = n := by
  have hx1 := BitVec.le_toInt x
  have hx2 := BitVec.toInt_lt (x := x)
  have hx := toInt_eq_sub x
  omega

/-- The signed correction of the high word, modulo `2 ^ 64`. -/
theorem mulWideS_hi (a b : Slot) : (2 ^ 64 : Int) ∣ (mulWideS a b).2.toNat -
    ((mulWideU a b).2.toNat - a.msb.toInt * b.toNat - b.msb.toInt * a.toNat) := by
  simp only [mulWideS]
  cases a.msb <;> cases b.msb <;> simp [BitVec.toNat_sub] <;> omega

theorem toInt_mul_le (a b : Slot) : |a.toInt * b.toInt| ≤ 2 ^ 126 := by
  have ha1 := BitVec.le_toInt a
  have ha2 := BitVec.toInt_lt (x := a)
  have hb1 := BitVec.le_toInt b
  have hb2 := BitVec.toInt_lt (x := b)
  have ha : |a.toInt| ≤ 2 ^ 63 := abs_le.mpr (by omega)
  have hb : |b.toInt| ≤ 2 ^ 63 := abs_le.mpr (by omega)
  calc |a.toInt * b.toInt| = |a.toInt| * |b.toInt| := abs_mul _ _
    _ ≤ 2 ^ 63 * 2 ^ 63 := mul_le_mul ha hb (abs_nonneg _) (by norm_num)
    _ = 2 ^ 126 := by norm_num

theorem mulWideS_exact (a b : Slot) :
    (mulWideS a b).2.toInt * 2 ^ 64 + (mulWideS a b).1.toNat = a.toInt * b.toInt := by
  have hu : (wide (mulWideU a b).1 (mulWideU a b).2 : Int) = a.toNat * b.toNat := by
    exact_mod_cast mulWideU_exact a b
  have hlo := (mulWideU a b).1.isLt
  obtain ⟨hb1, hb2⟩ := abs_le.mp (toInt_mul_le a b)
  -- the high word as an integer, before it is reduced
  obtain ⟨n, hn⟩ : ∃ n : Int, n = (mulWideU a b).2.toNat - a.msb.toInt * b.toNat -
      b.msb.toInt * a.toNat + 2 ^ 64 * (a.msb.toInt * b.msb.toInt) := ⟨_, rfl⟩
  have hprod : a.toInt * b.toInt = n * 2 ^ 64 + (mulWideU a b).1.toNat := by
    rw [toInt_eq_sub a, toInt_eq_sub b, hn]
    simp only [wide, Nat.cast_add, Nat.cast_mul, Nat.cast_pow, Nat.cast_ofNat] at hu
    linear_combination -hu
  have hhi : (mulWideS a b).2.toInt = n := by
    have hd := mulWideS_hi a b
    apply toInt_eq_of_dvd <;> omega
  rw [hhi, hprod]
  rfl

theorem add128_exact (lhsLo lhsHi rhsLo rhsHi : Slot) :
    wide (add128 lhsLo lhsHi rhsLo rhsHi).1 (add128 lhsLo lhsHi rhsLo rhsHi).2 =
      (wide lhsLo lhsHi + wide rhsLo rhsHi) % 2 ^ 128 := by
  have h1 := lhsLo.isLt
  have h2 := rhsLo.isLt
  have h3 := lhsHi.isLt
  have h4 := rhsHi.isLt
  simp only [add128, wide, BitVec.ult, BitVec.toNat_add, decide_eq_true_eq]
  split_ifs <;> simp <;> omega

theorem sub128_exact (lhsLo lhsHi rhsLo rhsHi : Slot) :
    (wide (sub128 lhsLo lhsHi rhsLo rhsHi).1 (sub128 lhsLo lhsHi rhsLo rhsHi).2 : Int) =
      (wide lhsLo lhsHi - wide rhsLo rhsHi) % 2 ^ 128 := by
  have h1 := lhsLo.isLt
  have h2 := rhsLo.isLt
  have h3 := lhsHi.isLt
  have h4 := rhsHi.isLt
  simp only [sub128, wide, BitVec.ult, BitVec.toNat_sub, decide_eq_true_eq]
  split_ifs <;> simp <;> omega

/-! ## The opcodes -/

theorem exec_mulWideU {v : Views} {m : DevModule} {i : CuOp} {s : Mach} {a b : Slot}
    (hop : i.op = .i64MulWideU) (h : OnTop v s [a, b]) :
    Yields v 2 (.ok [(mulWideU a b).1, (mulWideU a b).2]) s (exec v m i s) := by
  simp only [exec, hop]
  exact yields_pair h mulWideU

theorem exec_mulWideS {v : Views} {m : DevModule} {i : CuOp} {s : Mach} {a b : Slot}
    (hop : i.op = .i64MulWideS) (h : OnTop v s [a, b]) :
    Yields v 2 (.ok [(mulWideS a b).1, (mulWideS a b).2]) s (exec v m i s) := by
  simp only [exec, hop]
  exact yields_pair h mulWideS

theorem exec_add128 {v : Views} {m : DevModule} {i : CuOp} {s : Mach} {a b c d : Slot}
    (hop : i.op = .i64Add128) (h : OnTop v s [a, b, c, d]) :
    Yields v 4 (.ok [(add128 a b c d).1, (add128 a b c d).2]) s (exec v m i s) := by
  simp only [exec, hop]
  exact yields_pair4 h add128

theorem exec_sub128 {v : Views} {m : DevModule} {i : CuOp} {s : Mach} {a b c d : Slot}
    (hop : i.op = .i64Sub128) (h : OnTop v s [a, b, c, d]) :
    Yields v 4 (.ok [(sub128 a b c d).1, (sub128 a b c d).2]) s (exec v m i s) := by
  simp only [exec, hop]
  exact yields_pair4 h sub128

/-- Wide arithmetic is exact: the products over the natural numbers and over the integers, the sum and
the difference modulo `2 ^ 128`. The low words of operands and results lie below the high words. -/
theorem wide_exact :
    (∀ a b : Slot, (mulWideU a b).2.toNat * 2 ^ 64 + (mulWideU a b).1.toNat = a.toNat * b.toNat) ∧
    (∀ a b : Slot, (mulWideS a b).2.toInt * 2 ^ 64 + (mulWideS a b).1.toNat = a.toInt * b.toInt) ∧
    (∀ (v : Views) (m : DevModule) (i : CuOp) (s : Mach) (a b : Slot), OnTop v s [a, b] →
      (i.op = .i64MulWideU → ∃ lo hi, Yields v 2 (.ok [lo, hi]) s (exec v m i s) ∧
        hi.toNat * 2 ^ 64 + lo.toNat = a.toNat * b.toNat) ∧
      (i.op = .i64MulWideS → ∃ lo hi, Yields v 2 (.ok [lo, hi]) s (exec v m i s) ∧
        hi.toInt * 2 ^ 64 + lo.toNat = a.toInt * b.toInt)) ∧
    (∀ (v : Views) (m : DevModule) (i : CuOp) (s : Mach) (lhsLo lhsHi rhsLo rhsHi : Slot),
      OnTop v s [lhsLo, lhsHi, rhsLo, rhsHi] →
      (i.op = .i64Add128 → ∃ lo hi, Yields v 4 (.ok [lo, hi]) s (exec v m i s) ∧
        wide lo hi = (wide lhsLo lhsHi + wide rhsLo rhsHi) % 2 ^ 128) ∧
      (i.op = .i64Sub128 → ∃ lo hi, Yields v 4 (.ok [lo, hi]) s (exec v m i s) ∧
        (wide lo hi : Int) = (wide lhsLo lhsHi - wide rhsLo rhsHi) % 2 ^ 128)) := by
  refine ⟨mulWideU_exact, mulWideS_exact, fun v m i s a b h => ⟨fun hop => ?_, fun hop => ?_⟩,
    fun v m i s a b c d h => ⟨fun hop => ?_, fun hop => ?_⟩⟩
  · exact ⟨_, _, exec_mulWideU hop h, mulWideU_exact a b⟩
  · exact ⟨_, _, exec_mulWideS hop h, mulWideS_exact a b⟩
  · exact ⟨_, _, exec_add128 hop h, add128_exact a b c d⟩
  · exact ⟨_, _, exec_sub128 hop h, sub128_exact a b c d⟩

/-- The sum of `2 ^ 64 - 1` and one carries into the high word. -/
theorem wide_exact_carry : ∃ lo hi,
    Yields operandViews 4 (.ok [lo, hi]) (operandMach [-1, 0, 1, 0])
      (exec operandViews ⟨[], [], [], [], [], []⟩ { op := .i64Add128 } (operandMach [-1, 0, 1, 0])) ∧
      wide lo hi = 2 ^ 64 := by
  have hs := onTop_operandMach [-1, 0, 1, 0] (by decide)
  obtain ⟨lo, hi, h, hsum⟩ := (wide_exact.2.2.2 _ ⟨[], [], [], [], [], []⟩
    { op := .i64Add128 } _ _ _ _ _ hs).1 rfl
  exact ⟨lo, hi, h, hsum.trans (by decide)⟩

end CuWasm
