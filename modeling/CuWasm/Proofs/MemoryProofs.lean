import CuWasm.Proofs.ControlProofs
import CuWasm.Proofs.NumericProofs

/-!
# Loads and stores

`OP_LOAD` and `OP_STORE` read and write little-endian numbers; the flags of a load choose between zero
and sign extension as the operator it was emitted for does.
-/

namespace CuWasm

open Wasm Numeric Run Exit LittleEndian BlockMove

theorem bytes_lt (mem : Nat → Byte) (c : Nat) : bytes mem c < 256 := (mem c).isLt

theorem memLoadLe_value (mem : Nat → Byte) (ea : Nat) {n : Nat} (hn : n ≤ 8) :
    (memLoadLe mem ea n).toNat = value (bytes mem) ea n := by
  induction n with
  | zero => rfl
  | succ n ih =>
    have hv := value_lt (f := bytes mem) (a := ea) (n := n) (bytes_lt mem)
    have hp : 256 ^ n = 2 ^ (8 * n) := by rw [pow_mul]; rfl
    have hb : (mem (ea + n)).toNat < 2 ^ 8 := (mem (ea + n)).isLt
    have hshift : ((mem (ea + n)).setWidth 64 <<< (8 * n)).toNat = (mem (ea + n)).toNat * 2 ^ (8 * n) := by
      rw [toNat_shl, BitVec.toNat_setWidth_of_le (by omega), Nat.mod_eq_of_lt]
      calc (mem (ea + n)).toNat * 2 ^ (8 * n) < 2 ^ 8 * 2 ^ (8 * n) :=
            Nat.mul_lt_mul_of_pos_right hb (by positivity)
        _ = 2 ^ (8 + 8 * n) := by rw [pow_add]
        _ ≤ 2 ^ 64 := Nat.pow_le_pow_right (by norm_num) (by omega)
    rw [memLoadLe, BitVec.toNat_or, ih (by omega), hshift, Nat.mul_comm, Nat.or_comm,
      ← Nat.two_pow_add_eq_or_of_lt (by rw [← hp]; exact hv), value, bytes, hp]
    ring

theorem memStoreLe_write (mem : Nat → Byte) (ea n : Nat) (x : Slot) :
    bytes (memStoreLe mem ea n x) = write (bytes mem) ea n x.toNat := by
  funext c
  unfold bytes memStoreLe write
  rw [fillAsc_apply]
  split_ifs
  · rw [BitVec.toNat_setWidth, toNat_shr, digit, pow_mul]
    rfl
  · rfl

/-- `sext64` reads the low `bits` bits as a signed number. -/
theorem sext64_toNat (x : Slot) {bits : Nat} (h0 : 0 < bits) (h1 : bits ≤ 64) :
    (sext64 x bits).toNat = unsigned 64 (signed bits (x.toNat % 2 ^ bits)) := by
  have hsplit : 2 ^ 64 = 2 ^ bits * 2 ^ (64 - bits) := by rw [← pow_add]; congr 1; omega
  have hhalf : 2 ^ 63 = 2 ^ (bits - 1) * 2 ^ (64 - bits) := by rw [← pow_add]; congr 1; omega
  have hpos : 0 < 2 ^ (64 - bits) := by positivity
  have hmod : x.toNat * 2 ^ (64 - bits) % 2 ^ 64 = x.toNat % 2 ^ bits * 2 ^ (64 - bits) := by
    rw [hsplit, Nat.mul_mod_mul_right]
  have hsign : signed 64 (x.toNat % 2 ^ bits * 2 ^ (64 - bits)) =
      signed bits (x.toNat % 2 ^ bits) * 2 ^ (64 - bits) := by
    unfold signed
    simp only [show 64 - 1 = 63 from rfl, hhalf, Nat.mul_lt_mul_right hpos]
    split_ifs
    · push_cast
      ring
    · have hz : (2 ^ 64 : Int) = 2 ^ bits * 2 ^ (64 - bits) := by exact_mod_cast hsplit
      rw [hz]
      push_cast
      ring
  unfold sext64
  rw [toNat_ishrS (by norm_num), toNat_shl, hmod, hsign, Int.mul_ediv_cancel _ (by positivity)]


/-- The extension that the flags `a` of `OP_LOAD` ask for. -/
def extended (a : Nat) (x : Slot) : Slot :=
  if a &&& 0x10 ≠ 0 then
    if a &&& 0x20 ≠ 0 then sext64 x ((a &&& 0xf) * 8)
    else slot32 (u32 (sext64 x ((a &&& 0xf) * 8)))
  else if ¬ a &&& 0x20 ≠ 0 ∧ a &&& 0xf < 8 then slot32 (u32 x)
  else x

variable {v : Views} {s : Mach}

theorem yields_load {a b : Nat} {base : Slot} (h : OnTop v s [base]) :
    Yields v 1
      (if a &&& 0xf = 0 ∨ a &&& 0xf > 8 ∨ !memInBounds s.memSize ((u32 base).toNat + b) (a &&& 0xf)
        then .error .trapMemOob
        else .ok [extended a (memLoadLe s.mem (v.memory + ((u32 base).toNat + b)) (a &&& 0xf))])
      s (load v a b s) := by
  obtain ⟨t1, e1, p1⟩ := h.pop (k := 0) (.refl s) rfl rfl
  have hsize := p1.memSize
  have hmem := p1.mem
  unfold load
  rw [bind_ok e1, bind_ok (get_apply t1), ite_run, hsize]
  by_cases hc : a &&& 0xf = 0 ∨ a &&& 0xf > 8 ∨
      !memInBounds s.memSize ((u32 base).toNat + b) (a &&& 0xf)
  · rw [if_pos hc, if_pos hc]
    exact ⟨rfl, p1.stack, p1.others⟩
  · rw [if_neg hc, if_neg hc, ← hmem]
    have p2 : Popped 1 s { t1 with
        log := ⟨.memory, v.memory + ((u32 base).toNat + b), a &&& 0xf⟩ :: t1.log } :=
      ⟨p1.sp, p1.stack, p1.others⟩
    obtain ⟨t2, e2, r⟩ := p2.push (v := v) (by omega) h.enough h.fits
      (extended a (memLoadLe t1.mem (v.memory + ((u32 base).toNat + b)) (a &&& 0xf)))
    show Yields v 1 _ s (push v (pure (extended a _)) { t1 with log := _ })
    rw [e2]
    exact ⟨_, rfl, r⟩

/-- `OP_STORE` of a width between 1 and 8. -/
theorem exec_store {m : DevModule} {i : CuOp} {base x : Slot} (hop : i.op = .store)
    (h : OnTop v s [base, x]) (h0 : 0 < i.a) (h8 : i.a ≤ 8) :
    if (u32 base).toNat + i.b + i.a ≤ s.memSize then
      ∃ s', exec v m i s = .ok () s' ∧ Stored v ((u32 base).toNat + i.b) i.a x s s'
    else Yields v 2 (.error .trapMemOob) s (exec v m i s) := by
  obtain ⟨t1, e1, p1⟩ := h.pop (k := 1) (.refl s) rfl rfl
  obtain ⟨t2, e2, p2⟩ := h.pop (k := 0) p1 rfl rfl
  have hb : memInBounds s.memSize ((u32 base).toNat + i.b) i.a = true ↔
      (u32 base).toNat + i.b + i.a ≤ s.memSize := memInBounds_iff
  simp only [exec, hop]
  unfold store
  rw [bind_ok e1, bind_ok e2, bind_ok (get_apply t2), ite_run, p2.memSize]
  split_ifs with hc h1 h1
  · rw [hb.mpr hc] at h1
    simp at h1
    omega
  · refine ⟨_, rfl, p2.sp, p2.stack, ?_, ?_⟩
    · rw [← p2.mem]
      exact memStoreLe_write _ _ _ _
    · rw [← p2.others, ← p2.mem]
      rfl
  · exact ⟨rfl, p2.stack, p2.others⟩
  · exact absurd h1 (by rw [← hb] at hc; simp [hc])

/-! ## Loads and stores as emitted -/

theorem loadOp_bytes (o : LoadOp) : LoadOp.lower o &&& 0xf = o.bytes := by
  cases o <;> rfl

theorem storeOp_bytes (o : StoreOp) : StoreOp.lower o = o.bytes := by
  cases o <;> rfl

theorem loadOp_width (o : LoadOp) : 0 < o.bytes ∧ o.bytes ≤ 8 ∧ 8 * o.bytes ≤ o.type.width := by
  cases o <;> decide

theorem unsigned_lt (N : Nat) (j : Int) : unsigned N j < 2 ^ N := by
  have h := Int.emod_lt_of_pos j (show (0 : Int) < 2 ^ N by positivity)
  have h0 := Int.emod_nonneg j (show (2 ^ N : Int) ≠ 0 by positivity)
  refine (Int.toNat_lt h0).mpr ?_
  push_cast
  exact h

theorem unsigned_mod (j : Int) : unsigned 64 j % 2 ^ 32 = unsigned 32 j := by
  unfold unsigned
  omega

/-- A loaded number fits the type of the result. -/
theorem extend_lt (o : LoadOp) {x : Nat} (hx : x < 256 ^ o.bytes) : o.extend x < 2 ^ o.type.width := by
  unfold LoadOp.extend
  split_ifs
  · exact unsigned_lt _ _
  · calc x < 256 ^ o.bytes := hx
      _ = 2 ^ (8 * o.bytes) := by rw [pow_mul]; rfl
      _ ≤ 2 ^ o.type.width := Nat.pow_le_pow_right (by norm_num) (loadOp_width o).2.2

/-- The flags of a load ask for the extension of its operator. -/
theorem extended_lower (o : LoadOp) {x : Slot} (hx : x.toNat < 256 ^ o.bytes) :
    extended (LoadOp.lower o) x = BitVec.ofNat 64 (o.extend x.toNat) := by
  have hs64 (n : Nat) (h0 : 0 < n * 8) (h1 : n * 8 ≤ 64) :
      sext64 x (n * 8) = BitVec.ofNat 64 (extendS 64 (8 * n) x.toNat) := by
    rw [Nat.mul_comm 8, extendS, ← sext64_toNat x h0 h1, ← slot_eq]
  have hs32 (n : Nat) (h0 : 0 < n * 8) (h1 : n * 8 ≤ 64) :
      slot32 (u32 (sext64 x (n * 8))) = BitVec.ofNat 64 (extendS 32 (8 * n) x.toNat) := by
    rw [Nat.mul_comm 8, extendS, slot32_eq, ← operand_i32, operand, sext64_toNat x h0 h1]
    exact congrArg _ (unsigned_mod _)
  have hu (h : x.toNat < 2 ^ 32) : slot32 (u32 x) = BitVec.ofNat 64 x.toNat := by
    rw [slot32_eq, ← operand_i32]
    exact congrArg _ (Nat.mod_eq_of_lt h)
  cases o
  case i32Load8S => exact hs32 1 (by norm_num) (by norm_num)
  case i32Load16S => exact hs32 2 (by norm_num) (by norm_num)
  case i64Load8S => exact hs64 1 (by norm_num) (by norm_num)
  case i64Load16S => exact hs64 2 (by norm_num) (by norm_num)
  case i64Load32S => exact hs64 4 (by norm_num) (by norm_num)
  case i64Load8U | i64Load16U | i64Load32U | i64Load | f64Load => exact slot_eq x
  case i32Load8U | i32Load16U | i32Load | f32Load => exact hu (hx.trans_le (by decide))

/-- `OP_LOAD` as emitted. -/
theorem load_yields {v : Views} {m : DevModule} {s : Mach} {base : Slot} (o : LoadOp) (off : Nat)
    (h : OnTop v s [base]) :
    Yields v 1
      (if operand .i32 base + off + o.bytes ≤ s.memSize then
        .ok [BitVec.ofNat 64
          (o.extend (value (bytes s.mem) (v.memory + (operand .i32 base + off)) o.bytes))]
      else .error .trapMemOob) s (exec v m ⟨.load, LoadOp.lower o, off⟩ s) := by
  obtain ⟨h0, h8, -⟩ := loadOp_width o
  have hload := yields_load (a := LoadOp.lower o) (b := off) h
  have hb : memInBounds s.memSize ((u32 base).toNat + off) o.bytes = true ↔
      (u32 base).toNat + off + o.bytes ≤ s.memSize := memInBounds_iff
  rw [loadOp_bytes, ← operand_i32] at hload
  rw [← operand_i32] at hb
  show Yields v 1 _ s (load v (LoadOp.lower o) off s)
  by_cases hc : operand .i32 base + off + o.bytes ≤ s.memSize
  · rw [if_neg (by rw [hb.mpr hc]; simp; omega)] at hload
    rw [if_pos hc]
    have hv := memLoadLe_value s.mem (v.memory + (operand .i32 base + off)) h8
    rw [extended_lower o (by rw [hv]; exact value_lt (bytes_lt _)), hv] at hload
    exact hload
  · rw [if_pos (.inr (.inr (by rw [← hb] at hc; simpa using hc)))] at hload
    rw [if_neg hc]
    exact hload

/-- Loads and stores implement little-endian memory. Both trap exactly when the access reaches beyond
the memory, and then change nothing; a store writes its bytes and nothing else, and a later load reads
the bytes it finds, extended to the type of its result. -/
theorem memory_little_endian (v : Views) (m : DevModule) :
    (∀ (o : LoadOp) (off : Nat) (base : Slot) (s : Mach), OnTop v s [base] →
      let ea := operand .i32 base + off
      let x := o.extend (value (bytes s.mem) (v.memory + ea) o.bytes)
      x < 2 ^ o.type.width ∧
        (s.memSize < ea + o.bytes →
          Yields v 1 (.error .trapMemOob) s (exec v m ⟨.load, LoadOp.lower o, off⟩ s)) ∧
        (ea + o.bytes ≤ s.memSize →
          Yields v 1 (.ok [BitVec.ofNat 64 x]) s (exec v m ⟨.load, LoadOp.lower o, off⟩ s))) ∧
    (∀ (o : StoreOp) (off : Nat) (base x : Slot) (s : Mach), OnTop v s [base, x] →
      let ea := operand .i32 base + off
      (s.memSize < ea + o.bytes →
        Yields v 2 (.error .trapMemOob) s (exec v m ⟨.store, StoreOp.lower o, off⟩ s)) ∧
      (ea + o.bytes ≤ s.memSize →
        ∃ s', exec v m ⟨.store, StoreOp.lower o, off⟩ s = .ok () s' ∧
          Stored v ea o.bytes x s s' ∧
          -- a later load that finds these bytes
          ∀ (o' : LoadOp) (off' : Nat) (base' : Slot) (t : Mach), OnTop v t [base'] →
            let ea' := operand .i32 base' + off'
            ea' + o'.bytes ≤ t.memSize →
            (∀ c < o'.bytes, t.mem (v.memory + ea' + c) = s'.mem (v.memory + ea' + c)) →
            Yields v 1 (.ok [BitVec.ofNat 64 (o'.extend (value
                (write (bytes s.mem) (v.memory + ea) o.bytes x.toNat) (v.memory + ea') o'.bytes))]) t
              (exec v m ⟨.load, LoadOp.lower o', off'⟩ t) ∧
            (ea' = ea → o'.bytes = o.bytes →
              Yields v 1 (.ok [BitVec.ofNat 64 (o'.extend (x.toNat % 256 ^ o.bytes))]) t
                (exec v m ⟨.load, LoadOp.lower o', off'⟩ t)))) := by
  refine ⟨fun o off base s h => ⟨extend_lt o (value_lt (bytes_lt _)), fun hc => ?_, fun hc => ?_⟩,
    fun o off base x s h => ?_⟩
  · have hload := load_yields (m := m) o off h
    rw [if_neg (by omega)] at hload
    exact hload
  · have hload := load_yields (m := m) o off h
    rw [if_pos hc] at hload
    exact hload
  · have hw : 0 < o.bytes ∧ o.bytes ≤ 8 := by cases o <;> decide
    have hstore := exec_store (m := m) (i := ⟨.store, StoreOp.lower o, off⟩) rfl h
      (by rw [storeOp_bytes]; exact hw.1) (by rw [storeOp_bytes]; exact hw.2)
    simp only [storeOp_bytes, ← operand_i32] at hstore ⊢
    refine ⟨fun hc => ?_, fun hc => ?_⟩
    · rw [if_neg (by omega)] at hstore
      exact hstore
    · rw [if_pos hc] at hstore
      obtain ⟨s', he, hs⟩ := hstore
      refine ⟨s', he, hs, fun o' off' base' t ht hc' hsame => ?_⟩
      have hload := load_yields (m := m) o' off' ht
      have hread : value (bytes t.mem) (v.memory + (operand .i32 base' + off')) o'.bytes =
          value (write (bytes s.mem) (v.memory + (operand .i32 base + off)) o.bytes x.toNat)
            (v.memory + (operand .i32 base' + off')) o'.bytes := by
        rw [← hs.mem]
        exact value_congr fun k hk => congrArg BitVec.toNat (hsame k hk)
      rw [if_pos hc', hread] at hload
      refine ⟨hload, fun hea hbytes => ?_⟩
      rw [hea, hbytes, value_write] at hload
      exact hload

/-- A stored byte comes back with its sign, also through another base address. -/
theorem memory_sign_byte : ∃ s',
    exec operandViews ⟨[], [], [], [], [], []⟩ ⟨.store, StoreOp.lower .i32Store8, 5⟩
      { operandMach [3, 0x1ff] with memSize := 16 } = .ok () s' ∧
    Yields operandViews 1 (.ok [0xffffffff]) { operandMach [4] with memSize := 16, mem := s'.mem }
      (exec operandViews ⟨[], [], [], [], [], []⟩ ⟨.load, LoadOp.lower .i32Load8S, 4⟩
        { operandMach [4] with memSize := 16, mem := s'.mem }) := by
  have h1 := onTop_operandMach [3, 0x1ff] (by decide)
  have h2 := onTop_operandMach [4] (by decide)
  obtain ⟨s', he, -, hload⟩ := ((memory_little_endian operandViews ⟨[], [], [], [], [], []⟩).2
    .i32Store8 5 3 0x1ff { operandMach [3, 0x1ff] with memSize := 16 }
    ⟨h1.enough, h1.fits, h1.operands⟩).2 (by decide)
  refine ⟨s', he, ?_⟩
  exact (hload .i32Load8S 4 4 { operandMach [4] with memSize := 16, mem := s'.mem }
    ⟨h2.enough, h2.fits, h2.operands⟩ (show 4 + 4 + 1 ≤ 16 by decide) fun _ _ => rfl).2
    (by decide) rfl

end CuWasm
