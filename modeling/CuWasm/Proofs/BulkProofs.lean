import CuWasm.LinearMemory
import CuWasm.Proofs.MemoryProofs
import CuWasm.Proofs.StepProofs

/-!
# Bulk memory operations

`OP_MEMORY_COPY`, `OP_MEMORY_FILL` and `OP_MEMORY_INIT` test their bounds before they write the first
byte, so a trap changes nothing, and write exactly the bytes of the range. `OP_DATA_DROP` clears the
flag of one segment, and no instruction sets a flag again.
-/

namespace CuWasm

open Run Exit BlockMove

section Bulk

variable {v : Views} {m : DevModule} {s t : Mach} {segs : List (List Byte)}

/-- The three operands of a bulk instruction, the last one first. -/
theorem pop_three {x y z : Slot} (h : OnTop v s [x, y, z]) {g : Slot → Slot → Slot → Run Unit} :
    ∃ t, Popped 3 s t ∧
      (do let c ← pop v; let b ← pop v; let a ← pop v; g a b c : Run Unit) s = g x y z t := by
  obtain ⟨t1, e1, p1⟩ := h.pop (k := 2) (.refl s) rfl rfl
  obtain ⟨t2, e2, p2⟩ := h.pop (k := 1) p1 rfl rfl
  obtain ⟨t3, e3, p3⟩ := h.pop (k := 0) p2 rfl rfl
  refine ⟨t3, p3, ?_⟩
  rw [bind_ok e1, bind_ok e2, bind_ok e3]

theorem popped_live {n : Nat} (h : Popped n s t) : t.live = s.live := by
  have h := congrArg Mach.live h.others
  exact h

/-- A trap of a bulk instruction. -/
theorem bulkResult_error {oob : Prop} {dst n : Nat} {g : Nat → Byte} (ht : Popped 3 s t)
    (hc : oob) (log : List Access) :
    BulkResult v oob dst n g s (.error .trapMemOob { t with log := log }) :=
  ⟨hc, rfl, ht.stack, ht.others⟩

/-- The block written by a bulk instruction. -/
theorem overwritten {dst n : Nat} {f g : Nat → Byte} {mem : Nat → Byte} (ht : Popped 3 s t)
    (hmem : ∀ c, mem c = if v.memory + dst ≤ c ∧ c < v.memory + dst + n
      then f (c - (v.memory + dst)) else s.mem c)
    (hg : ∀ k < n, f k = g k) (log : List Access) :
    Overwritten v dst n g s { t with mem := mem, log := log } := by
  constructor
  · intro k hk
    show mem (v.memory + dst + k) = g k
    rw [hmem, if_pos (by omega), Nat.add_sub_cancel_left, hg k hk]
  · intro c hc
    show mem c = s.mem c
    rw [hmem, if_neg (by omega)]
  · exact ht.sp
  · exact ht.stack
  · rw [← ht.others, ← ht.mem]
    rfl

theorem exec_memoryCopy {i : CuOp} {x y z : Slot} (hop : i.op = .memoryCopy)
    (h : OnTop v s [x, y, z]) :
    let dst := operand .i32 x
    let src := operand .i32 y
    let n := operand .i32 z
    BulkResult v (s.memSize < src + n ∨ s.memSize < dst + n) dst n
      (fun k => s.mem (v.memory + src + k)) s (exec v m i s) := by
  simp only [operand_i32]
  simp only [exec, hop]
  unfold memoryCopy
  obtain ⟨t, ht, e⟩ := pop_three h (g := fun x y z => do
    let size := (← get).memSize
    if (u32 y).toNat + (u32 z).toNat > size ∨ (u32 x).toNat + (u32 z).toNat > size then
      throw .trapMemOob
    touch .memory (v.memory + (u32 y).toNat) (u32 z).toNat
    touch .memory (v.memory + (u32 x).toNat) (u32 z).toNat
    modify fun s => { s with
      mem := move s.mem v.memory (u32 x).toNat (u32 y).toNat (u32 z).toNat })
  refine Eq.subst (motive := BulkResult v _ _ _ _ s) e.symm ?_
  rw [bind_ok (get_apply t), ite_run, ht.memSize]
  by_cases hc : (u32 y).toNat + (u32 z).toNat > s.memSize ∨ (u32 x).toNat + (u32 z).toNat > s.memSize
  · rw [if_pos hc]
    exact bulkResult_error ht hc _
  · rw [if_neg hc]
    refine ⟨hc, overwritten ht (f := fun k => s.mem (v.memory + (u32 y).toNat + k)) (fun c => ?_)
      (fun k _ => rfl) _⟩
    show move t.mem v.memory (u32 x).toNat (u32 y).toNat (u32 z).toNat c = _
    rw [move_eq_blockMove, ht.mem]
    rfl

theorem exec_memoryFill {i : CuOp} {x y z : Slot} (hop : i.op = .memoryFill)
    (h : OnTop v s [x, y, z]) :
    let dst := operand .i32 x
    let n := operand .i32 z
    BulkResult v (s.memSize < dst + n) dst n (fun _ => BitVec.ofNat 8 (y.toNat % 256)) s
      (exec v m i s) := by
  simp only [operand_i32]
  simp only [exec, hop]
  unfold memoryFill
  obtain ⟨t, ht, e⟩ := pop_three h (g := fun x y z => do
    if (u32 x).toNat + (u32 z).toNat > (← get).memSize then throw .trapMemOob
    touch .memory (v.memory + (u32 x).toNat) (u32 z).toNat
    modify fun s => { s with
      mem := fillAsc s.mem (v.memory + (u32 x).toNat) (fun _ => y.setWidth 8) (u32 z).toNat })
  refine Eq.subst (motive := BulkResult v _ _ _ _ s) e.symm ?_
  rw [bind_ok (get_apply t), ite_run, ht.memSize]
  by_cases hc : (u32 x).toNat + (u32 z).toNat > s.memSize
  · rw [if_pos hc]
    exact bulkResult_error ht hc _
  · rw [if_neg hc]
    refine ⟨hc, overwritten ht (f := fun _ => y.setWidth 8) (fun c => ?_) (fun k _ => ?_) _⟩
    · rw [fillAsc_apply, ht.mem]
    · apply BitVec.eq_of_toNat_eq
      simp

theorem exec_memoryInit {i : CuOp} {x y z : Slot} (hsegs : DataSegments v segs)
    (hop : i.op = .memoryInit) (hd : i.a < segs.length) (h : OnTop v s [x, y, z]) :
    let dst := operand .i32 x
    let src := operand .i32 y
    let n := operand .i32 z
    let seg := segment v segs s.live i.a
    BulkResult v (seg.length < src + n ∨ s.memSize < dst + n) dst n (fun k => seg.getD (src + k) 0) s
      (exec v m i s) := by
  simp only [operand_i32]
  simp only [exec, hop]
  unfold memoryInit
  obtain ⟨t, ht, e⟩ := pop_three h (g := fun x y z => do
    if i.a ≥ v.nData then throw .trapMemOob
    touch .live (v.live + i.a)
    let alive := (← get).live (v.live + i.a) ≠ 0
    let dlen := if alive then v.dataLen.getD i.a 0 else 0
    let doff := if alive then v.dataOff.getD i.a 0 else 0
    if (u32 y).toNat + (u32 z).toNat > dlen ∨ (u32 x).toNat + (u32 z).toNat > (← get).memSize then
      throw .trapMemOob
    touch .memory (v.memory + (u32 x).toNat) (u32 z).toNat
    let seg := fun j => v.blob.getD (doff + (u32 y).toNat + j) 0
    modify fun s => { s with
      mem := fillAsc s.mem (v.memory + (u32 x).toNat) seg (u32 z).toNat })
  refine Eq.subst (motive := BulkResult v _ _ _ _ s) e.symm ?_
  have hseg : segs[i.a]? = some segs[i.a] := List.getElem?_eq_getElem hd
  have hdlen : (if t.live (v.live + i.a) ≠ 0 then v.dataLen.getD i.a 0 else 0) =
      (segment v segs s.live i.a).length := by
    rw [popped_live ht]
    unfold segment
    by_cases hl : s.live (v.live + i.a) = 0
    · rw [if_neg (by simpa using hl), if_pos hl, List.length_nil]
    · rw [if_pos hl, if_neg hl, hsegs.lens _ _ hseg, List.getD_eq_getElem?_getD, hseg]
      rfl
  have hbytes : ∀ j, j < (segment v segs s.live i.a).length →
      v.blob.getD ((if t.live (v.live + i.a) ≠ 0 then v.dataOff.getD i.a 0 else 0) + j) 0 =
        (segment v segs s.live i.a).getD j 0 := by
    intro j hj
    rw [popped_live ht]
    unfold segment at hj ⊢
    by_cases hl : s.live (v.live + i.a) = 0
    · rw [if_pos hl] at hj
      exact absurd hj (Nat.not_lt_zero j)
    · rw [if_neg hl, List.getD_eq_getElem?_getD, hseg, Option.getD_some] at hj
      rw [if_pos hl, if_neg hl, hsegs.bytes _ _ hseg j _ (List.getElem?_eq_getElem hj),
        List.getD_eq_getElem?_getD (i := i.a), hseg, Option.getD_some, List.getD_eq_getElem?_getD,
        List.getElem?_eq_getElem hj, Option.getD_some]
  rw [ite_run, if_neg (by rw [hsegs.count]; omega)]
  simp only [bind_apply, touch_apply, get_apply, ite_run, throw_apply, modify_apply]
  simp only [ne_eq] at hdlen
  rw [hdlen]
  by_cases hc : (u32 y).toNat + (u32 z).toNat > (segment v segs s.live i.a).length ∨
      (u32 x).toNat + (u32 z).toNat > t.memSize
  · rw [if_pos hc]
    rw [ht.memSize] at hc
    exact bulkResult_error ht hc _
  · rw [if_neg hc]
    rw [ht.memSize] at hc
    refine ⟨hc, overwritten ht (f := fun j => v.blob.getD
      ((if t.live (v.live + i.a) ≠ 0 then v.dataOff.getD i.a 0 else 0) + (u32 y).toNat + j) 0)
      (fun c => ?_) (fun k hk => ?_) _⟩
    · rw [fillAsc_apply, ht.mem]
    · rw [Nat.add_assoc, hbytes _ (by omega)]

/-! ## Live flags -/

theorem segment_congr {live live' : Nat → Byte} {d : Nat} (h : live (v.live + d) = live' (v.live + d)) :
    segment v segs live d = segment v segs live' d := by
  unfold segment
  rw [h]

theorem exec_dataDrop {i : CuOp} (hop : i.op = .dataDrop) (hd : i.a < v.nData) :
    exec v m i s = .ok () { s with
      live := Function.update s.live (v.live + i.a) 0
      log := ⟨.live, v.live + i.a, 1⟩ :: s.log } := by
  simp only [exec, hop]
  unfold dataDrop
  simp only [bind_apply, touch_apply, ite_run, throw_apply, modify_apply]
  rw [if_neg (by omega)]

/-- One instruction changes a flag only to drop its segment. -/
theorem step_live (s : Mach) (c : Nat) :
    (final (step v m s)).live c = s.live c ∨
      ((final (step v m s)).live c = 0 ∧
        ∃ i, m.code[s.pc]? = some i ∧ i.op = .dataDrop ∧ c = v.live + i.a) := by
  rcases Option.eq_none_or_eq_some (m.code[s.pc]?) with hi | ⟨i, hi⟩
  · left
    rw [step_apply, hi]
    rfl
  · rw [final_step v m hi]
    by_cases hop : i.op = .dataDrop
    · by_cases hd : i.a < v.nData
      · rw [exec_dataDrop hop hd]
        by_cases hc : c = v.live + i.a
        · right
          refine ⟨?_, i, hi, hop, hc⟩
          rw [hc]
          exact Function.update_self _ _ _
        · left
          exact Function.update_of_ne hc _ _
      · left
        simp only [exec, hop]
        unfold dataDrop
        simp only [bind_apply, touch_apply, ite_run, throw_apply, modify_apply]
        rw [if_pos (by omega)]
        rfl
    · left
      exact congrFun (exec_keeps_live v m hop (fetched s)) c

/-- A run of any length changes a flag only to drop its segment. -/
theorem loop_live (n : Nat) (s : Mach) (c : Nat) :
    (loop v m n s).2.live c = s.live c ∨
      ((loop v m n s).2.live c = 0 ∧ ∃ i ∈ m.code, i.op = .dataDrop ∧ c = v.live + i.a) := by
  induction n generalizing s with
  | zero => exact .inl rfl
  | succ n ih =>
    have hstep := step_live (v := v) (m := m) s c
    have hdrop : (∃ i, m.code[s.pc]? = some i ∧ i.op = .dataDrop ∧ c = v.live + i.a) →
        ∃ i ∈ m.code, i.op = .dataDrop ∧ c = v.live + i.a := by
      rintro ⟨i, hi, h⟩
      exact ⟨i, List.mem_of_getElem? hi, h⟩
    unfold loop
    cases hs : step v m s with
    | error e t =>
      rw [hs] at hstep
      exact hstep.imp_right (And.imp_right hdrop)
    | ok a t =>
      rw [hs] at hstep
      simp only [final_ok] at hstep
      rcases ih t with h | h
      · rcases hstep with h1 | ⟨h1, hi⟩
        · exact .inl (h.trans h1)
        · exact .inr ⟨h.trans h1, hdrop hi⟩
      · exact .inr h

end Bulk

/-- Bulk memory operations are atomic and exact, whatever the overlap and whatever segments are still
live, and a dropped segment is empty for every later instruction of every later run. -/
theorem bulk_memory_exact (v : Views) (m : DevModule) (segs : List (List Byte))
    (hsegs : DataSegments v segs) (s : Mach) :
    (∀ x y z, OnTop v s [x, y, z] →
      let dst := operand .i32 x
      let src := operand .i32 y
      let n := operand .i32 z
      (∀ a b, BulkResult v (s.memSize < src + n ∨ s.memSize < dst + n) dst n
        (fun k => s.mem (v.memory + src + k)) s (exec v m ⟨.memoryCopy, a, b⟩ s)) ∧
      (∀ a b, BulkResult v (s.memSize < dst + n) dst n (fun _ => BitVec.ofNat 8 (y.toNat % 256)) s
        (exec v m ⟨.memoryFill, a, b⟩ s)) ∧
      (∀ d b, d < segs.length →
        let seg := segment v segs s.live d
        BulkResult v (seg.length < src + n ∨ s.memSize < dst + n) dst n
          (fun k => seg.getD (src + k) 0) s (exec v m ⟨.memoryInit, d, b⟩ s))) ∧
    (∀ d b, d < segs.length →
      ∃ s', exec v m ⟨.dataDrop, d, b⟩ s = .ok () s' ∧
        { s' with live := s.live, log := s.log } = s ∧
        segment v segs s'.live d = [] ∧
        (∀ d', d' ≠ d → segment v segs s'.live d' = segment v segs s.live d') ∧
        -- whatever runs on these flags later
        ∀ (m' : DevModule) (t : Mach) (k : Nat), t.live = s'.live →
          segment v segs (loop v m' k t).2.live d = [] ∧
          ∀ d', (∀ i ∈ m'.code, i.op = .dataDrop → i.a ≠ d') → d' ≠ d →
            segment v segs (loop v m' k t).2.live d' = segment v segs s.live d') := by
  constructor
  · intro x y z h
    refine ⟨fun a b => exec_memoryCopy rfl h, fun a b => exec_memoryFill rfl h, fun d b hd => ?_⟩
    exact exec_memoryInit (i := ⟨.memoryInit, d, b⟩) hsegs rfl hd h
  · intro d b hd
    have hdrop : Function.update s.live (v.live + d) 0 (v.live + d) = 0 := Function.update_self _ _ _
    have hother (d' : Nat) (hne : d' ≠ d) :
        Function.update s.live (v.live + d) 0 (v.live + d') = s.live (v.live + d') :=
      Function.update_of_ne (by omega) _ _
    refine ⟨_, exec_dataDrop (i := ⟨.dataDrop, d, b⟩) rfl (hsegs.count ▸ hd), rfl, ?_, ?_, ?_⟩
    · exact if_pos hdrop
    · intro d' hne
      exact segment_congr (hother d' hne)
    · intro m' t k ht
      constructor
      · have hzero : (loop v m' k t).2.live (v.live + d) = 0 := by
          rcases loop_live (v := v) (m := m') k t (v.live + d) with h | h
          · rw [h, ht]
            exact hdrop
          · exact h.1
        exact if_pos hzero
      · intro d' hno hne
        have hsame : (loop v m' k t).2.live (v.live + d') = s.live (v.live + d') := by
          rcases loop_live (v := v) (m := m') k t (v.live + d') with h | ⟨-, i, hi, hop, hc⟩
          · rw [h, ht]
            exact hother d' hne
          · exact absurd (by omega) (hno i hi hop)
        exact segment_congr hsame

/-- Two data segments behind one another in a blob. -/
def bulkViews : Views :=
  { operandViews with nData := 2, blob := [1, 2, 3, 4], dataOff := [0, 3], dataLen := [3, 1] }

theorem bulkViews_segments : DataSegments bulkViews [[1, 2, 3], [4]] := by
  have hcases (d : Nat) (seg : List Byte) (h : [[1, 2, 3], [4]][d]? = some seg) :
      (d = 0 ∧ seg = [1, 2, 3]) ∨ (d = 1 ∧ seg = [4]) := by
    rcases d with _ | _ | d
    · exact .inl ⟨rfl, by simpa using h.symm⟩
    · exact .inr ⟨rfl, by simpa using h.symm⟩
    · simp at h
  refine ⟨rfl, fun d seg h => ?_, fun d seg h => ?_, fun d seg h k x hk => ?_⟩
  · rcases hcases d seg h with ⟨rfl, rfl⟩ | ⟨rfl, rfl⟩ <;> rfl
  · rcases hcases d seg h with ⟨rfl, rfl⟩ | ⟨rfl, rfl⟩ <;> decide
  · rcases hcases d seg h with ⟨rfl, rfl⟩ | ⟨rfl, rfl⟩
    · rcases k with _ | _ | _ | k <;> simp_all [bulkViews]
    · rcases k with _ | k <;> simp_all [bulkViews]

/-- An overlapping copy upwards, and an init from a live segment. -/
theorem bulk_overlap_and_init :
    (∃ s', exec bulkViews ⟨[], [], [], [], [], []⟩ ⟨.memoryCopy, 0, 0⟩
        { operandMach [1, 0, 3] with memSize := 4, mem := fun c => BitVec.ofNat 8 c } = .ok () s' ∧
      s'.mem 3 = 2) ∧
    ∃ s', exec bulkViews ⟨[], [], [], [], [], []⟩ ⟨.memoryInit, 0, 0⟩
        { operandMach [1, 0, 3] with memSize := 4, live := fun _ => 1 } = .ok () s' ∧ s'.mem 3 = 3 := by
  have htop := onTop_operandMach [1, 0, 3] (by decide)
  constructor
  · have h := ((bulk_memory_exact bulkViews ⟨[], [], [], [], [], []⟩ _ bulkViews_segments
      { operandMach [1, 0, 3] with memSize := 4, mem := fun c => BitVec.ofNat 8 c }).1 1 0 3
      ⟨htop.enough, htop.fits, htop.operands⟩).1 0 0
    generalize exec bulkViews _ _ _ = r at h ⊢
    cases r with
    | ok _ s' => exact ⟨s', rfl, h.2.block 2 (by decide)⟩
    | error e s' => exact absurd h.1 (by decide)
  · have h := ((bulk_memory_exact bulkViews ⟨[], [], [], [], [], []⟩ _ bulkViews_segments
      { operandMach [1, 0, 3] with memSize := 4, live := fun _ => 1 }).1 1 0 3
      ⟨htop.enough, htop.fits, htop.operands⟩).2.2 0 0 (by decide)
    generalize exec bulkViews _ _ _ = r at h ⊢
    cases r with
    | ok _ s' => exact ⟨s', rfl, h.2.block 2 (by decide)⟩
    | error e s' => exact absurd h.1 (by decide)

end CuWasm
