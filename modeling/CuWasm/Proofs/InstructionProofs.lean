import CuWasm.Proofs.ActivationProofs

/-!
# Instructions and operators

For every operator without control flow, what its instruction does to the machine is what the
structured semantics says.
-/

namespace CuWasm

open Exit Run Wasm LittleEndian

section Instructions

variable {H : Type} {m : HostModule} {e : FuncMeta} {host : HostFn H} {A : Activation} {pc a b c : Nat}
  {xs ls : List Nat} {s : Wasm.Store H} {x : Flat H} {P : Flat H → Prop}
  {Q : Outgoing H → Flat H → Prop}

/-! ## Constants, locals and globals -/

theorem InFrame.const {v : Nat} (h : InFrame m A pc xs ls s x) (hQ : ∀ r y, Exhausted r → Q r y)
    (hi : m.code[pc]? = some ⟨.i64Const, 0, c⟩) (hc : m.consts[c]? = some (BitVec.ofNat 64 v)) :
    Eventually (hosted m e host) (InFrame m A (pc + 1) (v :: xs) ls s) Q x := by
  refine h.push hQ hi (g := pure (m.consts.getD c 0)) (l := []) rfl ?_
  rw [List.getD_eq_getElem?_getD, hc]
  rfl

theorem InFrame.localGet (h : InFrame m A pc xs ls s x) (hQ : ∀ r y, Exhausted r → Q r y)
    (hi : m.code[pc]? = some ⟨.localGet, b, 0⟩) (ha : ls[b]? = some a) :
    Eventually (hosted m e host) (InFrame m A (pc + 1) (a :: xs) ls s) Q x := by
  have hfp : (fetched x.mach).fp = x.mach.fp := rfl
  refine h.push hQ hi (g := do stackGet m.cpuViews ((← get).fp + b))
    (l := [⟨.stack, x.mach.fp + b, 1⟩]) rfl ?_
  simp only [bind_apply, get_apply, stackGet_apply, cpuViews_stack_idx, hfp]
  rw [h.fp, ← h.locals b a ha]
  rfl

theorem InFrame.globalGet (h : InFrame m A pc xs ls s x) (hQ : ∀ r y, Exhausted r → Q r y)
    (hi : m.code[pc]? = some ⟨.globalGet, 0, b⟩) (ha : s.globals[b]? = some a) :
    Eventually (hosted m e host) (InFrame m A (pc + 1) (a :: xs) ls s) Q x := by
  have hlt : ¬ b ≥ m.cpuViews.nGlobals :=
    Nat.not_le.mpr ((List.getElem?_eq_some_iff.mp ha).1.trans_eq h.store.count)
  refine h.push hQ hi (l := [⟨.globals, 0 + b, 1⟩])
    (g := do touch .globals (m.cpuViews.globals + b); return (← get).globals (m.cpuViews.globals + b))
    ?_ ?_
  · simp only [Run.exec, Run.globalGet]
    rw [if_neg hlt]
  · simp only [bind_apply, touch_apply, get_apply, cpuViews_globals, Nat.zero_add]
    rw [← h.store.globals b a ha]
    rfl

/-- The topmost operand, popped. -/
theorem InFrame.pop (h : InFrame m A pc (a :: xs) ls s x) :
    ∃ t, Run.pop m.cpuViews (fetched x.mach) = .ok (BitVec.ofNat 64 a) t ∧
      Popped 1 (fetched x.mach) t ∧ InFrame m A (pc + 1) xs ls s ⟨t, x.host⟩ := by
  obtain ⟨t, et, pt⟩ := (h.onTop (u := [a])).pop (k := 0) (.refl _) rfl rfl
  exact ⟨t, et, pt, InFrame.popped (u := [a]) h pt⟩

theorem InFrame.drop (h : InFrame m A pc (a :: xs) ls s x)
    (hi : m.code[pc]? = some ⟨.drop, 0, 0⟩) :
    Eventually (hosted m e host) (InFrame m A (pc + 1) xs ls s) Q x := by
  obtain ⟨t, et, -, ht⟩ := h.pop
  refine eventually_of_exec (h.pc ▸ hi) (t := t) ?_ ht.fits ht
  simp only [Run.exec]
  rw [bind_ok et]
  rfl

theorem InFrame.localSet (h : InFrame m A pc (a :: xs) ls s x)
    (hi : m.code[pc]? = some ⟨.localSet, b, 0⟩) (hb : b < ls.length) :
    Eventually (hosted m e host) (InFrame m A (pc + 1) xs (ls.set b a) s) Q x := by
  obtain ⟨t, et, -, ht⟩ := h.pop
  have hcount := h.count
  have hroom := h.room
  refine eventually_of_exec (h.pc ▸ hi) (t := { t with
    stack := Function.update t.stack (t.fp + b) (BitVec.ofNat 64 a)
    log := ⟨.stack, t.fp + b, 1⟩ :: t.log }) ?_ ht.fits ?_
  · simp only [Run.exec]
    rw [bind_ok et]
    simp only [bind_apply, get_apply, stackSet, touch_apply, modify_apply, cpuViews_stack_idx]
  · have hfp : t.fp = A.fp := ht.fp
    have hsp : t.sp = A.fp + A.slots + xs.length := ht.sp
    refine ⟨ht.pc, ht.fp, ht.csp, ht.sp, ht.fits, by rw [List.length_set, hcount], hroom,
      fun j v hj => ?_, fun j v hj => ?_, fun j hj => ?_, ht.frames, ht.store.congr rfl rfl rfl rfl rfl⟩
    · simp only [hfp]
      by_cases hjb : b = j
      · subst hjb
        rw [List.getElem?_set_self hb] at hj
        cases hj
        exact Function.update_self ..
      · rw [List.getElem?_set_ne hjb] at hj
        rw [Function.update_of_ne (by omega)]
        exact ht.locals j v hj
    · have hlt := (List.getElem?_eq_some_iff.mp hj).1
      simp only [hfp]
      rw [Function.update_of_ne (by omega)]
      exact ht.operands j v hj
    · simp only [hfp]
      rw [Function.update_of_ne (by omega)]
      exact ht.below j hj

theorem HoldsStore.setGlobal {y : Flat H} (h : HoldsStore m s y) (hb : b < s.globals.length)
    (log : List Access) : HoldsStore m { s with globals := s.globals.set b a }
      ⟨{ y.mach with
        globals := Function.update y.mach.globals b (BitVec.ofNat 64 a)
        log := log }, y.host⟩ where
  count := (List.length_set ..).trans h.count
  globals := fun j v hj => by
    by_cases hjb : b = j
    · subst hjb
      rw [List.getElem?_set_self hb] at hj
      cases hj
      exact Function.update_self ..
    · rw [List.getElem?_set_ne hjb] at hj
      exact (Function.update_of_ne (fun hne => hjb hne.symm) _ _).trans (h.globals j v hj)
  mem := h.mem
  size := h.size
  grown := h.grown
  live := h.live
  beyond := h.beyond
  host := h.host
  zero := ⟨h.zero.pages, h.zero.le, h.zero.zero⟩

/-- A machine whose store has changed, and nothing else. -/
theorem InFrame.withStore {s' : Wasm.Store H} {y z : Flat H} (h : InFrame m A pc xs ls s y)
    (hz : ∀ {γ : Type} (f : Mach → γ), (∀ u g mm ms l lg, f { u with
      globals := g, mem := mm, memSize := ms, live := l, log := lg } = f u) → f z.mach = f y.mach)
    (hs : HoldsStore m s' z) : InFrame m A pc xs ls s' z := by
  have hst := hz (·.stack) fun _ _ _ _ _ _ => rfl
  have hfr := hz (·.frames) fun _ _ _ _ _ _ => rfl
  have hsp := hz (·.sp) fun _ _ _ _ _ _ => rfl
  refine ⟨(hz (·.pc) fun _ _ _ _ _ _ => rfl).trans h.pc, (hz (·.fp) fun _ _ _ _ _ _ => rfl).trans h.fp,
    (hz (·.csp) fun _ _ _ _ _ _ => rfl).trans h.csp, hsp.trans h.sp, hsp ▸ h.fits, h.count, h.room,
    hst ▸ h.locals, ?_, hst ▸ h.below, hfr ▸ h.frames, hs⟩
  rw [hst, hsp]
  exact h.operands

theorem InFrame.globalSet (h : InFrame m A pc (a :: xs) ls s x)
    (hi : m.code[pc]? = some ⟨.globalSet, 0, b⟩) (hb : b < s.globals.length) :
    Eventually (hosted m e host)
      (InFrame m A (pc + 1) xs ls { s with globals := s.globals.set b a }) Q x := by
  obtain ⟨t, et, -, ht⟩ := h.pop
  have hlt : ¬ b ≥ m.cpuViews.nGlobals := Nat.not_le.mpr (hb.trans_eq h.store.count)
  refine eventually_of_exec (h.pc ▸ hi) (t := { t with
    globals := Function.update t.globals b (BitVec.ofNat 64 a)
    log := ⟨.globals, 0 + b, 1⟩ :: t.log }) ?_ ht.fits ?_
  · simp only [Run.exec, Run.globalSet]
    rw [if_neg hlt, bind_ok et]
    simp only [bind_apply, touch_apply, modify_apply, cpuViews_globals, Nat.zero_add]
  · exact ht.withStore (fun f hf => by
      have := hf t (Function.update t.globals b (BitVec.ofNat 64 a)) t.mem t.memSize t.live
        (⟨.globals, 0 + b, 1⟩ :: t.log)
      exact this) (ht.store.setGlobal hb _)

/-! ## Values -/

theorem InFrame.select {d : Nat} (h : InFrame m A pc (d :: b :: a :: xs) ls s x)
    (hi : m.code[pc]? = some ⟨.select, 0, 0⟩) :
    Eventually (hosted m e host)
      (InFrame m A (pc + 1) ((if d % 2 ^ 32 ≠ 0 then a else b) :: xs) ls s) Q x := by
  have htop := h.onTop (u := [d, b, a])
  have hsp := h.sp
  simp only [List.length_cons] at hsp
  have hfit := h.fits
  refine InFrame.yields (u := [d, b, a]) (w := [if d % 2 ^ 32 ≠ 0 then a else b]) h hi rfl ?_
    (by show x.mach.sp - 3 + 1 ≤ STACK_CAP; omega)
  obtain ⟨t, pt, et⟩ := pop_three htop (g := fun x y z => do
    Run.push m.cpuViews (pure (if u32 z ≠ 0 then x else y)))
  have hexec : Run.exec m.cpuViews m.dev ⟨.select, 0, 0⟩ (fetched x.mach) =
      (do
        let z ← Run.pop m.cpuViews
        let y ← Run.pop m.cpuViews
        let x ← Run.pop m.cpuViews
        Run.push m.cpuViews (pure (if u32 z ≠ 0 then x else y)) : Run Unit) (fetched x.mach) := rfl
  rw [hexec, et]
  obtain ⟨t', et', hr⟩ := pt.push (v := m.cpuViews) (by omega)
    (by show 3 ≤ x.mach.sp; omega) hfit
    (if u32 (BitVec.ofNat 64 d) ≠ 0 then BitVec.ofNat 64 a else BitVec.ofNat 64 b)
  have hcond : u32 (BitVec.ofNat 64 d) = 0 ↔ d % 2 ^ 32 = 0 := by
    rw [toNat_eq_zero, ← operand_i32, operand_i32_ofNat]
  have hval : (if u32 (BitVec.ofNat 64 d) ≠ 0 then BitVec.ofNat 64 a else BitVec.ofNat 64 b) =
      BitVec.ofNat 64 (if d % 2 ^ 32 ≠ 0 then a else b) := by
    by_cases hd : d % 2 ^ 32 = 0
    · rw [if_neg (not_not_intro (hcond.mpr hd)), if_neg (not_not_intro hd)]
    · rw [if_pos (mt hcond.mp hd), if_pos hd]
  rw [et']
  rw [hval] at hr
  exact ⟨_, rfl, hr⟩

/-- The operands of an integer operator as the instruction reads them. -/
theorem map_operand (t : ValType) (ys : List Nat) :
    (ys.map (BitVec.ofNat 64)).map (operand t) = ys.map (· % 2 ^ t.width) := by
  rw [List.map_map]
  exact List.map_congr_left fun a _ => toNat_operand t a

section Num

variable {o : NumOp} {u w : List Nat} (h : InFrame m A pc (u ++ xs) ls s x)
  (hi : m.code[pc]? = some ⟨(NumOp.lower o).1, (NumOp.lower o).2.1, 0⟩)
  (hlen : u.length = o.type.1.1)

include h hlen

theorem InFrame.num_yields :
    Yields m.cpuViews o.type.1.1 (slots (o.apply (u.reverse.map (· % 2 ^ o.type.1.2.width))))
      (fetched x.mach)
      (Run.exec m.cpuViews m.dev ⟨(NumOp.lower o).1, (NumOp.lower o).2.1, 0⟩ (fetched x.mach)) := by
  have hy := numOp_yields (m := m.dev) o (i := ⟨(NumOp.lower o).1, (NumOp.lower o).2.1, 0⟩) rfl rfl
    (by rw [List.length_map, List.length_reverse, hlen]) h.onTop
  rwa [map_operand] at hy

include hi

theorem InFrame.num (hr : o.apply (u.reverse.map (· % 2 ^ o.type.1.2.width)) = .ok w)
    (hle : w.length ≤ u.length) :
    Eventually (hosted m e host) (InFrame m A (pc + 1) (w.reverse ++ xs) ls s) Q x := by
  have hy := h.num_yields hlen
  have hsp := h.sp
  have hfit := h.fits
  rw [List.length_append] at hsp
  rw [hr] at hy
  refine h.yields (w := w.reverse) hi hlen ?_ (by rw [List.length_reverse]; omega)
  rwa [List.reverse_reverse]

theorem InFrame.num_trap {f : Trap}
    (hr : o.apply (u.reverse.map (· % 2 ^ o.type.1.2.width)) = .error f)
    (hQ : ∀ r y, Means (.trap (.arith f) s) r → Q r y) : Eventually (hosted m e host) P Q x := by
  have hy := h.num_yields hlen
  rw [hr] at hy
  exact h.yields_trap hi hy hQ

end Num

/-! ## Memory -/

/-- The bytes of the memory have been overwritten inside its size, and `ys` popped. -/
theorem InFrame.written {u : List Nat} {t : Mach} {dst k : Nat} {g : Nat → Nat}
    (h : InFrame m A pc (u ++ xs) ls s x) (hsp : t.sp = x.mach.sp - u.length)
    (hst : t.stack = x.mach.stack) (hmem : bytes t.mem = blit s.mem dst k g)
    (hin : dst + k ≤ s.size)
    (hoff : { t.offStack with mem := (fetched x.mach).mem } = (fetched x.mach).offStack) :
    InFrame m A (pc + 1) xs ls { s with mem := blit s.mem dst k g } ⟨t, x.host⟩ := by
  have hg := congrArg Mach.globals hoff
  have hs := congrArg Mach.memSize hoff
  have hl := congrArg Mach.live hoff
  have hctl := congrArg Run.control hoff
  have hfit := h.fits
  refine InFrame.replace (w := []) h hctl (by simpa using hsp) (fun j a hj => by simp at hj)
    (fun j _ => by rw [hst]) (by omega)
    ⟨h.store.count, fun j a hj => ?_, hmem, ?_, h.store.grown, fun d => ?_, h.store.beyond,
      h.store.host, ?_⟩
  · exact (congrFun hg j).trans (h.store.globals j a hj)
  · exact hs.trans h.store.size
  · rw [← h.store.live d]
    exact iff_of_eq (congrArg (· = 0) (congrFun hl d))
  · have hsize : t.memSize = x.mach.memSize := hs
    refine ⟨by rw [hsize]; exact h.store.zero.pages, by rw [hsize]; exact h.store.zero.le,
      fun c hc1 hc2 => ?_⟩
    have hc : s.size ≤ c := by rwa [← h.store.size, ← hsize]
    have h0 := h.store.zero.zero c (hsize ▸ hc1) hc2
    have hbyte : (t.mem c).toNat = blit s.mem dst k g c := congrFun hmem c
    rw [cpuViews_memory, Nat.zero_add] at h0 ⊢
    rw [blit, if_neg (by omega), ← h.store.mem, bytes, h0] at hbyte
    exact BitVec.eq_of_toNat_eq hbyte

theorem performs_trap {f : Fault}
    (h : Eventually (hosted m e host) (fun _ => False) (fun r _ => Exhausted r ∨ Means (.trap f s) r) x) :
    Performs m e host A pc (.trap f s) x :=
  h.mono (fun _ hf => hf.elim) fun _ _ hr => hr

/-- An instruction that pops `u` and writes `k` bytes, or traps. -/
theorem InFrame.writes {u : List Nat} {i : CuOp} {oob : Bool} {dst k : Nat} {g : Nat → Nat}
    (h : InFrame m A pc (u ++ xs) ls s x) (hi : m.code[pc]? = some i)
    (htrap : oob = true ∨ dst + k > s.size → ∃ t,
      Run.exec m.cpuViews m.dev i (fetched x.mach) = .error .trapMemOob t ∧
        t.offStack = (fetched x.mach).offStack)
    (hok : ¬ (oob = true ∨ dst + k > s.size) → ∃ t,
      Run.exec m.cpuViews m.dev i (fetched x.mach) = .ok () t ∧ t.sp = x.mach.sp - u.length ∧
        t.stack = x.mach.stack ∧ bytes t.mem = blit s.mem dst k g ∧
        { t.offStack with mem := (fetched x.mach).mem } = (fetched x.mach).offStack) :
    Performs m e host A (pc + 1) (s.write oob dst k g xs ls) x := by
  unfold Wasm.Store.write
  by_cases hc : oob = true ∨ dst + k > s.size
  · rw [if_pos hc]
    obtain ⟨t, het, hoff⟩ := htrap hc
    exact performs_trap (h.traps (f := .memory) hi het hoff fun r _ hr => .inr hr)
  · rw [if_neg hc]
    obtain ⟨t, het, hsp, hst, hmem, hoff⟩ := hok hc
    have hin : dst + k ≤ s.size := Nat.not_lt.mp fun hlt => hc (.inr hlt)
    have ht := h.written hsp hst hmem hin hoff
    exact eventually_of_exec (h.pc ▸ hi) het ht.fits ht

/-- A bulk instruction. -/
theorem InFrame.bulk {u : List Nat} {i : CuOp} {oob : Bool} {oob' : Prop} {dst k : Nat}
    {g : Nat → Nat} {g' : Nat → Byte} (h : InFrame m A pc (u ++ xs) ls s x) (hlen : u.length = 3)
    (hi : m.code[pc]? = some i)
    (hb : BulkResult m.cpuViews oob' dst k g' (fetched x.mach)
      (Run.exec m.cpuViews m.dev i (fetched x.mach)))
    (hoob : oob' ↔ oob = true ∨ dst + k > s.size) (hg : ∀ j < k, (g' j).toNat = g j) :
    Performs m e host A (pc + 1) (s.write oob dst k g xs ls) x := by
  cases hr : Run.exec m.cpuViews m.dev i (fetched x.mach) with
  | error st t =>
    rw [hr] at hb
    obtain ⟨hc, rfl, -, hoff⟩ := hb
    exact h.writes hi (fun _ => ⟨t, hr, hoff⟩) fun hn => absurd (hoob.mp hc) hn
  | ok _ t =>
    rw [hr] at hb
    obtain ⟨hc, hw⟩ := hb
    refine h.writes hi (fun hn => absurd (hoob.mpr hn) hc) fun _ =>
      ⟨t, hr, by rw [hlen]; exact hw.sp, hw.stack, ?_, hw.others⟩
    funext c
    have hmem : (fetched x.mach).mem c = x.mach.mem c := rfl
    rw [bytes, blit, ← h.store.mem]
    by_cases hcd : dst ≤ c ∧ c < dst + k
    · have hblock := hw.block (c - dst) (by omega)
      rw [cpuViews_memory, Nat.zero_add, Nat.add_sub_cancel' hcd.1] at hblock
      rw [if_pos hcd, hblock, hg _ (by omega)]
    · rw [if_neg hcd, hw.rest c (by rw [cpuViews_memory]; omega), hmem]
      rfl

theorem digit_mod {y i k : Nat} (h : i < k) : digit (y % 256 ^ k) i = digit y i := by
  have hk : 256 ^ k = 256 ^ i * 256 ^ (k - i) := by rw [← pow_add]; congr 1; omega
  unfold digit
  rw [hk, Nat.mod_mul_right_div_self]
  exact Nat.mod_mod_of_dvd _ (Dvd.intro_left (256 ^ (k - i - 1)) (by
    rw [← pow_succ]
    congr 1
    omega))

theorem InFrame.store_ {v off : Nat} {o : StoreOp} (h : InFrame m A pc (v :: a :: xs) ls s x)
    (hi : m.code[pc]? = some ⟨.store, StoreOp.lower o, off⟩) :
    Performs m e host A (pc + 1)
      (s.write false (a % 2 ^ 32 + off) o.bytes (digit v) xs ls) x := by
  have htop := h.onTop (u := [v, a])
  have hbytes : 0 < o.bytes ∧ o.bytes ≤ 8 := by cases o <;> decide
  rw [storeOp_bytes] at hi
  have hw := exec_store (m := m.dev) (i := ⟨.store, o.bytes, off⟩) rfl htop hbytes.1 hbytes.2
  rw [← operand_i32, operand_i32_ofNat] at hw
  have hsize : (fetched x.mach).memSize = s.size := h.store.size
  rw [hsize] at hw
  refine InFrame.writes (u := [v, a]) h hi (fun hc => ?_) fun hc => ?_
  · have hlt : ¬ a % 2 ^ 32 + off + o.bytes ≤ s.size := by simpa using hc
    rw [if_neg hlt] at hw
    cases hr : Run.exec m.cpuViews m.dev ⟨.store, o.bytes, off⟩ (fetched x.mach) with
    | error st t =>
      rw [hr] at hw
      obtain ⟨heq, -, hoff⟩ := hw
      cases heq
      exact ⟨t, rfl, hoff⟩
    | ok _ t =>
      rw [hr] at hw
      obtain ⟨zs, heq, -⟩ := hw
      cases heq
  · have hle : a % 2 ^ 32 + off + o.bytes ≤ s.size := by simpa using hc
    rw [if_pos hle] at hw
    obtain ⟨t, het, hst⟩ := hw
    refine ⟨t, het, hst.sp, hst.stack, ?_, hst.others⟩
    rw [hst.mem, cpuViews_memory, Nat.zero_add]
    have hmem : bytes (fetched x.mach).mem = s.mem := h.store.mem
    rw [hmem]
    funext c
    unfold LittleEndian.write blit
    split_ifs with hcd
    · simp only at hcd
      have hlt : c - (a % 2 ^ 32 + off) < 8 := by omega
      rw [BitVec.toNat_ofNat, show 2 ^ 64 = 256 ^ 8 by norm_num, digit_mod hlt]
    · rfl

theorem InFrame.load {off : Nat} {o : LoadOp} (h : InFrame m A pc (a :: xs) ls s x)
    (hi : m.code[pc]? = some ⟨.load, LoadOp.lower o, off⟩) :
    Performs m e host A (pc + 1)
      (if a % 2 ^ 32 + off + o.bytes ≤ s.size then
        .next (o.extend (value s.mem (a % 2 ^ 32 + off) o.bytes) :: xs) ls s
      else .trap .memory s) x := by
  have hy := load_yields (m := m.dev) o off (h.onTop (u := [a]))
  have hsize : (fetched x.mach).memSize = s.size := h.store.size
  have hmem : bytes (fetched x.mach).mem = s.mem := h.store.mem
  rw [operand_i32_ofNat, hsize, hmem, cpuViews_memory, Nat.zero_add] at hy
  have hsp := h.sp
  have hfit := h.fits
  rw [List.length_cons] at hsp
  split_ifs at hy ⊢ with hc
  · refine InFrame.yields (u := [a])
      (w := [o.extend (value s.mem (a % 2 ^ 32 + off) o.bytes)]) h hi rfl hy ?_
    show x.mach.sp - 1 + 1 ≤ STACK_CAP
    omega
  · exact performs_trap (h.yields_trap (f := .memory) hi hy fun r _ hr => .inr hr)

theorem InFrame.memoryCopy {k src dst : Nat} (h : InFrame m A pc (k :: src :: dst :: xs) ls s x)
    (hi : m.code[pc]? = some ⟨.memoryCopy, 0, 0⟩) :
    Performs m e host A (pc + 1)
      (s.write (src % 2 ^ 32 + k % 2 ^ 32 > s.size) (dst % 2 ^ 32) (k % 2 ^ 32)
        (fun j => s.mem (src % 2 ^ 32 + j)) xs ls) x := by
  have hb := exec_memoryCopy (m := m.dev) (i := ⟨.memoryCopy, 0, 0⟩) rfl
    (h.onTop (u := [k, src, dst]))
  have hsize : (fetched x.mach).memSize = s.size := h.store.size
  simp only [operand_i32_ofNat, hsize, cpuViews_memory, Nat.zero_add] at hb
  refine InFrame.bulk (u := [k, src, dst]) h rfl hi hb ?_ fun j _ => ?_
  · rw [decide_eq_true_iff]
  · rw [← h.store.mem]
    rfl

theorem InFrame.memoryFill {k v dst : Nat} (h : InFrame m A pc (k :: v :: dst :: xs) ls s x)
    (hi : m.code[pc]? = some ⟨.memoryFill, 0, 0⟩) :
    Performs m e host A (pc + 1)
      (s.write false (dst % 2 ^ 32) (k % 2 ^ 32) (fun _ => v % 256) xs ls) x := by
  have hb := exec_memoryFill (m := m.dev) (i := ⟨.memoryFill, 0, 0⟩) rfl
    (h.onTop (u := [k, v, dst]))
  have hsize : (fetched x.mach).memSize = s.size := h.store.size
  simp only [operand_i32_ofNat, hsize] at hb
  refine InFrame.bulk (u := [k, v, dst]) h rfl hi hb ?_ fun j _ => ?_
  · rw [Bool.false_eq_true, false_or]
  · rw [BitVec.toNat_ofNat, BitVec.toNat_ofNat]
    omega

theorem InFrame.memoryInit {segs : List (List Byte)} {d k src dst : Nat}
    (hsegs : DataSegments m.cpuViews segs) (hd : d < segs.length)
    (h : InFrame m A pc (k :: src :: dst :: xs) ls s x)
    (hi : m.code[pc]? = some ⟨.memoryInit, d, 0⟩) :
    let seg := if s.dropped d then [] else (segs.map fun seg => seg.map BitVec.toNat).getD d []
    Performs m e host A (pc + 1)
      (s.write (src % 2 ^ 32 + k % 2 ^ 32 > seg.length) (dst % 2 ^ 32) (k % 2 ^ 32)
        (fun j => seg.getD (src % 2 ^ 32 + j) 0) xs ls) x := by
  have hb := exec_memoryInit (m := m.dev) (i := ⟨.memoryInit, d, 0⟩) hsegs rfl hd
    (h.onTop (u := [k, src, dst]))
  have hsize : (fetched x.mach).memSize = s.size := h.store.size
  simp only [operand_i32_ofNat, hsize] at hb
  set seg' := segment m.cpuViews segs (fetched x.mach).live d with hseg'
  have hseg : (if s.dropped d then [] else (segs.map fun seg => seg.map BitVec.toNat).getD d []) =
      seg'.map BitVec.toNat := by
    have hlive : (fetched x.mach).live d = 0 ↔ s.dropped d = true := h.store.live d
    rw [hseg', segment, cpuViews_live, Nat.zero_add]
    by_cases hl : (fetched x.mach).live d = 0
    · rw [if_pos (hlive.mp hl), if_pos hl]
      rfl
    · rw [if_neg (fun hn => hl (hlive.mpr hn)), if_neg hl]
      simp [List.getD_eq_getElem?_getD, List.getElem?_eq_getElem hd]
  rw [hseg]
  refine InFrame.bulk (u := [k, src, dst]) h rfl hi hb ?_ fun j _ => ?_
  · rw [decide_eq_true_iff, List.length_map]
  · rw [List.getD_eq_getElem?_getD, List.getD_eq_getElem?_getD, List.getElem?_map]
    cases seg'[src % 2 ^ 32 + j]? <;> rfl

theorem InFrame.memorySize (h : InFrame m A pc xs ls s x) (hi : m.code[pc]? = some ⟨.memorySize, 0, 0⟩) :
    Performs m e host A (pc + 1) (.next (s.size / 65536 :: xs) ls s) x := by
  refine h.push (fun r _ hr => .inl hr) hi
    (g := pure (BitVec.ofNat 64 (x.mach.memSize / WASM_PAGE))) (l := []) ?_ ?_
  · simp only [Run.exec, bind_apply, get_apply]
    rfl
  · rw [h.store.size]
    rfl

theorem HoldsStore.grow {y : Flat H} (pages : Nat) (h : HoldsStore m s y)
    (hle : pages * 65536 ≤ m.memMax) (hge : s.size ≤ pages * 65536) :
    HoldsStore m (s.grow pages) ⟨{ y.mach with memSize := pages * 65536 }, y.host⟩ where
  count := h.count
  globals := h.globals
  mem := by
    funext c
    show bytes y.mach.mem c = blit s.mem s.size (pages * 65536 - s.size) (fun _ => 0) c
    unfold blit
    split_ifs with hc
    · have h0 := h.zero.zero c (by rw [h.size]; exact hc.1)
        (by show c < m.memMax; omega)
      rw [cpuViews_memory, Nat.zero_add] at h0
      rw [bytes, h0]
      rfl
    · rw [h.mem]
  size := rfl
  grown := h.grown.trans hge
  live := h.live
  beyond := h.beyond
  host := h.host
  zero := ⟨Dvd.intro_left _ rfl, hle, fun c hc1 hc2 => h.zero.zero c (by
    have : y.mach.memSize ≤ c := h.size ▸ hge.trans hc1
    exact this) hc2⟩

theorem InFrame.memoryGrow {d : Nat} (hmax : m.memMax < 2 ^ 32) (h : InFrame m A pc (d :: xs) ls s x)
    (hi : m.code[pc]? = some ⟨.memoryGrow, 0, 0⟩) :
    let pages := s.size / 65536 + d % 2 ^ 32
    Performs m e host A (pc + 1)
      (if pages ≤ m.memMax / WASM_PAGE ∧ pages ≤ 65536 then
        .next (s.size / 65536 :: xs) ls (s.grow pages)
      else .next ((2 ^ 32 - 1) :: xs) ls s) x := by
  intro pages
  have hy := exec_memoryGrow (m := m.dev) (i := ⟨.memoryGrow, 0, 0⟩) hmax rfl (h.onTop (u := [d]))
  have hsize : (fetched x.mach).memSize = s.size := h.store.size
  have hview : m.cpuViews.memMax = m.memMax := rfl
  have hpage : WASM_PAGE = 65536 := rfl
  have hfit := h.fits
  have hsp := h.sp
  rw [List.length_cons] at hsp
  simp only [operand_i32_ofNat, hsize, hview, hpage] at hy
  rw [hpage]
  by_cases hc : pages ≤ m.memMax / 65536
  · have hc' : pages ≤ 65536 := by omega
    rw [if_pos hc] at hy
    rw [if_pos ⟨hc, hc'⟩]
    have hdvd : 65536 ∣ s.size := hsize ▸ h.store.zero.pages
    have hgrow := h.store.grow pages (by omega) (by omega)
    have hx := h.withStore (z := ⟨{ x.mach with memSize := pages * 65536 }, x.host⟩) (fun f hf =>
      hf x.mach x.mach.globals x.mach.mem (pages * 65536) x.mach.live x.mach.log) hgrow
    cases hr : Run.exec m.cpuViews m.dev ⟨.memoryGrow, 0, 0⟩ (fetched x.mach) with
    | error st t =>
      rw [hr] at hy
      exact absurd hy.1 nofun
    | ok _ t =>
      rw [hr] at hy
      obtain ⟨ws, heq, hrep⟩ := hy
      cases heq
      have hcap : t.sp ≤ STACK_CAP := by
        have : t.sp = x.mach.sp - 1 + 1 := hrep.sp
        omega
      exact eventually_of_exec (h.pc ▸ hi) hr hcap
        (InFrame.replaced (x := ⟨{ x.mach with memSize := pages * 65536 }, x.host⟩) (u := [d])
          (w := [s.size / 65536]) hx hrep hcap)
  · rw [if_neg hc] at hy
    rw [if_neg fun hn => hc hn.1]
    refine InFrame.yields (u := [d]) (w := [2 ^ 32 - 1]) h hi rfl hy ?_
    show x.mach.sp - 1 + 1 ≤ STACK_CAP
    omega

theorem InFrame.dataDrop {d : Nat} (h : InFrame m A pc xs ls s x) (hd : d < m.dataLive.length)
    (hi : m.code[pc]? = some ⟨.dataDrop, d, 0⟩) :
    Performs m e host A (pc + 1)
      (.next xs ls { s with dropped := Function.update s.dropped d true }) x := by
  have he := exec_dataDrop (v := m.cpuViews) (m := m.dev) (s := fetched x.mach) (i := ⟨.dataDrop, d, 0⟩)
    rfl hd
  refine eventually_of_exec (h.pc ▸ hi) he h.fits ?_
  have hx := InFrame.popped (u := []) h (.refl _)
  refine hx.withStore (fun f hf => ?_) ⟨h.store.count, h.store.globals, h.store.mem, h.store.size,
    h.store.grown, fun j => ?_, fun j hj => ?_, h.store.host,
    ⟨h.store.zero.pages, h.store.zero.le, h.store.zero.zero⟩⟩
  · exact hf (fetched x.mach) x.mach.globals x.mach.mem x.mach.memSize
      (Function.update x.mach.live (m.cpuViews.live + d) 0) _
  · simp only [cpuViews_live, Nat.zero_add]
    by_cases hj : j = d
    · subst hj
      rw [Function.update_self, Function.update_self]
      exact ⟨fun _ => rfl, fun _ => rfl⟩
    · rw [Function.update_of_ne hj, Function.update_of_ne hj]
      exact h.store.live j
  · show Function.update s.dropped d true j = true
    rw [Function.update_of_ne (by omega)]
    exact h.store.beyond j hj

end Instructions

end CuWasm
