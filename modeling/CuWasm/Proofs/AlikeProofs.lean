import CuWasm.Alike
import CuWasm.Proofs.StepProofs

/-!
# Machines that look alike stay alike

One lemma per primitive access, then one per instruction: as long as the first machine keeps to its
own cells, the second one does the same on its own.
-/

namespace CuWasm

open Exit BlockMove

theorem SameRegs.refl (s : Mach) : SameRegs s s := ⟨rfl, rfl, rfl, rfl, rfl, rfl⟩

section Alike

variable {own : Region → Nat → Prop} {v v' : Views} {ar : Arrays}

/-! ## Accesses -/

theorem Access.in_iff {r : Region} {j n : Nat} :
    (⟨r, v.base r + j, n⟩ : Access).In own v ↔ ∀ k, k < n → own r (j + k) := by
  constructor
  · intro h k hk
    exact h (j + k) (by simp only; omega) (by simp only; omega)
  · intro h k hk1 hk2
    simp only at hk1 hk2
    rw [show k = j + (k - j) by omega]
    exact h (k - j) (by omega)

/-- Lockstep where the next thing the computations do is an access: if it leaves `own`, the first
machine is spoiled for good. -/
theorem InStep.of_touch {α : Type} {x y : Run α} (accs : Mach → List Access)
    (hlog : ∀ s, (final (x s)).log = accs s ++ s.log)
    (h : ∀ s t, Alike own v v' ar s t → (∀ a ∈ accs s, a.In own v) →
      Ends (Alike own v v' ar) (Spoiled own v) (Escape v v') (x s) (y t)) :
    InStep own v v' ar x y := by
  refine ⟨fun s hs => ?_, fun s t hst => ?_⟩
  · obtain ⟨b, hb, hout⟩ := hs
    exact ⟨b, by rw [hlog]; exact List.mem_append_right _ hb, hout⟩
  · by_cases hin : ∀ a ∈ accs s, a.In own v
    · exact h s t hst hin
    · push Not at hin
      obtain ⟨a, ha, hout⟩ := hin
      exact .spoiled ⟨a, by rw [hlog]; exact List.mem_append_left _ ha, hout⟩

theorem own_of_in {r : Region} {j : Nat} (h : (⟨r, v.base r + j, 1⟩ : Access).In own v) : own r j := by
  have := Access.in_iff.mp h 0 Nat.one_pos
  rwa [Nat.add_zero] at this

theorem inStep_pop : InStep own v v' ar (Run.pop v) (Run.pop v') := by
  refine .of_touch (fun s => [⟨.stack, v.stack.idx (dec32 s.sp), 1⟩]) (fun s => rfl)
    fun s t h hin => ?_
  have hown := own_of_in (hin _ (List.mem_singleton_self _))
  rw [Run.pop_apply, Run.pop_apply, h.regs.sp]
  have hval : t.stack (v'.stack.idx (dec32 s.sp)) = s.stack (v.stack.idx (dec32 s.sp)) :=
    h.stack.agree _ hown
  rw [hval]
  exact .ok _ { h with regs := { h.regs with sp := rfl } }

theorem inStep_stackGet (i : Nat) : InStep own v v' ar (Run.stackGet v i) (Run.stackGet v' i) := by
  refine .of_touch (fun s => [⟨.stack, v.stack.idx i, 1⟩]) (fun s => rfl) fun s t h hin => ?_
  have hown := own_of_in (hin _ (List.mem_singleton_self _))
  have hval : t.stack (v'.stack.idx i) = s.stack (v.stack.idx i) := h.stack.agree _ hown
  rw [Run.stackGet_apply, Run.stackGet_apply, hval]
  exact .ok _ { h with regs := { h.regs with } }

theorem inStep_stackSet (i : Nat) (x : Slot) :
    InStep own v v' ar (Run.stackSet v i x) (Run.stackSet v' i x) := by
  refine .of_touch (fun s => [⟨.stack, v.stack.idx i, 1⟩]) (fun s => rfl) fun s t h hin => ?_
  have hown := own_of_in (hin _ (List.mem_singleton_self _))
  exact .ok _ { h with regs := { h.regs with }, stack := h.stack.update hown x }

theorem inStep_stackMove (dst src n : Nat) :
    InStep own v v' ar (Run.stackMove v dst src n) (Run.stackMove v' dst src n) := by
  refine .of_touch (fun s => [⟨.stack, v.stack.idx dst, n⟩, ⟨.stack, v.stack.idx src, n⟩])
    (fun s => rfl) fun s t h hin => ?_
  have hdst := Access.in_iff.mp (hin _ (List.mem_cons_self ..))
  have hsrc := Access.in_iff.mp (hin _ (List.mem_cons_of_mem _ (List.mem_singleton_self _)))
  rw [Run.stackMove_apply, Run.stackMove_apply]
  exact .ok _ { h with regs := { h.regs with }, stack := h.stack.blockMove hdst hsrc }

theorem inStep_frameGet (i : Nat) : InStep own v v' ar (Run.frameGet v i) (Run.frameGet v' i) := by
  refine .of_touch (fun s => [⟨.frames, v.frames.idx i, 1⟩]) (fun s => rfl) fun s t h hin => ?_
  have hown := own_of_in (hin _ (List.mem_singleton_self _))
  have hval : t.frames (v'.frames.idx i) = s.frames (v.frames.idx i) := h.frames.agree _ hown
  rw [Run.frameGet_apply, Run.frameGet_apply, hval]
  exact .ok _ { h with regs := { h.regs with } }

theorem inStep_frameSet (i : Nat) (fr : Frame) :
    InStep own v v' ar (Run.frameSet v i fr) (Run.frameSet v' i fr) := by
  refine .of_touch (fun s => [⟨.frames, v.frames.idx i, 1⟩]) (fun s => rfl) fun s t h hin => ?_
  have hown := own_of_in (hin _ (List.mem_singleton_self _))
  exact .ok _ { h with regs := { h.regs with }, frames := h.frames.update hown fr }

/-- A change of registers that depends on registers only. -/
theorem inStep_modify {f g : Mach → Mach} (hlog : ∀ s, (f s).log = s.log)
    (h : ∀ s t, Alike own v v' ar s t → Alike own v v' ar (f s) (g t)) :
    InStep own v v' ar (modify f) (modify g) := by
  refine Lock.modify (fun s hs => ?_) h
  obtain ⟨a, ha, hout⟩ := hs
  exact ⟨a, by rw [hlog]; exact ha, hout⟩

theorem inStep_get_bind {α : Type} {f g : Mach → Run α}
    (h : ∀ a b, SameRegs a b → InStep own v v' ar (f a) (g b)) :
    InStep own v v' ar (get >>= f) (get >>= g) :=
  Lock.get_bind SameRegs.refl (fun _ _ hab => hab.regs) h

theorem inStep_push (hcap : v.stack.cap ≤ v'.stack.cap) {x y : Run Slot}
    (hx : InStep own v v' ar x y) : InStep own v v' ar (Run.push v x) (Run.push v' y) := by
  have htail (r : Slot) : InStep own v v' ar
      (get >>= fun s : Mach => (modify fun s' => { s' with sp := s.sp + 1 }) >>= fun _ =>
        Run.stackSet v s.sp r)
      (get >>= fun s : Mach => (modify fun s' => { s' with sp := s.sp + 1 }) >>= fun _ =>
        Run.stackSet v' s.sp r) := by
    refine inStep_get_bind fun a b hab => ?_
    rw [hab.sp]
    refine Lock.bind (inStep_modify (fun _ => rfl) fun s t h => ?_) fun _ => inStep_stackSet _ _
    exact { h with regs := { h.regs with sp := rfl } }
  have hrest := Lock.bind hx htail
  refine ⟨fun s hs => ?_, fun s t hst => ?_⟩
  · simp only [Run.push, bind_apply (x := get), get_apply, ite_run]
    split_ifs
    · exact hs
    · exact hrest.spoils s hs
  · simp only [Run.push, bind_apply (x := get), get_apply, ite_run, hst.regs.sp]
    by_cases hfull : s.sp ≥ v.stack.cap
    · rw [if_pos hfull]
      by_cases hlt : v.stack.cap < v'.stack.cap
      · exact .escaped ⟨rfl, hlt⟩
      · rw [if_pos (by omega)]
        exact .error _ hst
    · rw [if_neg hfull, if_neg (by omega)]
      exact hrest.ends s t hst

theorem inStep_pushPure (hcap : v.stack.cap ≤ v'.stack.cap) (x : Slot) :
    InStep own v v' ar (Run.push v (pure x)) (Run.push v' (pure x)) :=
  inStep_push hcap (Lock.pure x)

theorem inStep_pushZeros (hcap : v.stack.cap ≤ v'.stack.cap) (n : Nat) :
    InStep own v v' ar (Run.pushZeros v n) (Run.pushZeros v' n) := by
  induction n with
  | zero => exact Lock.pure ()
  | succ n ih => exact Lock.bind (inStep_pushPure hcap 0) fun _ => ih

theorem inStep_pushPair (hcap : v.stack.cap ≤ v'.stack.cap) (p : Slot × Slot) :
    InStep own v v' ar (Run.pushPair v p) (Run.pushPair v' p) :=
  Lock.bind (inStep_pushPure hcap p.1) fun _ => inStep_pushPure hcap p.2

/-! ## Memory, globals and data segments -/

theorem memLoadLe_congr {f g : Nat → Byte} {a b n : Nat} (h : ∀ k, k < n → g (b + k) = f (a + k)) :
    memLoadLe g b n = memLoadLe f a n := by
  induction n with
  | zero => rfl
  | succ n ih =>
    unfold memLoadLe
    rw [ih fun k hk => h k (Nat.lt_succ_of_lt hk), h n (Nat.lt_succ_self n)]

/-- Read `n` bytes of the memory. -/
def Run.memRead (v : Views) (ea n : Nat) : Run Slot := do
  touch .memory (v.memory + ea) n
  return memLoadLe (← get).mem (v.memory + ea) n

theorem inStep_memRead (ea n : Nat) :
    InStep own v v' ar (Run.memRead v ea n) (Run.memRead v' ea n) := by
  refine .of_touch (fun s => [⟨.memory, v.memory + ea, n⟩]) (fun s => rfl) fun s t h hin => ?_
  have hown := Access.in_iff.mp (hin _ (List.mem_singleton_self _))
  have hval : memLoadLe t.mem (v'.memory + ea) n = memLoadLe s.mem (v.memory + ea) n := by
    refine memLoadLe_congr fun k hk => ?_
    rw [Nat.add_assoc, Nat.add_assoc]
    exact h.mem.agree _ (hown k hk)
  show Ends _ _ _ (.ok (memLoadLe s.mem (v.memory + ea) n) _)
    (.ok (memLoadLe t.mem (v'.memory + ea) n) _)
  rw [hval]
  exact .ok _ { h with regs := { h.regs with } }

/-- Fill `n` bytes of the memory. -/
def Run.memFill (v : Views) (dst n : Nat) (x : Nat → Byte) : Run Unit := do
  touch .memory (v.memory + dst) n
  modify fun s => { s with mem := fillAsc s.mem (v.memory + dst) x n }

theorem inStep_memFill (dst n : Nat) (x : Nat → Byte) :
    InStep own v v' ar (Run.memFill v dst n x) (Run.memFill v' dst n x) := by
  refine .of_touch (fun s => [⟨.memory, v.memory + dst, n⟩]) (fun s => rfl) fun s t h hin => ?_
  have hown := Access.in_iff.mp (hin _ (List.mem_singleton_self _))
  exact .ok _ { h with regs := { h.regs with }, mem := h.mem.fillAsc hown x }

/-- Move `n` bytes of the memory. -/
def Run.memMove (v : Views) (dst src n : Nat) : Run Unit := do
  touch .memory (v.memory + src) n
  touch .memory (v.memory + dst) n
  modify fun s => { s with mem := move s.mem v.memory dst src n }

theorem inStep_memMove (dst src n : Nat) :
    InStep own v v' ar (Run.memMove v dst src n) (Run.memMove v' dst src n) := by
  refine .of_touch (fun s => [⟨.memory, v.memory + dst, n⟩, ⟨.memory, v.memory + src, n⟩])
    (fun s => rfl) fun s t h hin => ?_
  have hdst := Access.in_iff.mp (hin _ (List.mem_cons_self ..))
  have hsrc := Access.in_iff.mp (hin _ (List.mem_cons_of_mem _ (List.mem_singleton_self _)))
  have hmem := h.mem.blockMove hdst hsrc
  rw [← move_eq_blockMove, ← move_eq_blockMove] at hmem
  exact .ok _ { h with regs := { h.regs with }, mem := hmem }

/-- Read the live flag of a data segment. -/
def Run.liveGet (v : Views) (di : Nat) : Run Byte := do
  touch .live (v.live + di)
  return (← get).live (v.live + di)

theorem inStep_liveGet (di : Nat) : InStep own v v' ar (Run.liveGet v di) (Run.liveGet v' di) := by
  refine .of_touch (fun s => [⟨.live, v.live + di, 1⟩]) (fun s => rfl) fun s t h hin => ?_
  have hown := own_of_in (hin _ (List.mem_singleton_self _))
  have hval : t.live (v'.live + di) = s.live (v.live + di) := h.live.agree _ hown
  show Ends _ _ _ (.ok (s.live (v.live + di)) _) (.ok (t.live (v'.live + di)) _)
  rw [hval]
  exact .ok _ { h with regs := { h.regs with } }

/-- Read a global. -/
def Run.globalRead (v : Views) (b : Nat) : Run Slot := do
  touch .globals (v.globals + b)
  return (← get).globals (v.globals + b)

theorem inStep_globalRead (b : Nat) :
    InStep own v v' ar (Run.globalRead v b) (Run.globalRead v' b) := by
  refine .of_touch (fun s => [⟨.globals, v.globals + b, 1⟩]) (fun s => rfl) fun s t h hin => ?_
  have hown := own_of_in (hin _ (List.mem_singleton_self _))
  have hval : t.globals (v'.globals + b) = s.globals (v.globals + b) := h.globals.agree _ hown
  show Ends _ _ _ (.ok (s.globals (v.globals + b)) _) (.ok (t.globals (v'.globals + b)) _)
  rw [hval]
  exact .ok _ { h with regs := { h.regs with } }

/-- The value `OP_LOAD` makes of the bytes it has read. -/
def Run.loaded (a : Nat) (x : Slot) : Slot :=
  if a &&& 0x10 ≠ 0 then
    if a &&& 0x20 ≠ 0 then sext64 x ((a &&& 0xf) * 8) else slot32 (u32 (sext64 x ((a &&& 0xf) * 8)))
  else if ¬ a &&& 0x20 ≠ 0 ∧ a &&& 0xf < 8 then slot32 (u32 x)
  else x

/-! ## Instructions -/

theorem inStep_store (a b : Nat) : InStep own v v' ar (Run.store v a b) (Run.store v' a b) := by
  refine Lock.bind inStep_pop fun x => Lock.bind inStep_pop fun y => inStep_get_bind fun s t hst => ?_
  have htail : InStep own v v' ar
      (Run.memFill v ((u32 y).toNat + b) a fun i => (x >>> (8 * i)).setWidth 8)
      (Run.memFill v' ((u32 y).toNat + b) a fun i => (x >>> (8 * i)).setWidth 8) :=
    inStep_memFill _ _ _
  rw [hst.memSize]
  exact Lock.guard htail

theorem inStep_memoryCopy : InStep own v v' ar (Run.memoryCopy v) (Run.memoryCopy v') := by
  refine Lock.bind inStep_pop fun n => Lock.bind inStep_pop fun src =>
    Lock.bind inStep_pop fun dst => inStep_get_bind fun s t hst => ?_
  have htail : InStep own v v' ar
      (Run.memMove v (u32 dst).toNat (u32 src).toNat (u32 n).toNat)
      (Run.memMove v' (u32 dst).toNat (u32 src).toNat (u32 n).toNat) := inStep_memMove _ _ _
  rw [hst.memSize]
  exact Lock.guard htail

theorem inStep_memoryFill : InStep own v v' ar (Run.memoryFill v) (Run.memoryFill v') := by
  refine Lock.bind inStep_pop fun n => Lock.bind inStep_pop fun val =>
    Lock.bind inStep_pop fun dst => inStep_get_bind fun s t hst => ?_
  have htail : InStep own v v' ar
      (Run.memFill v (u32 dst).toNat (u32 n).toNat fun _ => val.setWidth 8)
      (Run.memFill v' (u32 dst).toNat (u32 n).toNat fun _ => val.setWidth 8) := inStep_memFill _ _ _
  rw [hst.memSize]
  exact Lock.guard htail

theorem inStep_br (b : Nat) : InStep own v v' ar (Run.br b) (Run.br b) := by
  have hjump : InStep own v v' ar (modify fun s => { s with pc := b })
      (modify fun s => { s with pc := b }) :=
    inStep_modify (fun _ => rfl) fun s t h => { h with regs := { h.regs with pc := rfl } }
  refine inStep_get_bind fun s t hst => ?_
  rw [hst.pc]
  refine Lock.ite ?_ hjump
  refine Lock.bind (inStep_modify (fun _ => rfl) fun s t h => ?_) fun _ =>
    inStep_get_bind fun s t hst => ?_
  · exact { h with regs := { h.regs with fuel := by rw [h.regs.fuel] } }
  · rw [hst.fuel]
    exact Lock.guard hjump

theorem inStep_unwind (nkeep b : Nat) :
    InStep own v v' ar (Run.unwind v nkeep b) (Run.unwind v' nkeep b) := by
  refine inStep_get_bind fun s t hst => ?_
  rw [hst.sp, hst.fp]
  refine Lock.guard (Lock.guard ?_)
  have hset : InStep own v v' ar (modify fun s' => { s' with sp := (s.fp + b) % 2 ^ 32 })
      (modify fun s' => { s' with sp := (s.fp + b) % 2 ^ 32 }) :=
    inStep_modify (fun _ => rfl) fun s t h => { h with regs := { h.regs with sp := rfl } }
  exact Lock.ite (Lock.bind (inStep_stackMove _ _ _) fun _ => hset) hset

theorem inStep_leave : InStep own v v' ar (Run.leave v) (Run.leave v') := by
  refine inStep_get_bind fun s t hst => ?_
  rw [hst.csp]
  refine Lock.guard (Lock.bind (inStep_modify (fun _ => rfl) fun s t h => ?_) fun _ =>
    inStep_get_bind fun s t hst => ?_)
  · exact { h with regs := { h.regs with csp := by rw [h.regs.csp] } }
  rw [hst.csp]
  refine Lock.bind (inStep_frameGet _) fun fr => inStep_get_bind fun s t hst => ?_
  rw [hst.sp]
  refine Lock.guard (inStep_get_bind fun s t hst => ?_)
  rw [hst.sp]
  refine Lock.bind (inStep_stackMove _ _ _) fun _ =>
    Lock.bind (inStep_modify (fun _ => rfl) fun s t h => ?_) fun _ => inStep_get_bind fun s t hst => ?_
  · exact { h with regs := { h.regs with sp := rfl, fp := rfl } }
  rw [hst.csp]
  refine Lock.guard (inStep_modify (fun _ => rfl) fun s t h => ?_)
  exact { h with regs := { h.regs with pc := rfl } }

theorem inStep_dataDrop (hn : v'.nData = v.nData) (di : Nat) :
    InStep own v v' ar (Run.dataDrop v di) (Run.dataDrop v' di) := by
  unfold Run.dataDrop
  rw [hn]
  refine Lock.guard ?_
  refine InStep.of_touch (fun s => [⟨.live, v.live + di, 1⟩]) (fun s => rfl) fun s t h hin => ?_
  have hown := own_of_in (hin _ (List.mem_singleton_self _))
  exact .ok _ { h with regs := { h.regs with }, live := h.live.update hown 0 }

theorem inStep_globalSet (hn : v'.nGlobals = v.nGlobals) (b : Nat) :
    InStep own v v' ar (Run.globalSet v b) (Run.globalSet v' b) := by
  unfold Run.globalSet
  rw [hn]
  refine Lock.guard (Lock.bind inStep_pop fun x => ?_)
  refine InStep.of_touch (fun s => [⟨.globals, v.globals + b, 1⟩]) (fun s => rfl) fun s t h hin => ?_
  have hown := own_of_in (hin _ (List.mem_singleton_self _))
  exact .ok _ { h with regs := { h.regs with }, globals := h.globals.update hown x }

theorem inStep_callHost (a b : Nat) :
    InStep own v v' ar (Run.callHost v a b) (Run.callHost v' a b) := by
  unfold Run.callHost
  refine Lock.guard (inStep_get_bind fun s t hst => ?_)
  rw [hst.sp]
  refine Lock.guard ?_
  refine InStep.of_touch (fun _ => [⟨.stack, v.stack.idx (s.sp - (a &&& 0xff)), a &&& 0xff⟩])
    (fun _ => rfl) fun s t h hin => ?_
  exact .error _ { h with regs := { h.regs with sp := by simp only [h.regs.sp] } }

theorem inStep_indirectCallee (m : DevModule) (b idx : Nat) :
    InStep own v v' ar (Run.indirectCallee m b idx) (Run.indirectCallee m b idx) := by
  refine ⟨fun s hs => ?_, fun s t hst => ?_⟩
  · rw [Run.indirectCallee_apply]
    cases Run.indirectTarget m b idx with
    | none => exact hs
    | some f => exact hs
  · rw [Run.indirectCallee_apply, Run.indirectCallee_apply]
    cases Run.indirectTarget m b idx with
    | none => exact .error _ hst
    | some f => exact .ok f hst

section Fits

variable (hfit : v.Fits v')

include hfit

theorem inStep_load (a b : Nat) : InStep own v v' ar (Run.load v a b) (Run.load v' a b) := by
  refine Lock.bind inStep_pop fun x => inStep_get_bind fun s t hst => ?_
  have htail : InStep own v v' ar
      (Run.memRead v ((u32 x).toNat + b) (a &&& 0xf) >>= fun y => Run.push v (pure (Run.loaded a y)))
      (Run.memRead v' ((u32 x).toNat + b) (a &&& 0xf) >>= fun y =>
        Run.push v' (pure (Run.loaded a y))) :=
    Lock.bind (inStep_memRead _ _) fun y => inStep_pushPure hfit.cap _
  rw [hst.memSize]
  exact Lock.guard htail

theorem inStep_globalGet (b : Nat) :
    InStep own v v' ar (Run.globalGet v b) (Run.globalGet v' b) := by
  unfold Run.globalGet
  rw [hfit.nGlobals]
  exact Lock.guard (inStep_push hfit.cap (inStep_globalRead b))

theorem inStep_memoryInit (di : Nat) :
    InStep own v v' ar (Run.memoryInit v di) (Run.memoryInit v' di) := by
  refine Lock.bind inStep_pop fun n => Lock.bind inStep_pop fun src =>
    Lock.bind inStep_pop fun dst => ?_
  rw [hfit.nData, hfit.blob, hfit.dataOff, hfit.dataLen]
  refine Lock.guard ?_
  have htail (x : Byte) : InStep own v v' ar
      (get >>= fun s : Mach => if (u32 src).toNat + (u32 n).toNat >
          (if x ≠ 0 then v.dataLen.getD di 0 else 0) ∨ (u32 dst).toNat + (u32 n).toNat > s.memSize then
        throw .trapMemOob >>= fun _ : PUnit => Run.memFill v (u32 dst).toNat (u32 n).toNat fun i =>
          v.blob.getD ((if x ≠ 0 then v.dataOff.getD di 0 else 0) + (u32 src).toNat + i) 0
        else Run.memFill v (u32 dst).toNat (u32 n).toNat fun i =>
          v.blob.getD ((if x ≠ 0 then v.dataOff.getD di 0 else 0) + (u32 src).toNat + i) 0)
      (get >>= fun s : Mach => if (u32 src).toNat + (u32 n).toNat >
          (if x ≠ 0 then v.dataLen.getD di 0 else 0) ∨ (u32 dst).toNat + (u32 n).toNat > s.memSize then
        throw .trapMemOob >>= fun _ : PUnit => Run.memFill v' (u32 dst).toNat (u32 n).toNat fun i =>
          v.blob.getD ((if x ≠ 0 then v.dataOff.getD di 0 else 0) + (u32 src).toNat + i) 0
        else Run.memFill v' (u32 dst).toNat (u32 n).toNat fun i =>
          v.blob.getD ((if x ≠ 0 then v.dataOff.getD di 0 else 0) + (u32 src).toNat + i) 0) := by
    refine inStep_get_bind fun s t hst => ?_
    rw [hst.memSize]
    exact Lock.guard (inStep_memFill _ _ _)
  have hlive : InStep own v v' ar (Run.liveGet v di) (Run.liveGet v' di) := inStep_liveGet di
  have hboth := Lock.bind hlive htail
  exact hboth

theorem inStep_enter (f : FuncMeta) : InStep own v v' ar (Run.enter v f) (Run.enter v' f) := by
  refine inStep_get_bind fun s t hst => ?_
  rw [hst.csp, hst.sp, hst.pc, hst.fp]
  refine Lock.guard (Lock.guard (Lock.bind (inStep_frameSet _ _) fun _ => ?_))
  refine Lock.bind (inStep_modify (fun _ => rfl) fun s t h => ?_) fun _ =>
    Lock.bind (inStep_modify (fun _ => rfl) fun s t h => ?_) fun _ =>
      Lock.bind (inStep_modify (fun _ => rfl) fun s t h => ?_) fun _ =>
        Lock.bind (inStep_pushZeros hfit.cap _) fun _ => inStep_modify (fun _ => rfl) fun s t h => ?_
  · exact { h with regs := { h.regs with csp := by rw [h.regs.csp] } }
  · exact { h with regs := { h.regs with } }
  · exact { h with regs := { h.regs with fp := rfl } }
  · exact { h with regs := { h.regs with pc := rfl } }

theorem inStep_returnCall (f : FuncMeta) :
    InStep own v v' ar (Run.returnCall v f) (Run.returnCall v' f) := by
  have hjump : InStep own v v' ar (modify fun s => { s with pc := f.codeOff })
      (modify fun s => { s with pc := f.codeOff }) :=
    inStep_modify (fun _ => rfl) fun s t h => { h with regs := { h.regs with pc := rfl } }
  refine inStep_get_bind fun s t hst => ?_
  rw [hst.csp, hst.sp, hst.fp]
  refine Lock.guard (Lock.bind (inStep_stackMove _ _ _) fun _ =>
    Lock.bind (inStep_modify (fun _ => rfl) fun s t h => ?_) fun _ =>
      Lock.bind (inStep_pushZeros hfit.cap _) fun _ => ?_)
  · exact { h with regs := { h.regs with sp := by rw [h.regs.fp] } }
  · refine Lock.ite (Lock.bind (inStep_frameGet _) fun fr => ?_) hjump
    exact Lock.bind (inStep_frameSet _ _) fun _ => hjump

omit hfit in
theorem inStep_localSet (a : Nat) : InStep own v v' ar
    (do let x ← Run.pop v; Run.stackSet v ((← get).fp + a) x)
    (do let x ← Run.pop v'; Run.stackSet v' ((← get).fp + a) x) := by
  refine Lock.bind inStep_pop fun x => inStep_get_bind fun s t hst => ?_
  rw [hst.fp]
  exact inStep_stackSet _ _

theorem inStep_exec (m : DevModule) {i : CuOp} (hop : i.op ≠ .memoryGrow) :
    InStep own v v' ar (Run.exec v m i) (Run.exec v' m i) := by
  unfold Run.exec
  cases hi : i.op with
  | i64Const => exact inStep_pushPure hfit.cap _
  | localGet =>
    refine inStep_push hfit.cap (inStep_get_bind fun s t hst => ?_)
    rw [hst.fp]
    exact inStep_stackGet _
  | localSet => exact inStep_localSet i.a
  | bin o =>
    refine Lock.bind inStep_pop fun b => Lock.bind inStep_pop fun a => ?_
    cases o.eval a b with
    | ok r => exact inStep_pushPure hfit.cap r
    | error e => exact Lock.throw e
  | un o => exact Lock.bind inStep_pop fun a => inStep_pushPure hfit.cap _
  | drop => exact Lock.bind inStep_pop fun _ => Lock.pure ()
  | select =>
    exact Lock.bind inStep_pop fun c => Lock.bind inStep_pop fun b => Lock.bind inStep_pop fun a =>
      inStep_pushPure hfit.cap _
  | i64MulWideU =>
    exact Lock.bind inStep_pop fun b => Lock.bind inStep_pop fun a => inStep_pushPair hfit.cap _
  | i64MulWideS =>
    exact Lock.bind inStep_pop fun b => Lock.bind inStep_pop fun a => inStep_pushPair hfit.cap _
  | i64Add128 =>
    exact Lock.bind inStep_pop fun _ => Lock.bind inStep_pop fun _ => Lock.bind inStep_pop fun _ =>
      Lock.bind inStep_pop fun _ => inStep_pushPair hfit.cap _
  | i64Sub128 =>
    exact Lock.bind inStep_pop fun _ => Lock.bind inStep_pop fun _ => Lock.bind inStep_pop fun _ =>
      Lock.bind inStep_pop fun _ => inStep_pushPair hfit.cap _
  | globalGet => exact inStep_globalGet hfit i.b
  | globalSet => exact inStep_globalSet hfit.nGlobals i.b
  | unwind => exact inStep_unwind i.a i.b
  | br => exact inStep_br i.b
  | brIfNot =>
    refine Lock.bind inStep_pop fun x => Lock.ite (inStep_modify (fun _ => rfl) fun s t h => ?_)
      (Lock.pure ())
    exact { h with regs := { h.regs with pc := rfl } }
  | call =>
    cases m.funcs[i.b]? with
    | none => exact Lock.throw _
    | some f => exact inStep_enter hfit f
  | returnCall =>
    cases m.funcs[i.b]? with
    | none => exact Lock.throw _
    | some f => exact inStep_returnCall hfit f
  | ret => exact inStep_leave
  | endFunc => exact inStep_leave
  | unreachable => exact Lock.throw _
  | load => exact inStep_load hfit i.a i.b
  | store => exact inStep_store i.a i.b
  | memorySize =>
    refine inStep_get_bind fun s t hst => ?_
    rw [hst.memSize]
    exact inStep_pushPure hfit.cap _
  | memoryGrow => exact absurd hi hop
  | memoryCopy => exact inStep_memoryCopy
  | memoryFill => exact inStep_memoryFill
  | memoryInit => exact inStep_memoryInit hfit i.a
  | dataDrop => exact inStep_dataDrop hfit.nData i.a
  | callHost => exact inStep_callHost i.a i.b
  | callIndirect =>
    exact Lock.bind inStep_pop fun x => Lock.bind (inStep_indirectCallee m _ _) fun f =>
      inStep_enter hfit f
  | clz => exact Lock.bind inStep_pop fun x => inStep_pushPure hfit.cap _
  | unknown n => exact Lock.throw _

end Fits


/-! ## Steps -/

/-- What `OP_MEMORY_GROW` does once it has popped the number of pages, with the limit `memMax`. -/
def Run.growBy (v : Views) (memMax : Nat) (x : Slot) : Run Unit :=
  get >>= fun s => if s.memSize / WASM_PAGE + (u32 x).toNat > memMax / WASM_PAGE ∨
      s.memSize / WASM_PAGE + (u32 x).toNat > 65536 then push v (pure (slot32 (-1)))
    else (modify fun s' => { s' with
        memSize := (s.memSize / WASM_PAGE + (u32 x).toNat) % 2 ^ 32 * WASM_PAGE % 2 ^ 32 }) >>=
      fun _ => push v (pure (BitVec.ofNat 64 (s.memSize / WASM_PAGE)))

theorem Run.memoryGrow_eq (v : Views) : Run.memoryGrow v = pop v >>= growBy v v.memMax := rfl

theorem inStep_growBy (hcap : v.stack.cap ≤ v'.stack.cap) (memMax : Nat) (x : Slot) :
    InStep own v v' ar (Run.growBy v memMax x) (Run.growBy v' memMax x) := by
  refine inStep_get_bind fun s t hst => ?_
  rw [hst.memSize]
  refine Lock.ite (inStep_pushPure hcap _) (Lock.bind (inStep_modify (fun _ => rfl) fun s t h => ?_)
    fun _ => inStep_pushPure hcap _)
  exact { h with regs := { h.regs with memSize := rfl } }

section Step

variable {s t : Mach}

theorem memoryGrow_ends (hfit : v.Fits v') (h : Alike own v v' ar s t) (hg : GrowsAlike v v' s) :
    Ends (Alike own v v' ar) (Spoiled own v) (Escape v v') (Run.memoryGrow v s)
      (Run.memoryGrow v' t) := by
  have hpop : InStep own v v' ar (Run.pop v) (Run.pop v') := inStep_pop
  have hby (x : Slot) : InStep own v v' ar (Run.growBy v v.memMax x) (Run.growBy v' v.memMax x) :=
    inStep_growBy hfit.cap v.memMax x
  have hlock := Lock.bind hpop hby
  rw [Run.memoryGrow_eq, Run.memoryGrow_eq]
  by_cases hown : own .stack (dec32 s.sp)
  · have hval : t.stack (v'.stack.idx (dec32 t.sp)) = s.stack (v.stack.idx (dec32 s.sp)) := by
      rw [h.regs.sp]
      exact h.stack.agree _ hown
    have hlimit : (Run.pop v' >>= Run.growBy v' v'.memMax) t =
        (Run.pop v' >>= Run.growBy v' v.memMax) t := by
      rw [bind_ok (Run.pop_apply v' t), bind_ok (Run.pop_apply v' t), hval]
      simp only [Run.growBy, bind_apply, get_apply, ite_run, h.regs.memSize]
      exact if_congr hg.symm rfl rfl
    rw [hlimit]
    exact hlock.ends s t h
  · refine .spoiled ?_
    rw [bind_ok (Run.pop_apply v s)]
    refine (hby _).spoils _ ?_
    exact ⟨_, List.mem_cons_self .., fun hin => hown (own_of_in hin)⟩

theorem exec_ends (hfit : v.Fits v') (m : DevModule) {i : CuOp} (h : Alike own v v' ar s t)
    (hg : i.op = .memoryGrow → GrowsAlike v v' s) :
    Ends (Alike own v v' ar) (Spoiled own v) (Escape v v') (Run.exec v m i s)
      (Run.exec v' m i t) := by
  by_cases hop : i.op = .memoryGrow
  · have hv : Run.exec v m i = Run.memoryGrow v := by
      unfold Run.exec
      rw [hop]
    have hv' : Run.exec v' m i = Run.memoryGrow v' := by
      unfold Run.exec
      rw [hop]
    rw [hv, hv']
    exact memoryGrow_ends hfit h (hg hop)
  · exact (inStep_exec hfit m hop).ends s t h

/-- One instruction of two machines that look alike. -/
theorem step_ends (hfit : v.Fits v') (m : DevModule) (h : Alike own v v' ar s t)
    (hg : ∀ i, m.code[s.pc]? = some i → i.op = .memoryGrow → GrowsAlike v v' s) :
    Ends (Alike own v v' ar) (Spoiled own v) (Escape v v') (Run.step v m s) (Run.step v' m t) := by
  rw [Run.step_apply, Run.step_apply, h.regs.pc]
  cases hi : m.code[s.pc]? with
  | none => exact .error _ { h with regs := { h.regs with pc := rfl } }
  | some i =>
    have hf : Alike own v v' ar (Run.fetched s) (Run.fetched t) :=
      { h with regs := { h.regs with pc := congrArg (· + 1) h.regs.pc } }
    have hend := exec_ends hfit m hf fun hop => hg i hi hop
    simp only
    generalize hr : Run.exec v m i (Run.fetched s) = r at hend ⊢
    generalize Run.exec v' m i (Run.fetched t) = r' at hend ⊢
    cases hend with
    | ok a h =>
      simp only [h.regs.sp]
      split_ifs
      · exact .error _ h
      · exact .ok _ h
    | error e h => exact .error e h
    | escaped h => exact .escaped h
    | spoiled hs =>
      refine .spoiled ?_
      cases r with
      | error e u => exact hs
      | ok a u =>
        simp only
        split_ifs
        · exact hs
        · exact hs

end Step

end Alike

section Loop

variable {own : Region → Nat → Prop} {v v' : Views} {ar : Arrays} {m : DevModule} {s t : Mach}

/-- Alike machines that suspend at a host call hand over the same call. -/
theorem step_sameCall (h : Alike own v v' ar s t) {s' t' : Mach}
    (hs : Run.step v m s = .error .hostcallPending s')
    (ht : Run.step v' m t = .error .hostcallPending t') (hin : ¬ Spoiled own v s') :
    SameCall s'.mb t'.mb := by
  obtain ⟨i, hi, -, rfl⟩ := Run.step_pending v m hs
  obtain ⟨i', hi', -, rfl⟩ := Run.step_pending v' m ht
  rw [h.regs.pc, hi] at hi'
  cases hi'
  refine ⟨rfl, rfl, fun k hk => ?_⟩
  have hacc : (⟨.stack, v.base .stack + (s.sp - (i.a &&& 0xff)), i.a &&& 0xff⟩ : Access).In own v := by
    by_contra hout
    exact hin ⟨_, List.mem_cons_self .., hout⟩
  have hown := Access.in_iff.mp hacc k hk
  have hk' : k < i.a &&& 0xff := hk
  show (if k < i.a &&& 0xff then t.stack (v'.stack.idx (t.sp - (i.a &&& 0xff) + k)) else t.mb.args k) =
    if k < i.a &&& 0xff then s.stack (v.stack.idx (s.sp - (i.a &&& 0xff) + k)) else s.mb.args k
  rw [if_pos hk', if_pos hk', h.regs.sp]
  exact h.stack.agree _ hown

theorem StaysIn.tail {n : Nat} (h : StaysIn own v m (n + 1) s) {s' : Mach}
    (hs : Run.step v m s = .ok () s') : StaysIn own v m n s' :=
  fun k u hk hu => h (k + 1) u (Nat.succ_lt_succ hk) (.succ hs hu)

theorem GrowsAlikeFor.tail {n : Nat} (h : GrowsAlikeFor v v' m (n + 1) s) {s' : Mach}
    (hs : Run.step v m s = .ok () s') : GrowsAlikeFor v v' m n s' :=
  fun k u i hk hu hi hop => h (k + 1) u i (Nat.succ_lt_succ hk) (.succ hs hu) hi hop

/-- A whole `run_instance` call of two machines that look alike. -/
theorem loop_alike (hfit : v.Fits v') (n : Nat) (h : Alike own v v' ar s t)
    (hin : StaysIn own v m n s) (hg : GrowsAlikeFor v v' m n s)
    (hesc : ¬ Escape v v' (Run.loop v m n s).1) :
    (Run.loop v' m n t).1 = (Run.loop v m n s).1 ∧
      Alike own v v' ar (Run.loop v m n s).2 (Run.loop v' m n t).2 ∧
      ((Run.loop v m n s).1 = .hostcallPending →
        SameCall (Run.loop v m n s).2.mb (Run.loop v' m n t).2.mb) := by
  induction n generalizing s t with
  | zero => exact ⟨rfl, h, fun hp => nomatch hp⟩
  | succ n ih =>
    have hend := step_ends hfit m h fun i hi hop =>
      hg 0 s i (Nat.succ_pos n) (.zero s) hi hop
    have hclean := hin 0 s (Nat.succ_pos n) (.zero s)
    have hcall : ∀ s' t', Run.step v m s = .error .hostcallPending s' →
        Run.step v' m t = .error .hostcallPending t' → ¬ Spoiled own v s' → SameCall s'.mb t'.mb :=
      fun s' t' hs ht hp => step_sameCall h hs ht hp
    unfold Run.loop at hesc ⊢
    generalize hs : Run.step v m s = r at hend hclean hcall hesc ⊢
    generalize ht : Run.step v' m t = r' at hend hcall ⊢
    cases hend with
    | ok a h' => exact ih h' (hin.tail hs) (hg.tail hs) hesc
    | error e h' =>
      refine ⟨rfl, h', fun hp => ?_⟩
      have hp' : e = .hostcallPending := hp
      subst hp'
      exact hcall _ _ rfl rfl hclean
    | spoiled hb => exact absurd hb hclean
    | escaped he => exact absurd he hesc

end Loop

end CuWasm
