import CuWasm.Proofs.ControlProofs

/-!
# What an instruction leaves alone and how it exits

Frame lemmas over the whole `switch`: the fields of the machine that a kind of instruction does not
touch, and the statuses it never exits with.
-/

namespace CuWasm

open Exit

namespace Run

variable (v : Views) (m : DevModule)

/-! ## Fields that stay -/

/-- `f` looks neither at the operand stack nor at the accesses, those to live flags apart. -/
structure OffStack {γ : Type} (f : Mach → γ) : Prop where
  stack : ∀ (s : Mach) (sp : Nat) (stack : Nat → Slot),
    f { s with sp := sp, stack := stack } = f s := by intros; rfl
  log : ∀ (s : Mach) (a : Access), a.region ≠ .live →
    f { s with log := a :: s.log } = f s := by intros; rfl

section Keeps

variable {γ : Type} {f : Mach → γ} (hf : OffStack f)

include hf

theorem keeps_touch {r : Region} (hr : r ≠ .live) (start count : Nat) : Keeps f (touch r start count) :=
  fun s => hf.log s _ hr

theorem keeps_stackGet (i : Nat) : Keeps f (stackGet v i) :=
  .bind (keeps_touch hf (by decide) _ _) fun _ => .bind .get fun _ => .pure _

theorem keeps_stackSet (i : Nat) (x : Slot) : Keeps f (stackSet v i x) :=
  .bind (keeps_touch hf (by decide) _ _) fun _ => .modify fun s => hf.stack s s.sp _

theorem keeps_stackMove (dst src n : Nat) : Keeps f (stackMove v dst src n) :=
  .bind (keeps_touch hf (by decide) _ _) fun _ =>
    .bind (keeps_touch hf (by decide) _ _) fun _ => .modify fun s => hf.stack s s.sp _

theorem keeps_frameGet (i : Nat) : Keeps f (frameGet v i) :=
  .bind (keeps_touch hf (by decide) _ _) fun _ => .bind .get fun _ => .pure _

theorem keeps_pop : Keeps f (pop v) :=
  .bind (.modify fun s => hf.stack s _ s.stack) fun _ => .bind .get fun _ => keeps_stackGet v hf _

theorem keeps_push {x : Run Slot} (hx : Keeps f x) : Keeps f (push v x) := by
  refine .bind .get fun s => ?_
  refine .ite (.bind (.throw _) fun _ => ?_) ?_
  all_goals
    refine .bind hx fun y => .bind .get fun t => ?_
    exact .bind (.modify fun s => hf.stack s _ s.stack) fun _ => keeps_stackSet v hf _ _

theorem keeps_pushZeros (n : Nat) : Keeps f (pushZeros v n) := by
  induction n with
  | zero => exact Keeps.pure ()
  | succ n ih => exact Keeps.bind (keeps_push v hf (Keeps.pure 0)) fun _ => ih

end Keeps

/-- The opcodes that write to the memory. -/
def writesMem : Opcode → Bool
  | .store | .memoryCopy | .memoryFill | .memoryInit => true
  | _ => false

/-- The opcodes that jump, call or return. -/
def transfers : Opcode → Bool
  | .br | .brIfNot | .call | .returnCall | .ret | .endFunc | .callIndirect => true
  | _ => false

/-- The opcodes that go on in another function. -/
def calls : Opcode → Bool
  | .call | .returnCall | .callIndirect | .callHost => true
  | _ => false

/-- `f` does not see what the instruction `i` is there to change. -/
structure Unseen {γ : Type} (i : CuOp) (f : Mach → γ) : Prop extends OffStack f where
  control : transfers i.op = true → ∀ (s : Mach) (pc sp fp : Nat) (frames : Nat → Frame),
    f { s with pc := pc, sp := sp, fp := fp, frames := frames } = f s := by intros; rfl
  depth : i.op ∈ [.call, .callIndirect, .ret, .endFunc] → ∀ (s : Mach) (csp peakCsp : Nat),
    f { s with csp := csp, peakCsp := peakCsp } = f s := by intros; rfl
  fuel : i.op = .br → ∀ (s : Mach) (fuel : Int), f { s with fuel := fuel } = f s := by intros; rfl
  request : i.op = .callHost → ∀ (s : Mach) (sp hostFn hostNArgs hostNResults : Nat) (mb : HostMailbox),
    f { s with sp := sp, hostFn := hostFn, hostNArgs := hostNArgs, hostNResults := hostNResults
               mb := mb } = f s := by intros; rfl
  globals : i.op = .globalSet → ∀ s g, f { s with globals := g } = f s := by intros; rfl
  mem : writesMem i.op = true → ∀ s g, f { s with mem := g } = f s := by intros; rfl
  memSize : i.op = .memoryGrow → ∀ s n, f { s with memSize := n } = f s := by intros; rfl
  live : i.op = .dataDrop → ∀ s g, f { s with live := g } = f s := by intros; rfl
  flag : i.op = .memoryInit ∨ i.op = .dataDrop → ∀ s : Mach,
    f { s with log := ⟨.live, v.live + i.a, 1⟩ :: s.log } = f s := by intros; rfl

/-- An instruction changes only what it is there to change. -/
theorem exec_keeps {γ : Type} {f : Mach → γ} {i : CuOp} (h : Unseen v i f) : Keeps f (exec v m i) := by
  have hf := h.toOffStack
  unfold exec
  split
  all_goals
    rename_i hop
    try have hcontrol := h.control (by rw [hop]; rfl)
    try have hdepth := h.depth (by rw [hop]; decide)
    try have hmem := h.mem (by rw [hop]; rfl)
    try have hflag : Keeps f (touch .live (v.live + i.a)) := h.flag (by rw [hop]; decide)
    try simp only [load, store, memoryCopy, memoryFill, memoryInit, memoryGrow, dataDrop, br, globalGet,
      globalSet, pushPair, unwind, returnCall, callHost, indirectCallee, enter, leave, frameSet]
  all_goals
    repeat' with_reducible first
      | refine Keeps.bind ?_ fun _ => ?_
      | refine Keeps.ite ?_ ?_
      | refine keeps_push v hf ?_
      | exact keeps_pop v hf
      | exact keeps_pushZeros v hf _
      | exact keeps_stackGet v hf _
      | exact keeps_stackSet v hf _ _
      | exact keeps_stackMove v hf _ _ _
      | exact keeps_frameGet v hf _
      | exact keeps_touch hf (by decide) _ _
      | exact hflag
      | exact Keeps.get
      | exact Keeps.throw _
      | exact Keeps.pure _
      | exact Keeps.modify fun s => hf.stack s _ s.stack
      | exact Keeps.modify fun s => hcontrol s _ _ _ _
      | exact Keeps.modify fun s => hdepth s _ _
      | exact Keeps.modify fun s => h.fuel hop s _
      | exact Keeps.modify fun s => h.request hop s _ _ _ _ _
      | exact Keeps.modify fun s => h.globals hop s _
      | exact Keeps.modify fun s => hmem s _
      | exact Keeps.modify fun s => h.memSize hop s _
      | exact Keeps.modify fun s => h.live hop s _
      | split

theorem offStack_memSize : OffStack (·.memSize) := {}

/-- No instruction but `memory.grow` touches the size of the memory. -/
theorem exec_keeps_memSize {i : CuOp} (hop : i.op ≠ .memoryGrow) : Keeps (·.memSize) (exec v m i) :=
  exec_keeps v m { memSize := fun h => absurd h hop }

/-- No instruction but `global.set` touches the globals. -/
theorem exec_keeps_globals {i : CuOp} (hop : i.op ≠ .globalSet) : Keeps (·.globals) (exec v m i) :=
  exec_keeps v m { globals := fun h => absurd h hop }

/-- No instruction but a store, a copy, a fill and an init touches the memory. -/
theorem exec_keeps_mem {i : CuOp} (hop : writesMem i.op = false) : Keeps (·.mem) (exec v m i) :=
  exec_keeps v m { mem := fun h => absurd h (Bool.eq_false_iff.mp hop) }

/-- No instruction but `data.drop` touches the live flags. -/
theorem exec_keeps_live {i : CuOp} (hop : i.op ≠ .dataDrop) : Keeps (·.live) (exec v m i) :=
  exec_keeps v m { live := fun h => absurd h hop }

/-- No instruction but a branch touches the fuel. -/
theorem exec_keeps_fuel {i : CuOp} (hop : i.op ≠ .br) : Keeps (·.fuel) (exec v m i) :=
  exec_keeps v m { fuel := fun h => absurd h hop }

/-- The registers and the array that say where a machine is and where it returns to. -/
def control (s : Mach) : Nat × Nat × Nat × (Nat → Frame) := (s.pc, s.fp, s.csp, s.frames)

/-- An instruction that does not transfer control only lets the program counter move on. -/
theorem exec_keeps_control {i : CuOp} (hop : transfers i.op = false) : Keeps control (exec v m i) := by
  refine exec_keeps v m { control := fun h => ?_, depth := fun h => ?_ }
  · exact absurd h (Bool.eq_false_iff.mp hop)
  · simp only [List.mem_cons, List.not_mem_nil, or_false] at h
    rcases h with h | h | h | h <;> rw [h] at hop <;> cases hop

theorem final_step {s : Mach} {i : CuOp} (hi : m.code[s.pc]? = some i) :
    final (step v m s) = final (exec v m i (fetched s)) := by
  rw [step_apply, hi]
  simp only
  cases exec v m i (fetched s) with
  | error e t => rfl
  | ok a t =>
    simp only
    split_ifs <;> rfl

/-- A step that goes on has fetched an instruction and executed it. -/
theorem step_ok {s t : Mach} (h : step v m s = .ok () t) :
    ∃ i, m.code[s.pc]? = some i ∧ exec v m i (fetched s) = .ok () t := by
  rw [step_apply] at h
  cases hi : m.code[s.pc]? with
  | none =>
    rw [hi] at h
    cases h
  | some i =>
    rw [hi] at h
    simp only at h
    cases hx : exec v m i (fetched s) with
    | ok a u =>
      rw [hx] at h
      simp only at h
      split_ifs at h
      cases h
      exact ⟨i, rfl, hx⟩
    | error e u =>
      rw [hx] at h
      cases h

/-- A step that exits does so in front of the code, in its instruction, or at the stack test. -/
theorem step_error {s t : Mach} {e : Status} (h : step v m s = .error e t) :
    (m.code[s.pc]? = none ∧ e = .trapUnreachable) ∨ e = .trapStackOverflow ∨
      ∃ i, m.code[s.pc]? = some i ∧ exec v m i (fetched s) = .error e t := by
  rw [step_apply] at h
  cases hi : m.code[s.pc]? with
  | none =>
    rw [hi] at h
    cases h
    exact .inl ⟨rfl, rfl⟩
  | some i =>
    rw [hi] at h
    simp only at h
    cases hx : exec v m i (fetched s) with
    | ok a u =>
      rw [hx] at h
      simp only at h
      split_ifs at h
      cases h
      exact .inr (.inl rfl)
    | error e' u =>
      rw [hx] at h
      cases h
      exact .inr (.inr ⟨i, rfl, hx⟩)

/-! ## Exits that do not happen -/

section Avoids

variable {e : Status} (he : .trapStackOverflow ≠ e)

include he

theorem avoids_push {x : Run Slot} (hx : Avoids e x) : Avoids e (push v x) := by
  refine Avoids.bind .get fun s => Avoids.ite (.bind (.throw he) fun _ => ?_) ?_
  all_goals
    exact .bind hx fun y => .bind .get fun s => .bind (.modify _) fun _ =>
      .bind (.modify _) fun _ => .modify _

theorem avoids_pushZeros (n : Nat) : Avoids e (pushZeros v n) := by
  induction n with
  | zero => exact .pure ()
  | succ n ih => exact .bind (avoids_push v he (.pure 0)) fun _ => ih

end Avoids

/-- The statuses that no ordinary instruction exits with. -/
def special : Status → Bool
  | .hostcallPending | .trapUnreachable | .running => true
  | _ => false

/-- A pending host call comes from `OP_CALL_HOST` only, an unreachable trap from `OP_UNREACHABLE` or
from a return without a frame, and too many frames come from a call. -/
theorem exec_avoids {e : Status} (he : special e = true ∨ e = .trapCallDepth) {i : CuOp}
    (hcall : e = .trapCallDepth → calls i.op = false) (hhost : i.op ≠ .callHost)
    (htrap : i.op ≠ .unreachable) (hret : i.op ≠ .ret) (hend : i.op ≠ .endFunc) :
    Avoids e (exec v m i) := by
  have hne (st : Status) (h : special st = false) (hst : st ≠ .trapCallDepth) : st ≠ e := by
    rintro rfl
    obtain he | he := he
    · rw [he] at h
      cases h
    · exact hst he
  have hover : Status.trapStackOverflow ≠ e := hne _ rfl (by decide)
  unfold exec
  split
  all_goals first
    | exact absurd ‹_› hhost
    | exact absurd ‹_› htrap
    | exact absurd ‹_› hret
    | exact absurd ‹_› hend
    | skip
  all_goals
    rename_i hop
    have hdepth (h : calls i.op = true) : Status.trapCallDepth ≠ e := fun he =>
      absurd h (Bool.eq_false_iff.mp (hcall he.symm))
    try have hdepth' := hdepth (by rw [hop]; rfl)
    try simp only [load, store, memoryCopy, memoryFill, memoryInit, memoryGrow, dataDrop, br,
      globalGet, globalSet, pushPair, unwind, returnCall, indirectCallee, enter, pop, stackGet,
      stackSet, stackMove, frameGet, frameSet, touch]
  all_goals
    repeat' with_reducible first
      | refine Avoids.bind ?_ fun _ => ?_
      | refine Avoids.ite ?_ ?_
      | refine avoids_push v hover ?_
      | exact avoids_pushZeros v hover _
      | exact Avoids.get
      | exact Avoids.pure _
      | exact Avoids.modify _
      | exact Avoids.throw (hne _ (by decide) (by decide))
      | exact Avoids.throw hdepth'
      | split
  -- the exit of an arithmetic operator
  rename_i heq
  have hexit := BinOp.eval_error heq
  unfold PlainExit at hexit
  split at hexit <;> first | exact Avoids.throw (hne _ rfl (by decide)) | exact hexit.elim

/-- A return exits with an unreachable trap only when there is no frame. -/
theorem leave_error {s t : Mach} {e : Status} (h : leave v s = .error e t) :
    (s.csp = 0 ∧ e = .trapUnreachable) ∨ special e = false ∧ e ≠ .trapCallDepth := by
  rw [leave_apply] at h
  simp only at h
  split_ifs at h with h0
  · cases h
    exact .inl ⟨h0, rfl⟩
  · cases h
    exact .inr ⟨rfl, nofun⟩
  · cases h
    exact .inr ⟨rfl, nofun⟩

/-- Where a special exit comes from. -/
theorem exec_special {s t : Mach} {e : Status} {i : CuOp} (h : exec v m i s = .error e t)
    (he : special e = true) :
    (i.op = .callHost ∧ e = .hostcallPending ∧ t = suspended v i.a i.b s) ∨
      (e = .trapUnreachable ∧ (i.op = .unreachable ∨ s.csp = 0)) := by
  have hleave : leave v s = .error e t → e = .trapUnreachable ∧ s.csp = 0 := by
    intro h
    rcases leave_error v h with ⟨h0, h1⟩ | ⟨h1, -⟩
    · exact ⟨h1, h0⟩
    · rw [he] at h1
      cases h1
  by_cases hhost : i.op = .callHost
  · simp only [exec, hhost, callHost_apply] at h
    split_ifs at h
    · cases h
      cases he
    · cases h
      cases he
    · cases h
      exact .inl ⟨hhost, rfl, rfl⟩
  right
  by_cases htrap : i.op = .unreachable
  · simp only [exec, htrap] at h
    cases h
    exact ⟨rfl, .inl htrap⟩
  by_cases hret : i.op = .ret
  · simp only [exec, hret] at h
    exact (hleave h).imp_right .inr
  by_cases hend : i.op = .endFunc
  · simp only [exec, hend] at h
    exact (hleave h).imp_right .inr
  refine absurd h (exec_avoids v m (.inl he) (fun hst => ?_) hhost htrap hret hend _ _)
  rw [hst] at he
  cases he

/-- Too many frames come from a call. -/
theorem exec_depth {s t : Mach} {i : CuOp} (h : exec v m i s = .error .trapCallDepth t) :
    calls i.op = true := by
  by_contra hcalls
  have hleave : leave v s ≠ .error .trapCallDepth t := by
    intro h
    rcases leave_error v h with ⟨-, h1⟩ | ⟨-, h1⟩
    · cases h1
    · exact h1 rfl
  refine exec_avoids v m (.inr rfl) (fun _ => Bool.eq_false_iff.mpr hcalls) ?_ ?_ ?_ ?_ s t h
  · intro hop
    rw [hop] at hcalls
    exact hcalls rfl
  all_goals
    intro hop
    simp only [exec, hop] at h
  · cases h
  · exact hleave h
  · exact hleave h

theorem step_pending {s t : Mach} (h : step v m s = .error .hostcallPending t) :
    ∃ i, m.code[s.pc]? = some i ∧ i.op = .callHost ∧ t = suspended v i.a i.b (fetched s) := by
  rcases step_error v m h with ⟨-, h⟩ | h | ⟨i, hi, hx⟩
  · cases h
  · cases h
  · rcases exec_special v m hx rfl with ⟨hop, -, rfl⟩ | ⟨he, -⟩
    · exact ⟨i, hi, hop, rfl⟩
    · cases he

/-- Inside the code and below a frame, an unreachable trap comes from `OP_UNREACHABLE`. -/
theorem step_trap {s t : Mach} (h : step v m s = .error .trapUnreachable t) (hcsp : 0 < s.csp)
    (hpc : s.pc < m.code.length) : ∃ i, m.code[s.pc]? = some i ∧ i.op = .unreachable := by
  rcases step_error v m h with ⟨hi, -⟩ | h | ⟨i, hi, hx⟩
  · rw [List.getElem?_eq_none_iff] at hi
    omega
  · cases h
  · rcases exec_special v m hx rfl with ⟨-, he, -⟩ | ⟨-, hop | h0⟩
    · cases he
    · exact ⟨i, hi, hop⟩
    · have hsame : (fetched s).csp = s.csp := rfl
      omega

theorem step_not_running (s t : Mach) : step v m s ≠ .error .running t := by
  intro h
  rcases step_error v m h with ⟨-, h⟩ | h | ⟨i, hi, hx⟩
  · cases h
  · cases h
  · rcases exec_special v m hx rfl with ⟨-, he, -⟩ | ⟨he, -⟩ <;> cases he

/-- `OP_UNREACHABLE` traps. -/
theorem step_unreachable {s : Mach} {i : CuOp} (hi : m.code[s.pc]? = some i)
    (hop : i.op = .unreachable) : step v m s = .error .trapUnreachable (fetched s) := by
  rw [step_apply, hi]
  simp only [exec, hop, throw_apply]

end Run

end CuWasm
