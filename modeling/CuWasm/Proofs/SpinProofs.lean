import CuWasm.Proofs.ImportProofs
import CuWasm.Proofs.IntProofs
import CuWasm.Proofs.ReturnProofs

/-!
# Fuel bounds a run in which every way back is charged

Only an `OP_BR` is charged. An `OP_BR_IF_NOT` that leads back is free, so a run that takes one need not
end. `lower_operators` makes none, but a pass that fails leaves its targets unpatched, and an import
called through the table executes the first code of the module, whatever that is.
-/

namespace CuWasm

open Wasm Exit Translate

/-- `run_cpu` returns with a final status. -/
theorem cpuLoop_final {H : Type} {m : HostModule} {f : FuncMeta} {host : HostFn H} {n rounds : Nat}
    {c : CpuState H} {r : RunResult × HostModule × H} (h : cpuLoop m f host n rounds c = some r) :
    r.1.status ∉ [Status.running, .hostcallPending] := by
  obtain ⟨d, -, hend⟩ := cpuLoop_runs .refl h
  rcases cpuRound_inl hend with ⟨-, hcall⟩ | ⟨hpend, rfl⟩
  · unfold hostCall at hcall
    cases hr : (d.ask host).reply with
    | error e =>
      simp only [hr] at hcall
      cases hcall
      simp
    | ok p =>
      simp only [hr] at hcall
      split at hcall
      · cases hcall
        simp
      · cases hcall
  · have hrun : d.st.status ≠ .running := by
      intro hrun
      rw [cpuRound_running hrun] at hend
      cases hend
    simp [finalResult, hrun, hpend]

/-- A run without tail calls that takes no `OP_BR_IF_NOT` back: `run_cpu` returns with a final status
after at most as many `run_instance` calls as the fuel and the code allow, whatever the host answers and
however small the quota is. -/
theorem fuel_ends_run {H : Type} {m : HostModule} (hno : ∀ i ∈ m.code, i.op ≠ .returnCall)
    (f : FuncMeta) (args : List Slot) (host : HostFn H) (h : H) (fuel : Int) {n rounds : Nat}
    (hn : 0 < n)
    (hfree : ∀ s, Visits m f host n (cpuEntry m f args fuel h) s → ¬ FreeJump m.cpuViews m.dev s)
    (hr : (fuel.toNat + 1) * m.dev.span < rounds) :
    ∃ r, cpuLoop m f host n rounds (cpuEntry m f args fuel h) = some r ∧
      r.1.status ∉ [Status.running, .hostcallPending] := by
  have hcharged (s : Mach) (hs : Visits m f host n (cpuEntry m f args fuel h) s) :
      Charged m.cpuViews m.dev s := ⟨hfree s hs, fun i hi => hno i (List.mem_of_getElem? hi)⟩
  obtain ⟨hin, hlt⟩ := entry_budget m f args fuel {} (S := fun _ => True) trivial
  obtain ⟨rounds, rfl⟩ : ∃ r, rounds = r + 1 := ⟨rounds - 1, by omega⟩
  obtain ⟨r, hret⟩ := cpuLoop_charged hn host rounds hcharged hin.depth
    (Nat.lt_of_lt_of_le hlt (by omega))
  exact ⟨r, hret, cpuLoop_final hret⟩

/-- A loop that goes on for as long as there is fuel. -/
theorem looping_ends : ∃ rounds r, cpuLoop Verify.looping Verify.loopingFunc refuseHost 1 rounds
      (cpuEntry Verify.looping Verify.loopingFunc [] 10 ()) = some r ∧
    r.1.status ∉ [Status.running, .hostcallPending] := by
  have hforward (p : Nat) (i : CuOp) (hi : Verify.looping.code[p]? = some i) (hop : i.op = .brIfNot) :
      ¬ i.b ≤ p := by
    match p with
    | 0 | 2 | 3 | 4 =>
      cases hi
      cases hop
    | 1 =>
      cases hi
      decide
    | p + 5 => cases hi
  refine ⟨_, fuel_ends_run (by decide) _ _ _ _ _ Nat.one_pos ?_ (Nat.lt_succ_self _)⟩
  rintro s - ⟨i, hi, hop, -, hb⟩
  exact hforward s.pc i hi hop hb

/-- An import in the table, a body that cannot be lowered behind the `if` it starts with, and a function
that calls through the table. -/
def spinModule : Module where
  types := [[.func ([], [])]]
  imports := [⟨"x", "3", .func 0⟩]
  funcs := [0, 0]
  tables := [{ initial := 1 }]
  elems := [⟨.active none [.ok (.const (.i32 0)), .ok .end_], .functions [.ok 0]⟩]
  code := [{ locals := [], body := .op (.const (.i32 0)) (.ifThen .empty
      (.op (.const (.i32 1)) (.op (.const (.i32 1)) (.op (.other "I32Rotl") (.op .drop .nil)))) .nil) },
    { locals := [], body := .op (.const (.i32 0)) (.op (.callIndirect 0 0) .nil) }]

/-- The code of the module. The branch of the failed body has not been patched. -/
def spinCode : List CuOp :=
  [⟨.i64Const, 0, 0⟩, ⟨.brIfNot, 0, 0⟩, ⟨.i64Const, 0, 1⟩, ⟨.i64Const, 0, 1⟩, ⟨.unreachable, 0, 0⟩,
    ⟨.endFunc, 0, 0⟩, ⟨.i64Const, 0, 0⟩, ⟨.callIndirect, 0, 0⟩, ⟨.endFunc, 0, 0⟩]

/-- The function that calls through the table. -/
def spinMeta : FuncMeta := ⟨6, 3, 0, 0, 0, 1⟩

theorem spinModule_valid : spinModule.Valid := by
  refine ⟨by decide, rfl, fun k ft c hty hc => ?_⟩
  match k with
  | 0 =>
    cases hc
    cases hty
    set C := spinModule.ctx ([], []) { locals := [], body := .op (.const (.i32 0)) (.ifThen .empty
      (.op (.const (.i32 1)) (.op (.const (.i32 1)) (.op (.other "I32Rotl") (.op .drop .nil)))) .nil) }
    have hdrop : Typed C [[], []] true ([.i32] ++ []) (.op .drop .nil) ([] ++ []) := .op (.drop .i32) .nil
    have hrotl : Typed C [[], []] true ([.i32, .i32] ++ [])
        (.op (.other "I32Rotl") (.op .drop .nil)) [] := .op (.other _ _ _) hdrop
    have hone : Typed C [[], []] true ([] ++ [.i32])
        (.op (.const (.i32 1)) (.op (.other "I32Rotl") (.op .drop .nil))) [] := .op (.const (.i32 1)) hrotl
    have harm : Typed C [[], []] true ([] ++ []) (.op (.const (.i32 1)) (.op (.const (.i32 1))
        (.op (.other "I32Rotl") (.op .drop .nil)))) [] := .op (.const (.i32 1)) hone
    have hempty : BlockType.empty.expand C.types = some ([], []) := rfl
    have hif : Typed C [[]] true (.i32 :: ([] ++ [])) (.ifThen .empty (.op (.const (.i32 1))
        (.op (.const (.i32 1)) (.op (.other "I32Rotl") (.op .drop .nil)))) .nil) [] :=
      .ifThen hempty rfl harm .nil
    exact .op (.const (.i32 0)) hif
  | 1 =>
    cases hc
    cases hty
    set C := spinModule.ctx ([], [])
      { locals := [], body := .op (.const (.i32 0)) (.op (.callIndirect 0 0) .nil) }
    have htype : C.types[0]? = some ([], []) := rfl
    have hcall : OpTyped C (.callIndirect 0 0) [.i32] [] := .callIndirect htype (by decide)
    have hrest : Typed C [[]] true ([.i32] ++ []) (.op (.callIndirect 0 0) .nil) ([] ++ []) :=
      .op hcall .nil
    exact .op (.const (.i32 0)) hrest
  | k + 2 => cases hc

/-- The module has been loaded as expected, and the call through its table finds the import. -/
structure SpinLoaded (m : HostModule) : Prop where
  code : m.code = spinCode
  consts : m.consts = [0, 1]
  func : m.funcs[2]? = some spinMeta
  target : Run.indirectTarget m.dev 0 0 = some ⟨0, 0, 0, 0, 0, 0⟩

theorem spin_loaded : ∃ m0 m, loadWasm spinModule.payloads = .ok m0 ∧ verifyCuop m0 = .ok m ∧
    SpinLoaded m := by
  have hload : ((loadWasm spinModule.payloads).toOption.bind fun m0 =>
      (verifyCuop m0).toOption.map fun m => (m.code == spinCode && m.consts == [0, 1] &&
        m.funcs[2]? == some spinMeta && Run.indirectTarget m.dev 0 0 == some ⟨0, 0, 0, 0, 0, 0⟩)) =
      some true := by decide +kernel
  obtain ⟨m0, m, hm, hv, heval⟩ := loaded_eval hload
  simp only [Bool.and_eq_true, beq_iff_eq] at heval
  obtain ⟨⟨⟨h1, h2⟩, h3⟩, h4⟩ := heval
  exact ⟨m0, m, hm, hv, h1, h2, h3, h4⟩

section Spin

variable {m : HostModule} {s t : Mach}

/-- The machine is in front of the call through the table, or in the unpatched code that the call leads
to. The condition of the branch is 0. -/
inductive Spins (s : Mach) : Prop where
  | entry (hpc : s.pc = 6) (hsp : s.sp = 0) (hcsp : s.csp = 1)
  | index (hpc : s.pc = 7) (hsp : s.sp = 1) (hcsp : s.csp = 1) (htop : s.stack 0 = 0)
  | const (hpc : s.pc = 0) (hsp : s.sp = 0)
  | branch (hpc : s.pc = 1) (hsp : s.sp = 1) (htop : s.stack 0 = 0)

theorem Spins.congr (h : Spins s) (hpc : t.pc = s.pc) (hsp : t.sp = s.sp) (hcsp : t.csp = s.csp)
    (htop : t.stack 0 = s.stack 0) : Spins t := by
  cases h with
  | entry h1 h2 h3 => exact .entry (hpc.trans h1) (hsp.trans h2) (hcsp.trans h3)
  | index h1 h2 h3 h4 => exact .index (hpc.trans h1) (hsp.trans h2) (hcsp.trans h3) (htop.trans h4)
  | const h1 h2 => exact .const (hpc.trans h1) (hsp.trans h2)
  | branch h1 h2 h3 => exact .branch (hpc.trans h1) (hsp.trans h2) (htop.trans h3)

theorem const_step (hm : SpinLoaded m) (hi : m.code[s.pc]? = some ⟨.i64Const, 0, 0⟩) (hsp : s.sp = 0) :
    ∃ t, Run.step m.cpuViews m.dev s = .ok () t ∧ t.pc = s.pc + 1 ∧ t.sp = 1 ∧ t.csp = s.csp ∧
      t.stack 0 = 0 := by
  have hi' : m.dev.code[s.pc]? = some ⟨.i64Const, 0, 0⟩ := hi
  have hconsts : m.dev.consts = [0, 1] := hm.consts
  have hroom : ¬ (Run.fetched s).sp ≥ m.cpuViews.stack.cap := by
    show ¬ s.sp ≥ STACK_CAP
    rw [hsp]
    decide
  rw [Run.step_apply, hi']
  simp only [Run.exec, Run.push_apply, if_neg hroom, pure_apply]
  rw [if_neg (by show ¬ s.sp + 1 > STACK_CAP; rw [hsp]; decide)]
  refine ⟨_, rfl, rfl, congrArg (· + 1) hsp, rfl, ?_⟩
  simp [Run.fetched, hsp, hconsts]

/-- A call of the import enters at its placeholder: at the first instruction, without locals. -/
theorem enter_placeholder (m : HostModule) {u : Mach} (hcsp : u.csp < FRAME_CAP) (hsp : u.sp = 0) :
    ∃ t, Run.enter m.cpuViews ⟨0, 0, 0, 0, 0, 0⟩ u = .ok () t ∧ t.pc = 0 ∧ t.sp = 0 := by
  rw [Run.enter_apply, if_neg (Nat.not_le.mpr hcsp), if_neg (Nat.not_lt_zero _), Run.pushZeros_apply,
    if_pos (.inl rfl)]
  exact ⟨_, rfl, rfl, hsp⟩

theorem Spins.step (hm : SpinLoaded m) (h : Spins s) :
    ∃ t, Run.step m.cpuViews m.dev s = .ok () t ∧ Spins t := by
  cases h with
  | entry hpc hsp hcsp =>
    obtain ⟨t, hst, h1, h2, h3, h4⟩ := const_step hm (by rw [hm.code, hpc]; rfl) hsp
    exact ⟨t, hst, .index (by rw [h1, hpc]) h2 (by rw [h3, hcsp]) h4⟩
  | index hpc hsp hcsp htop =>
    have hi : m.dev.code[s.pc]? = some ⟨.callIndirect, 0, 0⟩ := by
      show m.code[s.pc]? = _
      rw [hm.code, hpc]
      rfl
    have htop' : (Run.fetched s).stack (m.cpuViews.stack.idx (dec32 (Run.fetched s).sp)) = 0 := by
      simp [Run.fetched, hsp, htop, dec32]
    rw [Run.step_apply, hi]
    simp only [Run.exec, bind_apply, Run.pop_apply, Run.indirectCallee_apply, htop']
    rw [show (u32 0).toNat = 0 from rfl, hm.target]
    set u : Mach := { Run.fetched s with
      sp := dec32 (Run.fetched s).sp
      log := ⟨.stack, m.cpuViews.stack.idx (dec32 (Run.fetched s).sp), 1⟩ :: (Run.fetched s).log }
    have hu : u.csp = s.csp ∧ u.sp = 0 := by simp [u, Run.fetched, hsp, dec32]
    obtain ⟨t, ht, h1, h2⟩ := enter_placeholder m (by rw [hu.1, hcsp]; decide) hu.2
    simp only [ht]
    rw [if_neg (by rw [h2]; decide)]
    exact ⟨t, rfl, .const h1 h2⟩
  | const hpc hsp =>
    obtain ⟨t, hst, h1, h2, -, h4⟩ := const_step hm (by rw [hm.code, hpc]; rfl) hsp
    exact ⟨t, hst, .branch (by rw [h1, hpc]) h2 h4⟩
  | branch hpc hsp htop =>
    have hi : m.dev.code[s.pc]? = some ⟨.brIfNot, 0, 0⟩ := by
      show m.code[s.pc]? = _
      rw [hm.code, hpc]
      rfl
    rw [Run.step_apply, hi]
    have htop' : (Run.fetched s).stack (m.cpuViews.stack.idx (dec32 (Run.fetched s).sp)) = 0 := by
      simp [Run.fetched, hsp, htop, dec32]
    simp only [Run.exec, bind_apply, Run.pop_apply, htop', ite_run, modify_apply]
    rw [if_pos (show u32 (0 : Slot) = 0 from rfl)]
    dsimp only
    have hsp' : dec32 (Run.fetched s).sp = 0 := by simp [Run.fetched, hsp, dec32]
    rw [if_neg (by rw [hsp']; decide)]
    exact ⟨_, rfl, .const rfl hsp'⟩

/-- The machine spins on for as many instructions as it is given. -/
theorem Spins.loop (hm : SpinLoaded m) (n : Nat) : ∀ {s}, Spins s →
    ∃ t, Run.loop m.cpuViews m.dev n s = (.running, t) ∧ Spins t := by
  induction n with
  | zero => exact fun h => ⟨_, rfl, h⟩
  | succ n ih =>
    intro s h
    obtain ⟨t, ht, h'⟩ := h.step hm
    unfold Run.loop
    rw [ht]
    exact ih h'

/-- So `run_cpu` does not return. -/
theorem Spins.cpuLoop {H : Type} (hm : SpinLoaded m) (host : HostFn H) (n rounds : Nat) :
    ∀ {c : CpuState H}, c.st.status = .running → Spins (c.mach m) →
      cpuLoop m spinMeta host n rounds c = none := by
  induction rounds with
  | zero => exact fun _ _ => rfl
  | succ rounds ih =>
    intro c hrun h
    obtain ⟨t, ht, h'⟩ := h.loop hm n
    unfold CuWasm.cpuLoop
    rw [cpuRound_running hrun, runOnce_of_loop ht]
    exact ih rfl (h'.congr rfl rfl rfl rfl)

end Spin

/-- No fuel and no quota ends the run: the call through the table leads to the unpatched branch, which
goes back to the first instruction. -/
theorem free_jump_spins : spinModule.Valid ∧ ∃ m0 m, loadWasm spinModule.payloads = .ok m0 ∧
    verifyCuop m0 = .ok m ∧ (∀ i ∈ m.code, i.op ≠ .returnCall) ∧ m.funcs[2]? = some spinMeta ∧
    ∀ (fuel : Int) (n rounds : Nat),
      cpuLoop m spinMeta refuseHost n rounds (cpuEntry m spinMeta [] fuel ()) = none := by
  obtain ⟨m0, m, hload, hver, hm⟩ := spin_loaded
  refine ⟨spinModule_valid, m0, m, hload, hver, ?_, hm.func, fun fuel n rounds => ?_⟩
  · rw [hm.code]
    decide
  · exact Spins.cpuLoop hm refuseHost n rounds rfl (.entry rfl rfl rfl)

end CuWasm
