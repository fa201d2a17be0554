import CuWasm.Proofs.CallProofs
import CuWasm.Proofs.CarryProofs
import CuWasm.Proofs.FinishProofs
import CuWasm.Proofs.FuncWidthProofs
import CuWasm.Proofs.GlobalProofs
import CuWasm.Proofs.MemSizeProofs

/-!
# Runs keep slots canonical

In a run of a valid module without imports the slots of the running function and of its suspended
callers have the widths that the code has at their program counters. So every value of 32 bits stays
below 2 ^ 32.
-/

namespace CuWasm

open Exit BlockMove Wasm Structured Verify Translate

/-- Widths for the functions of a verified module: those of the operands by program counter, and those
of the locals. -/
structure ModuleWidths (M : Module) (m0 m : HostModule) where
  operands : Nat → Nat → List Nat
  locals : Nat → List Nat
  func : ∀ j g, m.funcs[j]? = some g → ∃ ft c, M.codeType j = some ft ∧ M.code[j]? = some c ∧
    FuncWidths M m0 m j g ft c (operands j) (locals j)

variable {M : Module} {m0 m : HostModule}

theorem Verified.moduleWidths (h : Verified M m0 m) (himp : M.imports = []) :
    Nonempty (ModuleWidths M m0 m) := by
  have hall : ∀ j, ∃ K L, ∀ g, m.funcs[j]? = some g → ∃ ft c, M.codeType j = some ft ∧
      M.code[j]? = some c ∧ FuncWidths M m0 m j g ft c K L := by
    intro j
    cases hg : m.funcs[j]? with
    | none => exact ⟨fun _ => [], [], nofun⟩
    | some g =>
      obtain ⟨ft, c, K, L, hty, hc, hw⟩ := h.funcWidths himp hg
      refine ⟨K, L, fun g' hg' => ?_⟩
      cases hg'
      exact ⟨ft, c, hty, hc, hw⟩
  choose K L hKL using hall
  exact ⟨⟨K, L, hKL⟩⟩

section Invariant

variable (W : ModuleWidths M m0 m) (v : Views) (R : List ValType)

/-- The suspended callers `js`, innermost first, of an activation with frame base `fp` wait for results
of the types `res`; the bottom activation delivers those of the types `R`. -/
def ModuleWidths.Waits (s : Mach) : List Nat → List ValType → Nat → Prop
  | [], res, fp => res = R ∧ fp = 0
  | j :: js, res, fp =>
    let fr := s.frames (v.frames.idx (js.length + 1))
    ∃ ft r, M.codeType j = some ft ∧ W.operands j fr.retPc = widths res.reverse ++ r ∧
      fp = fr.fp + (W.locals j).length + r.length ∧ Holds v s fr.fp (W.locals j ++ r.reverse) ∧
      ModuleWidths.Waits s js ft.2 fr.fp

/-- The machine runs the function `g` with number `j`, called by the functions with numbers `js`, and
all slots have their widths. -/
structure ModuleWidths.At (j : Nat) (js : List Nat) (g : FuncMeta) (gs : List FuncMeta) (ft : FuncType)
    (c : Func) (s : Mach) : Prop where
  func : m.funcs[j]? = some g
  type : M.codeType j = some ft
  code : M.code[j]? = some c
  callers : List.Forall₂ (fun i f => m.funcs[i]? = some f) js gs
  frame : FrameInv v m g gs s
  carries : Carries v (M.ctx ft c) (W.locals j) (W.operands j s.pc) s
  waits : W.Waits v R s js ft.2 s.fp

end Invariant

section Steps

variable {W : ModuleWidths M m0 m} {v : Views} {R : List ValType} {j : Nat} {js : List Nat} {g : FuncMeta}
  {gs : List FuncMeta} {ft : FuncType} {c : Func} {s t : Mach}

theorem ModuleWidths.Waits.congr {res : List ValType} {fp : Nat} (h : W.Waits v R s js res fp)
    (hfr : ∀ k, 0 < k → k ≤ js.length → t.frames (v.frames.idx k) = s.frames (v.frames.idx k))
    (hst : ∀ i, i < fp → t.stack (v.stack.idx i) = s.stack (v.stack.idx i)) :
    W.Waits v R t js res fp := by
  induction js generalizing res fp with
  | nil => exact h
  | cons j js ih =>
    obtain ⟨ft, r, hty, hK, hfp, hholds, hrest⟩ := h
    rw [List.length_cons] at hfr
    unfold ModuleWidths.Waits
    rw [hfr (js.length + 1) (by omega) le_rfl]
    refine ⟨ft, r, hty, hK, hfp, hholds.moved fun k hk => hst _ ?_, ih hrest (fun k h0 hk => ?_) ?_⟩
    · rw [List.length_append, List.length_reverse] at hk
      omega
    · exact hfr k h0 (by omega)
    · exact fun i hi => hst i (by omega)

/-- The signature of a function is that of its type. -/
theorem Verified.sig (h : Verified M m0 m) (himp : M.imports = []) (hg : m.funcs[j]? = some g)
    (hty : M.codeType j = some ft) : g.nParams = ft.1.length ∧ g.nResults = ft.2.length := by
  obtain ⟨ti, hti, hft⟩ := Option.bind_eq_some_iff.mp hty
  have hidx : M.funcTypeidx[j]? = some ti := by
    rw [Module.funcTypeidx, himp]
    exact hti
  obtain ⟨g0, hg0, hp, hr⟩ := h.translated.signature h.valid hidx hft
  obtain ⟨g1, hg1, hs, -⟩ := h.func hg
  rw [hg0] at hg1
  cases hg1
  rw [hs]
  exact ⟨hp, hr⟩

theorem codeType_of (himp : M.imports = []) {fi : Nat} {ft' : FuncType}
    (hf : (M.ctx ft c).funcType fi = some ft') : M.codeType fi = some ft' := by
  rw [← hf]
  unfold Ctx.funcType Module.codeType Module.ctx Module.funcTypeidx
  rw [himp]
  rfl

theorem Verified.consts (h : Verified M m0 m) : m.consts = m0.consts := by
  obtain ⟨-, fs, rfl, -⟩ := verifyCuop_accepted h.verified
  rfl

theorem step_fetched {i : CuOp} (hi : m.code[s.pc]? = some i) (hstep : Run.step v m.dev s = .ok () t) :
    Run.exec v m.dev i (Run.fetched s) = .ok () t := by
  obtain ⟨i', hi', hx⟩ := Run.step_ok v m.dev hstep
  cases hi.symm.trans hi'
  exact hx

/-- Most instructions leave the globals and the size of the memory alone. -/
theorem step_data {i : CuOp} (hi : m.code[s.pc]? = some i) (hstep : Run.step v m.dev s = .ok () t)
    (hset : i.op ≠ .globalSet) (hgrow : i.op ≠ .memoryGrow) :
    t.globals = s.globals ∧ t.memSize = s.memSize := by
  have hx := step_fetched hi hstep
  have hglob := (Run.exec_keeps_globals v m.dev hset).ok hx
  have hmem := (Run.exec_keeps_memSize v m.dev hgrow).ok hx
  exact ⟨hglob, hmem⟩

/-- The function whose first instruction is about to be fetched. -/
theorem Verified.entered (h : Verified M m0 m) (himp : M.imports = []) {f : FuncMeta}
    (hinv : FrameInv v m f gs s) (hg : g ∈ m.funcs) (hpc : s.pc = g.codeOff) : f = g := by
  obtain ⟨⟨fl, hfl, -⟩, -⟩ := hinv.located.flowAt h.accepted
  have hlt := hfl.lt
  have hlow := hinv.pc
  have hpos := h.code_pos himp hg
  have hin : g.codeOff ≤ s.pc ∧ s.pc < g.codeOff + g.codeLen := by omega
  exact h.disjoint himp hg hinv.located.mem hin (by omega)

section At

variable (h : Verified M m0 m) (himp : M.imports = []) (hat : W.At v R j js g gs ft c s)

include h hat

omit h in
theorem ModuleWidths.At.funcWidths : FuncWidths M m0 m j g ft c (W.operands j) (W.locals j) := by
  obtain ⟨ft', c', hty, hc, hw⟩ := W.func j g hat.func
  rw [hat.type] at hty
  rw [hat.code] at hc
  cases hty
  cases hc
  exact hw

/-- The rule of the instruction about to be fetched. An instruction that accesses a local takes or
leaves an operand, so that the locals do not fill the frame. -/
theorem ModuleWidths.At.rule : ∃ i, m.code[s.pc]? = some i ∧
    WidthOk m0 (M.ctx ft c) (W.locals j) (W.operands j) s.pc i ∧
      ∀ k, localOf i = some k → (W.locals j).length < 65535 := by
  obtain ⟨hcode, fl, hfl, hcase⟩ := hat.frame.instr h.accepted
  have hpc := hat.frame.pc
  have hw := hat.funcWidths
  obtain ⟨-, hok⟩ := hw.rules _ hat.frame.located
  rw [Nat.add_sub_cancel' hpc] at hok
  refine ⟨_, hcode, hok, fun k hk => ?_⟩
  have hknown := hat.frame.located.known
  obtain ⟨-, ⟨h0, -⟩ | ⟨-, st, -, -, hmax⟩⟩ := h.accepted.func j g hat.func
  · have := hat.frame.located.code
    omega
  have hle := hfl.le
  have hnext := hfl.next_le
  rw [hw.frame]
  unfold localOf at hk
  generalize instrAt m g (s.pc - g.codeOff) = i at hk hcase
  cases hcase with
  | plain he hp =>
    unfold CuWasm.effect at he
    cases hop : i.op <;> simp only [hop, reduceCtorEq] at hk
    all_goals
      simp only [hop, Option.some.injEq, Prod.mk.injEq] at he
      obtain ⟨rfl, rfl⟩ := he
      push_cast at hp hnext
      omega
  | leave hop => rcases hop with hop | hop <;> simp only [hop, reduceCtorEq] at hk
  | unwind hop | br hop | brIfNot hop | call hop | returnCall hop | unreachable hop | callHost hop
    | callIndirect hop => simp only [hop, reduceCtorEq] at hk

include himp

/-- An instruction that stays in the activation. -/
theorem ModuleWidths.At.stay (hstep : Run.step v m.dev s = .ok () t) (hcsp : t.csp = s.csp)
    (hop : ∀ i, m.code[s.pc]? = some i → i.op ≠ .returnCall)
    (hc : Carries v (M.ctx ft c) (W.locals j) (W.operands j t.pc) t) : W.At v R j js g gs ft c t := by
  have hstep' := step_frame h.accepted hat.frame (h.stepOk himp hat.frame)
  rw [hstep] at hstep'
  obtain ⟨hkept, -, hmv⟩ := hstep'
  have hcsp0 := hat.frame.csp
  have hlen := hat.callers.length_eq
  cases hmv with
  | same hframe hfp =>
    refine ⟨hat.func, hat.type, hat.code, hat.callers, hframe, hc, ?_⟩
    rw [hfp]
    exact hat.waits.congr (fun k h0 hk => hkept.frames (by omega) k (by omega)) hkept.stack
  | tail g' _ _ hret =>
    obtain ⟨i, hi, hret, -⟩ := hret
    exact absurd hret (hop i hi)
  | call g' hframe =>
    have := hframe.csp
    rw [List.length_cons] at this
    omega
  | ret g' gs' hgs hframe =>
    have := hframe.csp
    rw [hgs, List.length_cons] at hcsp0
    omega

/-- The state behind a fetched instruction that goes on with the next one or jumps. -/
theorem ModuleWidths.At.plain {i : CuOp} {ps qs r : List Nat} (hi : m.code[s.pc]? = some i)
    (hstep : Run.step v m.dev s = .ok () t) (hs : Shape m0 (M.ctx ft c) (W.locals j) i ps qs)
    (hroom : ∀ k, localOf i = some k → (W.locals j).length < 65535)
    (hn : W.operands j s.pc = ps ++ r) (hnext : W.operands j (s.pc + 1) = qs ++ r) :
    W.At v R j js g gs ft c t := by
  have hx := step_fetched hi hstep
  have hctl : Run.control t = Run.control (Run.fetched s) :=
    (Run.exec_keeps_control v m.dev hs.transfers).ok hx
  simp only [Run.control, Run.fetched, Prod.mk.injEq] at hctl
  have hcar : Carries v (M.ctx ft c) (W.locals j) (ps ++ r) (Run.fetched s) :=
    hn ▸ hat.carries.congr rfl rfl rfl rfl hat.carries.memSize
  refine hat.stay h himp hstep hctl.2.2.1 (fun k hk hop => ?_) ?_
  · cases hi.symm.trans hk
    have := hs.transfers
    rw [hop] at this
    cases this
  · rw [hctl.1, hnext]
    exact (takes_shape hs h.consts hroom (Run.fetched s) hcar).1 () t hx

theorem ModuleWidths.At.unwind {a b : Nat} {top mid low : List Nat}
    (hi : m.code[s.pc]? = some ⟨.unwind, a, b⟩) (hstep : Run.step v m.dev s = .ok () t)
    (ha : a = top.length) (hb : b = (W.locals j).length + (low.length + a))
    (hn : W.operands j s.pc = top ++ (mid ++ low)) (hnext : W.operands j (s.pc + 1) = top ++ low) :
    W.At v R j js g gs ft c t := by
  have hx := step_fetched hi hstep
  have hctl : Run.control t = Run.control (Run.fetched s) :=
    (Run.exec_keeps_control v m.dev (i := ⟨.unwind, a, b⟩) rfl).ok hx
  simp only [Run.control, Run.fetched, Prod.mk.injEq] at hctl
  have hcar : Carries v (M.ctx ft c) (W.locals j) (top ++ (mid ++ low)) (Run.fetched s) :=
    hn ▸ hat.carries.congr rfl rfl rfl rfl hat.carries.memSize
  refine hat.stay h himp hstep hctl.2.2.1 (fun k hk hop => ?_) ?_
  · cases hi.symm.trans hk
    cases hop
  · rw [hctl.1, hnext]
    exact carries_unwind hcar ha hb hat.frame.small hx

theorem ModuleWidths.At.br {b : Nat} (hi : m.code[s.pc]? = some ⟨.br, 0, b⟩)
    (hstep : Run.step v m.dev s = .ok () t) (hb : W.operands j b = W.operands j s.pc) :
    W.At v R j js g gs ft c t := by
  have hx : Run.br b (Run.fetched s) = .ok () t := step_fetched hi hstep
  have hop : ∀ k, m.code[s.pc]? = some k → k.op ≠ .returnCall := by
    intro k hk hop
    cases hi.symm.trans hk
    cases hop
  rw [Run.br_apply] at hx
  split_ifs at hx
  all_goals
    cases hx
    exact hat.stay h himp hstep rfl hop
      (hb ▸ hat.carries.congr rfl rfl rfl rfl hat.carries.memSize)

theorem ModuleWidths.At.brIfNot {b w : Nat} {r : List Nat} (hi : m.code[s.pc]? = some ⟨.brIfNot, 0, b⟩)
    (hstep : Run.step v m.dev s = .ok () t) (hn : W.operands j s.pc = w :: r)
    (hnext : W.operands j (s.pc + 1) = r) (hb : W.operands j b = r) : W.At v R j js g gs ft c t := by
  have hx := step_fetched hi hstep
  have hop : ∀ k, m.code[s.pc]? = some k → k.op ≠ .returnCall := by
    intro k hk hop
    cases hi.symm.trans hk
    cases hop
  have hcar : Carries v (M.ctx ft c) (W.locals j) (w :: r) (Run.fetched s) :=
    hn ▸ hat.carries.congr rfl rfl rfl rfl hat.carries.memSize
  obtain ⟨hdec, -, hrest⟩ := hcar.pop
  simp only [Run.exec, bind_apply, Run.pop_apply, hdec, ite_run, modify_apply, pure_apply] at hx
  split_ifs at hx
  all_goals
    cases hx
    refine hat.stay h himp hstep rfl hop ?_
  · rw [hb]
    exact (hrest []).congr rfl rfl rfl rfl hcar.memSize
  · rw [show (Run.fetched s).pc = s.pc + 1 from rfl, hnext]
    exact hrest _

/-- A call enters its callee with the arguments as its first locals, and zeros behind them. -/
theorem ModuleWidths.At.enters {k top : Nat} {g' : FuncMeta} {ft' : FuncType} {r : List Nat}
    (hstep : Run.step v m.dev s = .ok () t) (hen : Enters v g' s top t)
    (hg' : m.funcs[k]? = some g') (hty' : M.codeType k = some ft')
    (htop : top = s.fp + (W.locals j).length + r.length + ft'.1.length)
    (hargs : Holds v s s.fp (W.locals j ++ (widths ft'.1.reverse ++ r).reverse))
    (hnext : W.operands j (s.pc + 1) = widths ft'.2.reverse ++ r)
    (hglob : t.globals = s.globals) (hmem : t.memSize = s.memSize) :
    ∃ c', W.At v R k (j :: js) g' (g :: gs) ft' c' t := by
  obtain ⟨ft2, c', hty2, hc', hw⟩ := W.func k g' hg'
  cases hty'.symm.trans hty2
  obtain ⟨hnp, -⟩ := h.sig himp hg' hty'
  obtain ⟨rest, hrest⟩ := hw.params
  have hframe : FrameInv v m g' (g :: gs) t := by
    obtain ⟨g2, -, hinv, -⟩ := call_enters h.accepted hat.frame (h.stepOk himp hat.frame) hstep
      (by rw [hen.csp]; omega)
    rwa [h.entered himp hinv (List.mem_of_getElem? hg') hen.pc] at hinv
  have hfp := hen.fp
  have hlen := hw.frame
  have hcsp := hat.frame.csp
  have hjs := hat.callers.length_eq
  rw [FuncMeta.locals, ← hrest, List.length_append, widths_length] at hlen
  rw [List.reverse_append, reverse_widths, ← List.append_assoc] at hargs
  obtain ⟨hlow, hargs⟩ := Holds.append.mp hargs
  rw [List.length_append, List.length_reverse] at hargs
  refine ⟨c', hg', hty', hc', .cons hat.func hat.callers, hframe, ⟨?_, ?_, ?_, ?_⟩, ?_⟩
  · rw [hen.pc, hw.start, hen.sp, ← hrest, List.length_append, widths_length, List.length_nil]
    omega
  · rw [hen.pc, hw.start, List.reverse_nil, List.append_nil, ← hrest]
    refine Holds.append.mpr ⟨hargs.moved fun i hi => ?_, .zeros fun i hi => ?_⟩
    · rw [widths_length] at hi
      rw [show t.fp + i = s.fp + ((W.locals j).length + r.length) + i by omega]
      exact hen.stack _ (by omega)
    · rw [widths_length, ← hnp, hfp]
      exact hen.zeros i (by omega)
  · intro i q hq
    rw [hglob]
    exact hat.carries.globals i q hq
  · rw [hmem]
    exact hat.carries.memSize
  · unfold ModuleWidths.Waits
    rw [show js.length + 1 = s.csp by omega, hen.frame]
    refine ⟨ft, r, hat.type, hnext, by simp only; omega, hlow.moved fun i hi => hen.stack _ ?_,
      hat.waits.congr (fun i h0 hi => hen.frames i (by omega)) fun i hi => hen.stack i ?_⟩
    · simp only [List.length_append, List.length_reverse] at hi ⊢
      omega
    · omega

theorem ModuleWidths.At.call {b : Nat} {ft' : FuncType} {r : List Nat}
    (hi : m.code[s.pc]? = some ⟨.call, 0, b⟩) (hstep : Run.step v m.dev s = .ok () t)
    (hf : (M.ctx ft c).funcType b = some ft') (hn : W.operands j s.pc = widths ft'.1.reverse ++ r)
    (hnext : W.operands j (s.pc + 1) = widths ft'.2.reverse ++ r) :
    ∃ k g' c', W.At v R k (j :: js) g' (g :: gs) ft' c' t := by
  have hx := step_fetched hi hstep
  obtain ⟨hglob, hmem⟩ := step_data hi hstep nofun nofun
  cases hg' : m.funcs[b]? with
  | none =>
    have hd : m.dev.funcs[b]? = none := hg'
    simp only [Run.exec, hd] at hx
    cases hx
  | some g' =>
    have hsp := hat.carries.sp
    rw [hn, List.length_append, widths_length, List.length_reverse] at hsp
    obtain ⟨c', hat'⟩ := hat.enters h himp hstep (CallsAt.enters ⟨_, hi, .inl ⟨rfl, hg', rfl⟩⟩ hstep) hg'
      (codeType_of himp hf) (by omega) (hn ▸ hat.carries.holds) hnext
      hglob hmem
    exact ⟨b, g', c', hat'⟩

theorem ModuleWidths.At.callIndirect {b w : Nat} {ft' : FuncType} {r : List Nat}
    (hi : m.code[s.pc]? = some ⟨.callIndirect, 0, b⟩) (hstep : Run.step v m.dev s = .ok () t)
    (ht : M.funcTypes[b]? = some ft') (hn : W.operands j s.pc = w :: (widths ft'.1.reverse ++ r))
    (hnext : W.operands j (s.pc + 1) = widths ft'.2.reverse ++ r) :
    ∃ k g' c', W.At v R k (j :: js) g' (g :: gs) ft' c' t := by
  have hx := step_fetched hi hstep
  obtain ⟨hglob, hmem⟩ := step_data hi hstep nofun nofun
  have hcar : Carries v (M.ctx ft c) (W.locals j) (w :: (widths ft'.1.reverse ++ r)) s :=
    hn ▸ hat.carries
  obtain ⟨hdec, -, hrest⟩ := hcar.pop
  have hargs := hrest []
  have hsp := hcar.sp
  rw [List.length_cons, List.length_append, widths_length, List.length_reverse] at hsp
  have hpos : 0 < s.sp := by omega
  cases hg' : Run.indirectTarget m.dev b (u32 (s.stack (v.stack.idx (s.sp - 1)))).toNat with
  | none =>
    have hdec' : dec32 (Run.fetched s).sp = s.sp - 1 := hdec
    simp only [Run.exec, bind_apply, Run.pop_apply, hdec', Run.indirectCallee_apply] at hx
    have hg2 : Run.indirectTarget m.dev b
      (u32 ((Run.fetched s).stack (v.stack.idx (s.sp - 1)))).toNat = none := hg'
    rw [hg2] at hx
    cases hx
  | some g' =>
    obtain ⟨fi, fpv, tidx, htab, hfun, hwant, -⟩ := Run.indirectTarget_some hg'
    obtain ⟨want, hwant', hfpw⟩ := h.fingerprint hwant
    cases ht.symm.trans hwant'
    obtain ⟨fi', htab', hty : (M.ctx ft c).funcType _ = _⟩ := h.indirect_type hfpw hwant hg'
    cases htab.symm.trans htab'
    have hcode := codeType_of himp hty
    obtain ⟨c', hat'⟩ := hat.enters h himp hstep
      (CallsAt.enters ⟨_, hi, .inr ⟨rfl, Nat.sub_add_cancel hpos, hg'⟩⟩ hstep) hfun
      hcode (by omega) hargs.holds hnext
      hglob hmem
    exact ⟨fi, g', c', hat'⟩

theorem ModuleWidths.At.returnCall {b : Nat} {ft' : FuncType} {r : List Nat}
    (hi : m.code[s.pc]? = some ⟨.returnCall, 0, b⟩) (hstep : Run.step v m.dev s = .ok () t)
    (hf : (M.ctx ft c).funcType b = some ft') (hres : ft'.2 = ft.2)
    (hn : W.operands j s.pc = widths ft'.1.reverse ++ r) :
    ∃ g' c', W.At v R b js g' gs ft' c' t := by
  have hx := step_fetched hi hstep
  obtain ⟨hglob, hmem⟩ := step_data hi hstep nofun nofun
  cases hg' : m.funcs[b]? with
  | none =>
    have hd : m.dev.funcs[b]? = none := hg'
    simp only [Run.exec, hd] at hx
    cases hx
  | some g' =>
    have hd : m.dev.funcs[b]? = some g' := hg'
    simp only [Run.exec, hd] at hx
    obtain ⟨-, hpc, hfp, hcsp, htsp, hargs, hzeros⟩ := returnCall_state hx
    have hty' := codeType_of himp hf
    obtain ⟨ft2, c', hty2, hc', hw⟩ := W.func b g' hg'
    cases hty'.symm.trans hty2
    obtain ⟨hnp, -⟩ := h.sig himp hg' hty'
    obtain ⟨rest, hrest⟩ := hw.params
    have hstep' := step_frame h.accepted hat.frame (h.stepOk himp hat.frame)
    rw [hstep] at hstep'
    obtain ⟨hkept, -, hmv⟩ := hstep'
    have hcsp0 := hat.frame.csp
    have hjs := hat.callers.length_eq
    have hmem' := List.mem_of_getElem? hg'
    have hframe : FrameInv v m g' gs t := by
      cases hmv with
      | same hinv _ => exact h.entered himp hinv hmem' hpc ▸ hinv
      | tail g2 hinv _ _ => exact h.entered himp hinv hmem' hpc ▸ hinv
      | call g2 hinv =>
        have := hinv.csp
        rw [List.length_cons, hcsp] at this
        simp only [Run.fetched] at this
        omega
      | ret g2 gs' hgs hinv =>
        have := hinv.csp
        rw [hgs, List.length_cons] at hcsp0
        rw [hcsp] at this
        simp only [Run.fetched] at this
        omega
    have hsp := hat.carries.sp
    have hlen := hw.frame
    rw [FuncMeta.locals, ← hrest, List.length_append, widths_length] at hlen
    rw [hn, List.length_append, widths_length, List.length_reverse] at hsp
    have hholds := hat.carries.holds
    rw [hn, List.reverse_append, reverse_widths, ← List.append_assoc] at hholds
    obtain ⟨-, htop⟩ := Holds.append.mp hholds
    rw [List.length_append, List.length_reverse] at htop
    simp only [Run.fetched] at hfp htsp hargs hzeros
    refine ⟨g', c', hg', hty', hc', hat.callers, hframe, ⟨?_, ?_, ?_, ?_⟩, ?_⟩
    · rw [hpc, hw.start, htsp, hfp, ← hrest, List.length_append, widths_length, List.length_nil]
      omega
    · rw [hpc, hw.start, List.reverse_nil, List.append_nil, ← hrest, hfp]
      refine Holds.append.mpr ⟨htop.moved fun i hi => ?_, .zeros fun i hi => ?_⟩
      · rw [widths_length] at hi
        rw [hargs i (by omega)]
        congr 2
        omega
      · rw [widths_length, ← hnp]
        exact hzeros i (by omega)
    · intro i q hq
      rw [hglob]
      exact hat.carries.globals i q hq
    · rw [hmem]
      exact hat.carries.memSize
    · rw [hres, hfp]
      exact hat.waits.congr (fun k h0 hk => hkept.frames (by omega) k (by omega)) hkept.stack

theorem ModuleWidths.At.leave {i : CuOp} {r : List Nat} (hi : m.code[s.pc]? = some i)
    (hop : i.op = .ret ∨ i.op = .endFunc) (hstep : Run.step v m.dev s = .ok () t)
    (hn : W.operands j s.pc = widths ft.2.reverse ++ r) :
    ∃ j' js' g' gs' ft' c', W.At v R j' js' g' gs' ft' c' t := by
  have hx := step_fetched hi hstep
  obtain ⟨hglob, hmem⟩ := step_data hi hstep (by rcases hop with hop | hop <;> rw [hop] <;> exact nofun)
    (by rcases hop with hop | hop <;> rw [hop] <;> exact nofun)
  have hlt : t.csp < s.csp := by
    have hx' : Run.leave v (Run.fetched s) = .ok () t := by
      rcases hop with hop | hop <;> simpa only [Run.exec, hop] using hx
    rw [Run.leave_apply] at hx'
    simp only at hx'
    split_ifs at hx' with h0
    cases hx'
    simp only [Run.fetched] at h0 ⊢
    omega
  have hok := h.stepOk himp hat.frame
  have hl := return_leaves h.accepted hat.frame hok hstep hlt
  have hstep' := step_frame h.accepted hat.frame hok
  rw [hstep] at hstep'
  obtain ⟨hkept, -, hmv⟩ := hstep'
  have hcsp0 := hat.frame.csp
  obtain ⟨-, hnr⟩ := h.sig himp hat.func hat.type
  obtain ⟨g', gs', rfl, hframe⟩ : ∃ g' gs', gs = g' :: gs' ∧ FrameInv v m g' gs' t := by
    cases hmv with
    | same hinv _ =>
      have := hinv.csp
      omega
    | tail g2 hinv _ _ =>
      have := hinv.csp
      omega
    | call g2 hinv =>
      have := hinv.csp
      rw [List.length_cons] at this
      omega
    | ret g' gs' hgs hinv => exact ⟨g', gs', hgs, hinv⟩
  obtain ⟨func, type, code, callers, frame, carries, waits⟩ := hat
  cases callers with
  | @cons j' _ js' _ hg' hcallers =>
    obtain ⟨ft', r', hty', hK, hfp, hholds, hrest⟩ := waits
    obtain ⟨ft2, c', hty2, hc', hw⟩ := W.func j' g' hg'
    cases hty'.symm.trans hty2
    have hjs := hcallers.length_eq
    rw [List.length_cons] at hcsp0
    have hpc := hl.pc
    have hlfp := hl.fp
    have hlsp := hl.sp
    have hen := hl.enough
    rw [show s.csp - 1 = js'.length + 1 by omega] at hpc hlfp
    have hsp := carries.sp
    rw [hn, List.length_append, widths_length, List.length_reverse] at hsp
    have htop := carries.holds
    rw [hn, List.reverse_append, reverse_widths, ← List.append_assoc] at htop
    obtain ⟨-, htop⟩ := Holds.append.mp htop
    rw [List.length_append, List.length_reverse] at htop
    refine ⟨j', js', g', gs', ft', c', hg', hty', hc', hcallers, hframe, ⟨?_, ?_, ?_, ?_⟩, ?_⟩
    · rw [hpc, hlfp, hK, List.length_append, widths_length, List.length_reverse]
      omega
    · rw [hpc, hlfp, hK, List.reverse_append, reverse_widths, ← List.append_assoc]
      refine Holds.append.mpr ⟨hholds.moved fun k hk => hkept.stack _ ?_, htop.moved fun k hk => ?_⟩
      · rw [List.length_append, List.length_reverse] at hk
        omega
      · rw [widths_length] at hk
        have hmove := hl.results k (by omega)
        rw [List.length_append, List.length_reverse, ← Nat.add_assoc, ← hfp, hmove]
        congr 2
        omega
    · intro k q hq
      rw [hglob]
      exact carries.globals k q hq
    · rw [hmem]
      exact carries.memSize
    · rw [hlfp]
      refine hrest.congr (fun k h0 hk => hkept.frames (by omega) k (by omega)) fun k hk => ?_
      exact hkept.stack k (by omega)

/-- One instruction. -/
theorem ModuleWidths.At.step (hstep : Run.step v m.dev s = .ok () t) :
    ∃ j' js' g' gs' ft' c', W.At v R j' js' g' gs' ft' c' t := by
  obtain ⟨i, hi, hok, hroom⟩ := hat.rule h
  cases hok with
  | plain hs hn hnext => exact ⟨j, js, g, gs, ft, c, hat.plain h himp hi hstep hs hroom hn hnext⟩
  | unwind ha hb hn hnext => exact ⟨j, js, g, gs, ft, c, hat.unwind h himp hi hstep ha hb hn hnext⟩
  | br hb => exact ⟨j, js, g, gs, ft, c, hat.br h himp hi hstep hb⟩
  | brIfNot hn hnext hb => exact ⟨j, js, g, gs, ft, c, hat.brIfNot h himp hi hstep hn hnext hb⟩
  | call hf hn hnext =>
    obtain ⟨k, g', c', hat'⟩ := hat.call h himp hi hstep hf hn hnext
    exact ⟨k, _, g', _, _, c', hat'⟩
  | callIndirect ht hn hnext =>
    obtain ⟨k, g', c', hat'⟩ := hat.callIndirect h himp hi hstep ht hn hnext
    exact ⟨k, _, g', _, _, c', hat'⟩
  | returnCall hf hres hn =>
    obtain ⟨g', c', hat'⟩ := hat.returnCall h himp hi hstep hf hres hn
    exact ⟨_, _, g', _, _, c', hat'⟩
  | leave hop hn => exact hat.leave h himp hi hop hstep hn
  | unreachable hop =>
    have hx := step_fetched hi hstep
    simp only [Run.exec, hop] at hx
    cases hx

omit h himp in
/-- A new call of `run_instance`. -/
theorem ModuleWidths.At.reenter {n : Nat} (mb : HostMailbox) (hn : n < 2 ^ 32) :
    W.At v R j js g gs ft c (Mach.load (s.save .running) n mb s.arrays) := by
  have hre : Resumes v 0 s (Mach.load (s.save .running) n mb s.arrays) :=
    ⟨rfl, rfl, rfl, rfl, rfl, .inl rfl, fun _ _ => rfl⟩
  refine ⟨hat.func, hat.type, hat.code, hat.callers, hat.frame.reenter hre,
    hat.carries.congr rfl rfl rfl rfl hn, ?_⟩
  exact hat.waits.congr (fun _ _ _ => rfl) fun _ _ => rfl

/-- The results of the run have their widths. -/
theorem ModuleWidths.At.results {w : Mach} (hfin : Run.step v m.dev s = .error .ok w) :
    Holds v w 0 (Structured.widths R) := by
  obtain ⟨i, hi, hop, hleave⟩ := step_returns h.accepted hat.frame hfin
  have hfin := leave_finishes hleave
  have hcsp := hat.frame.csp
  have hgs : gs = [] := List.eq_nil_of_length_eq_zero (by
    have := hfin.csp
    simp only [Run.fetched] at this
    omega)
  subst hgs
  obtain ⟨hbase, hnres⟩ := hat.frame.callers
  obtain ⟨-, hnr⟩ := h.sig himp hat.func hat.type
  cases hat.callers
  obtain ⟨hres, hfp⟩ := hat.waits
  obtain ⟨i', hi', hok, -⟩ := hat.rule h
  cases hi.symm.trans hi'
  obtain ⟨r, hn : W.operands j s.pc = Structured.widths ft.2.reverse ++ r⟩ := hok.returns hop
  have hholds := hat.carries.holds
  have hsp := hat.carries.sp
  rw [hn, List.length_append, widths_length, List.length_reverse] at hsp
  rw [hn, List.reverse_append, reverse_widths, ← List.append_assoc] at hholds
  obtain ⟨-, htop⟩ := Holds.append.mp hholds
  rw [List.length_append, List.length_reverse] at htop
  rw [← hres]
  refine htop.moved fun k hk => ?_
  rw [widths_length] at hk
  have hmove := hfin.results k
  simp only [Run.fetched] at hmove
  rw [hbase, hnres, hnr, hfp] at hmove
  rw [hmove hk]
  congr 2
  omega

omit himp in
/-- The globals keep their widths, also where the run ends. -/
theorem ModuleWidths.At.globals :
    GlobalsHold v (M.ctx ft c) (final (Run.step v m.dev s)) := by
  obtain ⟨i, hi, hok, -⟩ := hat.rule h
  have hcar : Carries v (M.ctx ft c) (W.locals j) (W.operands j s.pc) (Run.fetched s) :=
    hat.carries.congr rfl rfl rfl rfl hat.carries.memSize
  rw [Run.final_step v m.dev hi]
  by_cases hop : i.op = .globalSet
  · obtain ⟨b, p, r, rfl, hp, hn⟩ := hok.sets hop
    rw [hn] at hcar
    show GlobalsHold v (M.ctx ft c) (final (Run.globalSet v b (Run.fetched s)))
    cases hx : Run.globalSet v b (Run.fetched s) with
    | ok u t => exact ((takes_globalSet hp (Run.fetched s) hcar).1 u t hx).globals
    | error e t =>
      intro k q hk
      rw [final_error, globalSet_error hx]
      exact hcar.globals k q hk
  · have hkeep : (final (Run.exec v m.dev i (Run.fetched s))).globals = (Run.fetched s).globals :=
      Run.exec_keeps_globals v m.dev hop (Run.fetched s)
    intro k q hk
    rw [hkeep]
    exact hcar.globals k q hk

end At

/-- Every state of a run. -/
theorem ModuleWidths.At.run (h : Verified M m0 m) (himp : M.imports = [])
    (hat : W.At v R j js g gs ft c s) (hr : Relation.ReflTransGen (Continues m v) s t) :
    ∃ j' js' g' gs' ft' c', W.At v R j' js' g' gs' ft' c' t := by
  induction hr with
  | refl => exact ⟨j, js, g, gs, ft, c, hat⟩
  | tail _ hstep ih =>
    obtain ⟨j', js', g', gs', ft', c', hat'⟩ := ih
    cases hstep with
    | step hstep => exact hat'.step h himp hstep
    | reenter mb hn => exact ⟨j', js', g', gs', ft', c', hat'.reenter mb hn⟩

end Steps

/-! ## Types -/

section Types

variable {W : ModuleWidths M m0 m} {v : Views} {R : List ValType} {j : Nat} {js : List Nat} {g : FuncMeta}
  {gs : List FuncMeta} {ft : FuncType} {c : Func} {s t : Mach}

theorem canonicalFrom_holds {base : Nat} {ts : List ValType} :
    CanonicalFrom v s base ts ↔ Holds v s base (widths ts) := by
  constructor
  · intro h k w hk
    rw [widths, List.getElem?_map] at hk
    obtain ⟨t, ht, rfl⟩ := Option.map_eq_some_iff.mp hk
    exact h k t ht
  · intro h k t hk
    refine h k t.width ?_
    rw [widths, List.getElem?_map, hk]
    rfl

/-- A start with canonical values. -/
theorem CanonicalStart.at (h : Verified M m0 m) (himp : M.imports = [])
    (h0 : CanonicalStart M m v s j) : ∃ g ft c, W.At v ft.2 j [] g [] ft c s := by
  obtain ⟨g, hg, hentry, hzeros⟩ := h0.entry
  obtain ⟨ft, c, hty, hc, hw⟩ := W.func j g hg
  obtain ⟨hnp, -⟩ := h.sig himp hg hty
  obtain ⟨rest, hrest⟩ := hw.params
  have hlen := hw.frame
  have hmem := List.mem_of_getElem? hg
  have hnil : W.operands j s.pc = [] := by rw [hentry.pc, hw.start]
  refine ⟨g, ft, c, hg, hty, hc, .nil, hentry.frameInv h.accepted hmem (h.code_pos himp hmem),
    ⟨?_, ?_, ?_, h0.memSize⟩, rfl, hentry.fp⟩
  · rw [hnil, hentry.sp, hentry.fp, hlen, List.length_nil]
    omega
  · rw [hnil, hentry.fp, List.reverse_nil, List.append_nil, ← hrest]
    rw [← hrest, List.length_append, widths_length] at hlen
    refine Holds.append.mpr ⟨canonicalFrom_holds.mp (h0.args ft hty), .zeros fun i hi => ?_⟩
    rw [widths_length, Nat.zero_add]
    exact hzeros _ (by omega) (by omega)
  · intro i q hq
    rw [Module.ctx, List.getElem?_map] at hq
    obtain ⟨gl, hgl, rfl⟩ := Option.map_eq_some_iff.mp hq
    exact h0.globals i gl hgl

/-- The slots of an activation are canonical if they have their widths. -/
theorem FuncWidths.canonicalFrame {K : Nat → List Nat} {L : List Nat}
    (hw : FuncWidths M m0 m j g ft c K L) (hg : m.funcs[j]? = some g) (hty : M.codeType j = some ft)
    (hc : M.code[j]? = some c) {fp pc : Nat} {ps r : List Nat} (hK : K pc = ps ++ r)
    (hholds : Holds v s fp (L ++ r.reverse)) :
    CanonicalFrame M m v s j fp pc ps.length (fp + L.length + r.length) := by
  obtain ⟨hlocals, hops⟩ := Holds.append.mp hholds
  constructor
  · intro g' ft' c' i t hg' hty' hc' hi ht
    cases hg.symm.trans hg'
    cases hty.symm.trans hty'
    cases hc.symm.trans hc'
    exact hlocals i t.width (hw.declared i t hi ht)
  · intro g' ts hg' hq
    cases hg.symm.trans hg'
    have hts : Structured.widths ts = ps ++ r := (hw.sites _ hq).symm.trans hK
    have hr : Structured.widths (ts.drop ps.length) = r := by
      rw [widths, List.map_drop, ← widths, hts, List.drop_left]
    have hrev : Structured.widths (ts.drop ps.length).reverse = r.reverse := by
      rw [widths, List.map_reverse, ← widths, hr]
    refine ⟨?_, canonicalFrom_holds.mpr ?_⟩
    · rw [← hw.frame, ← widths_length (ts.drop ps.length), hr]
    · rw [hrev, ← hw.frame]
      exact hops

/-- So are those of the suspended callers. -/
theorem ModuleWidths.Waits.canonical (h : Verified M m0 m) (himp : M.imports = []) {f : FuncMeta}
    {res : List ValType} {fp : Nat} (hw : W.Waits v R s js res fp)
    (hjs : List.Forall₂ (fun i f => m.funcs[i]? = some f) js gs)
    (hcall : Callers v m s.frames gs f fp) (hlen : f.nResults = res.length) :
    CanonicalCallers M m v s js fp := by
  induction hjs generalizing f res fp with
  | nil => trivial
  | @cons j g js gs hg hjs ih =>
    obtain ⟨-, hnres, ⟨rel, np, hret, hsite, -⟩, hrest⟩ := hcall
    obtain ⟨ft, r, hty, hK, hfp, hholds, hwaits⟩ := hw
    obtain ⟨ft', c, hty', hc, hfun⟩ := W.func j g hg
    cases hty.symm.trans hty'
    obtain ⟨-, hnr⟩ := h.sig himp hg hty
    rw [← hjs.length_eq] at hret hnres hrest
    have hframe := hfun.canonicalFrame hg hty hc hK hholds
    rw [widths_length, List.length_reverse, ← hlen, ← hnres, ← hfp] at hframe
    refine ⟨⟨g, hg, by omega, ?_⟩, hframe, ih hwaits hrest hnr⟩
    have hen := hsite.enough
    have hnext := hsite.next
    have hloc : Located m g (rel + 1) := ⟨hsite.located.mem, hsite.located.code, by omega⟩
    obtain ⟨⟨fl, hfl, -⟩, -⟩ := hloc.flowAt h.accepted
    have hlt := hfl.lt
    omega

theorem canonicalGlobals_of (hg : GlobalsHold v (M.ctx ft c) s) : CanonicalGlobals M v s := by
  intro k q hq
  refine hg k (q.1.contentType, q.2) ?_
  rw [Module.ctx, List.getElem?_map, hq]
  rfl

theorem ModuleWidths.At.canonicalState (h : Verified M m0 m) (himp : M.imports = [])
    (hat : W.At v R j js g gs ft c s) : CanonicalState M m v s := by
  obtain ⟨-, hnr⟩ := h.sig himp hat.func hat.type
  have hops : W.operands j s.pc = [] ++ W.operands j s.pc := rfl
  have hframe := (hat.funcWidths).canonicalFrame hat.func hat.type hat.code hops hat.carries.holds
  rw [← hat.carries.sp] at hframe
  obtain ⟨⟨fl, hfl, -⟩, -⟩ := hat.frame.located.flowAt h.accepted
  have hlt := hfl.lt
  have hpc := hat.frame.pc
  refine ⟨⟨j, js, ?_, ⟨g, hat.func, hpc, by omega⟩, hframe,
    hat.waits.canonical h himp hat.callers hat.frame.callers hnr⟩, canonicalGlobals_of hat.carries.globals⟩
  rw [hat.callers.length_eq]
  exact hat.frame.csp

/-- A start of `run_cpu` with canonical arguments. -/
theorem entryMach_canonical {ps : List (Parsed Payload)} (hv : M.Valid) (hinit : M.InitsValid)
    (himp : M.imports = []) (he : Encodes M ps) (hm : loadWasm ps = .ok m0)
    (hver : verifyCuop m0 = .ok m) {e : FuncMeta} (hg : m.funcs[j]? = some e) (hty : M.codeType j = some ft)
    {args : List Slot} (hlen : args.length = ft.1.length)
    (hargs : ∀ (i : Nat) t x, ft.1[i]? = some t → args[i]? = some x → Canonical t x) (fuel : Int) :
    CanonicalStart M m m.cpuViews (entryMach m e args fuel) j := by
  have h : Verified M m0 m := ⟨loadWasm_translated he hm, hv, hver⟩
  obtain ⟨hnp, -⟩ := h.sig himp hg hty
  have hstack : ∀ i, (entryMach m e args fuel).stack (m.cpuViews.stack.idx i) = args.getD i 0 := by
    intro i
    show entryStack args _ = _
    simp only [AoSView.idx, HostModule.cpuViews, Nat.zero_mul, Nat.zero_add]
    rfl
  refine ⟨⟨e, hg, entryMach_entry m e args fuel, fun i h1 _ => ?_⟩, fun ft' hty' i t ht => ?_,
    fun k q hq => ?_, ?_⟩
  · rw [hstack, List.getD_eq_getElem?_getD, List.getElem?_eq_none (by omega)]
    rfl
  · cases hty.symm.trans hty'
    have hi := (List.getElem?_eq_some_iff.mp ht).1
    have hx := List.getElem?_eq_getElem (hlen ▸ hi)
    rw [Nat.zero_add, hstack, List.getD_eq_getElem?_getD, hx]
    exact hargs i t _ ht hx
  · obtain ⟨-, fs, rfl, -⟩ := verifyCuop_accepted hver
    have hglob := loaded_canonical he hm hinit hq
    rw [← Nat.zero_add k] at hglob
    exact hglob
  · have hsize := loaded_sizeOk hm hver
    have hle := hsize.le
    have hsmall := hsize.small
    show m.memSize < 2 ^ 32
    unfold WASM_PAGE at hsmall
    omega

end Types

/-- Every integer opcode leaves the results of its operator on the low parts of any slots, canonical if
they have 32 bits, and traps where the operator does: for a zero divisor, and for the minimum divided by
`-1`. So a run of a valid module without imports, started with canonical arguments, keeps the locals,
operands, globals and results of 32 bits canonical. -/
theorem integer_slots_canonical :
    (∀ (o : NumOp) (v : Views) (d : DevModule) (i : CuOp) (s : Mach) (xs : List Slot),
      i.op = (NumOp.lower o).1 → i.a = (NumOp.lower o).2.1 → xs.length = o.type.1.1 → OnTop v s xs →
        Yields v o.type.1.1 (slots (o.apply (xs.map (operand o.type.1.2)))) s (Run.exec v d i s) ∧
        (∀ ys, slots (o.apply (xs.map (operand o.type.1.2))) = .ok ys →
          ∀ y ∈ ys, Canonical o.type.2.2 y) ∧
        (o.apply (xs.map (operand o.type.1.2)) = .error .divByZero ↔
          o.divides = true ∧ operand o.type.1.2 (xs.getD 1 0) = 0) ∧
        (o.apply (xs.map (operand o.type.1.2)) = .error .intOverflow ↔
          (o = .i32DivS ∨ o = .i64DivS) ∧
            operand o.type.1.2 (xs.getD 0 0) = 2 ^ (o.type.1.2.width - 1) ∧
            operand o.type.1.2 (xs.getD 1 0) = 2 ^ o.type.1.2.width - 1)) ∧
    ∀ (M : Module) (ps : List (Parsed Payload)) (m0 m : HostModule), M.Valid → M.InitsValid →
      M.imports = [] → Encodes M ps → loadWasm ps = .ok m0 → verifyCuop m0 = .ok m →
        (∀ (v : Views) (k : Nat) (s0 s : Mach), CanonicalStart M m v s0 k →
          Relation.ReflTransGen (Continues m v) s0 s → CanonicalState M m v s ∧
            (∀ e w, Run.step v m.dev s = .error e w → CanonicalGlobals M v w) ∧
            ∀ w ft, Run.step v m.dev s = .error .ok w → M.codeType k = some ft →
              CanonicalFrom v w 0 ft.2) ∧
        ∀ (k : Nat) (e : FuncMeta) (ft : FuncType) (args : List Slot) (fuel : Int),
          m.funcs[k]? = some e → M.codeType k = some ft → args.length = ft.1.length →
            (∀ (i : Nat) t x, ft.1[i]? = some t → args[i]? = some x → Canonical t x) →
              CanonicalStart M m m.cpuViews (entryMach m e args fuel) k := by
  constructor
  · intro o v d i s xs hop ha hlen h
    obtain ⟨hzero, hover⟩ := numOp_traps o hlen
    exact ⟨numOp_yields o hop ha hlen h, fun ys hys => numOp_canonical o hlen hys, hzero, hover⟩
  · intro M ps m0 m hv hinit himp he hm hver
    have h : Verified M m0 m := ⟨loadWasm_translated he hm, hv, hver⟩
    obtain ⟨W⟩ := h.moduleWidths himp
    constructor
    · intro v k s0 s h0 hr
      obtain ⟨g, ft, c, hat0⟩ := h0.at (W := W) h himp
      obtain ⟨j, js, g', gs, ft', c', hat⟩ := hat0.run h himp hr
      refine ⟨hat.canonicalState h himp, fun e w hw => ?_, fun w ft2 hw hty => ?_⟩
      · have hglob := hat.globals h
        rw [hw] at hglob
        exact canonicalGlobals_of hglob
      · cases hat0.type.symm.trans hty
        exact canonicalFrom_holds.mpr (hat.results h himp hw)
    · intro k e ft args fuel hg hty hlen hargs
      exact entryMach_canonical hv hinit himp he hm hver hg hty hlen hargs fuel

/-- A function that adds a global to its argument. -/
def wrapModule : Module where
  types := [[.func ([.i32], [.i32])]]
  funcs := [0]
  globals := [(⟨.i32, [.ok (.const (.i32 (-1))), .ok .end_]⟩, false)]
  code := [{ locals := [], body := .op (.localGet 0) (.op (.globalGet 0) (.op (.num .i32Add) .nil)) }]

/-- The function of `wrapModule`. -/
def wrapMeta : FuncMeta := ⟨0, 4, 1, 1, 0, 3⟩

theorem wrapModule_valid : wrapModule.Valid := by
  refine ⟨by decide, rfl, fun k ft c hty hc => ?_⟩
  match k with
  | 0 =>
    cases hc
    cases hty
    set C := wrapModule.ctx ([.i32], [.i32])
      { locals := [], body := .op (.localGet 0) (.op (.globalGet 0) (.op (.num .i32Add) .nil)) }
    have hadd : Typed C [[.i32]] true ([.i32, .i32] ++ []) (.op (.num .i32Add) .nil) [.i32] :=
      .op (.num .i32Add) .nil
    have hglob : Typed C [[.i32]] true ([] ++ [.i32]) (.op (.globalGet 0) (.op (.num .i32Add) .nil))
      [.i32] := .op (.globalGet rfl) hadd
    exact .op (.localGet rfl) hglob

theorem wrapModule_inits : wrapModule.InitsValid := by
  intro g hg
  cases List.mem_singleton.mp hg
  exact ⟨.op (.const (.i32 (-1))) .nil, rfl, .op (.const _) .nil⟩

/-- The three instructions of `wrapModule` in front of the return. -/
def wrapSteps : Option (Option (Bool × Nat)) :=
  (loadWasm wrapModule.payloads).toOption.bind fun m0 =>
    (verifyCuop m0).toOption.map fun m =>
      (stepped m (entryMach m wrapMeta [2] 10)).bind fun r => (stepped m r).bind fun s =>
        (stepped m s).map fun t => (m.funcs == [wrapMeta] && t.stack (m.cpuViews.stack.idx 1) == 1, t.sp)

/-- The sum of 2 and the global `-1` wraps around to a canonical slot. -/
theorem wrapModule_canonical : ∃ m0 m t, loadWasm wrapModule.payloads = .ok m0 ∧
    verifyCuop m0 = .ok m ∧ t.stack (m.cpuViews.stack.idx 1) = 1 ∧ t.sp = 2 ∧
    CanonicalState wrapModule m m.cpuViews t := by
  have hload : wrapSteps = some (some (true, 2)) := by decide +kernel
  obtain ⟨m0, m, hm, hver, heval⟩ := loaded_eval hload
  simp only [Option.bind_eq_some_iff, Option.map_eq_some_iff, Prod.mk.injEq, Bool.and_eq_true,
    beq_iff_eq] at heval
  obtain ⟨r, hr, s, hs, t, ht, ⟨hfuncs, htop⟩, hsp⟩ := heval
  obtain ⟨hrun, hstart⟩ := integer_slots_canonical.2 wrapModule _ m0 m wrapModule_valid
    wrapModule_inits rfl rfl hm hver
  have h0 := hstart 0 wrapMeta ([.i32], [.i32]) [2] 10 (by rw [hfuncs]; rfl) rfl rfl
    (fun i t x h1 h2 => by
      match i with
      | 0 =>
        cases h1
        cases h2
        decide)
  have hreach : Relation.ReflTransGen (Continues m m.cpuViews) (entryMach m wrapMeta [2] 10) t :=
    ((Relation.ReflTransGen.refl.tail (.step (stepped_some hr))).tail (.step (stepped_some hs))).tail
      (.step (stepped_some ht))
  exact ⟨m0, m, t, hm, hver, htop, hsp, (hrun _ 0 _ t h0 hreach).1⟩

end CuWasm
