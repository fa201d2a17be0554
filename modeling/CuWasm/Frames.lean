import CuWasm.Lib.Exit
import CuWasm.Verify
import Mathlib.Logic.Relation

/-!
# The frame discipline

What `verify_cuop` promises about a running machine: its program counter stands at a position with a
known height, its operand stack has exactly that height above the locals, and every suspended caller
waits behind a call whose results are still to come.

`Go` is one instruction of a run as a driver sees it, with the re-entry after an exhausted quota and
the answer to a host call. `Declared` is the condition on that answer, `StepOk` collects the
conditions on the instruction about to be executed that `verify_cuop` does not check.
-/

namespace CuWasm

/-- The position `rel` of `f` is reachable in the analysis of `f`. -/
structure Located (m : HostModule) (f : FuncMeta) (rel : Nat) : Prop where
  mem : f ∈ m.funcs
  code : 0 < f.codeLen
  known : 0 ≤ heights m f rel

/-- The number of slots of `f` below its operands. -/
def FuncMeta.locals (f : FuncMeta) : Nat := f.nParams + f.nLocals

/-- The instruction at `rel` of `g` is a call for which the analysis of `g` assumes `np` operands
taken (the table index of an indirect call among them) and `nr` results delivered. -/
structure CallSite (m : HostModule) (g : FuncMeta) (rel np nr : Nat) : Prop where
  located : Located m g rel
  enough : (np : Int) ≤ heights m g rel
  next : heights m g (rel + 1) = heights m g rel - np + nr
  instr : (∃ c, (Verify.instrAt m g rel).op = .call ∧
      m.funcs[(Verify.instrAt m g rel).b]? = some c ∧ np = c.nParams ∧ nr = c.nResults) ∨
    ∃ fpv, (Verify.instrAt m g rel).op = .callIndirect ∧
      m.typeFp[(Verify.instrAt m g rel).b]? = some fpv ∧ np = 1 + (fpv &&& 0xff) ∧
      nr = (fpv >>> 8) &&& 0xff

/-- The operands that an instruction of `f` takes off the top of the stack in `run_instance`: popped,
moved to another place, or handed to the host. -/
def taken (m : HostModule) (f : FuncMeta) (i : CuOp) : Nat :=
  match i.op with
  | .unwind => i.a
  | .brIfNot => 1
  | .call | .returnCall => (m.funcs[i.b]?.map (·.nParams)).getD 0
  | .ret | .endFunc => f.nResults
  | .callHost => i.a &&& 0xff
  | .callIndirect => 1 + (m.typeFp[i.b]?.map (· &&& 0xff)).getD 0
  | _ => ((effect i).map (·.1)).getD 0

/-- The callee that `OP_CALL_INDIRECT` finds. -/
def Run.indirectTarget (m : DevModule) (b idx : Nat) : Option FuncMeta :=
  match m.table[idx]? with
  | none => none
  | some fi =>
    if fi = TABLE_NULL then none
    else
      match m.funcs[fi]?, m.typeFp[b]?, m.funcTypeidx[fi]? with
      | some f, some want, some tidx => if m.typeFp[tidx]? = some want then some f else none
      | _, _, _ => none

section Frames

variable (v : Views) (m : HostModule)

/-- The suspended callers `gs`, innermost first, of an activation of `f` with frame base `fp`. -/
def Callers (frames : Nat → Frame) : List FuncMeta → FuncMeta → Nat → Prop
  | [], f, fp =>
    (frames (v.frames.idx 0)).spBase = fp ∧ (frames (v.frames.idx 0)).nResults = f.nResults
  | g :: gs, f, fp =>
    let fr := frames (v.frames.idx (gs.length + 1))
    fr.spBase = fp ∧ fr.nResults = f.nResults ∧
      (∃ rel np, fr.retPc = g.codeOff + rel + 1 ∧ CallSite m g rel np f.nResults ∧
        (fp : Int) = fr.fp + g.locals + heights m g rel - np) ∧
      Callers frames gs g fr.fp

/-- The machine about to fetch an instruction of `f`, with the suspended callers `gs`. -/
structure FrameInv (f : FuncMeta) (gs : List FuncMeta) (s : Mach) : Prop where
  pc : f.codeOff ≤ s.pc
  located : Located m f (s.pc - f.codeOff)
  sp : (s.sp : Int) = s.fp + f.locals + heights m f (s.pc - f.codeOff)
  csp : s.csp = gs.length + 1
  callers : Callers v m s.frames gs f s.fp
  small : s.sp < 2 ^ 31

/-- Conditions on the next instruction that `verify_cuop` leaves open: the operands `OP_UNWIND` keeps
fit above the frame base (or stay where they are, or one of its own tests stops it), a callee has
code, a tail callee returns as many results as the current frame promises its caller, and the callee
of an indirect call has the signature of the fingerprint. -/
def StepOk (s : Mach) : Prop :=
  ∀ i, m.code[s.pc]? = some i →
    match i.op with
    | .unwind => i.a ≤ i.b % 2 ^ 32 ∨ s.sp = (s.fp + i.b) % 2 ^ 32 ∨
        (s.fp + i.b) % 2 ^ 32 < i.a ∨ STACK_CAP < (s.fp + i.b) % 2 ^ 32
    | .call => ∀ g, m.funcs[i.b]? = some g → 0 < g.codeLen
    | .returnCall => ∀ g, m.funcs[i.b]? = some g →
        0 < g.codeLen ∧
          (1 < s.csp → g.nResults = (s.frames (v.frames.idx (s.csp - 1))).nResults)
    | .callIndirect => ∀ g fpv,
        Run.indirectTarget m.dev i.b (u32 (s.stack (v.stack.idx (s.sp - 1)))).toNat = some g →
        m.typeFp[i.b]? = some fpv →
        0 < g.codeLen ∧ g.nParams = fpv &&& 0xff ∧ g.nResults = (fpv >>> 8) &&& 0xff
    | _ => True

/-- The machine `s'` continues `s` after a re-entry or after `n` host results have been pushed; the
host may have changed the guest memory. -/
structure Resumes (n : Nat) (s s' : Mach) : Prop where
  pc : s'.pc = s.pc
  fp : s'.fp = s.fp
  csp : s'.csp = s.csp
  frames : s'.frames = s.frames
  sp : s'.sp = s.sp + n
  fits : n = 0 ∨ s'.sp ≤ STACK_CAP
  stack : ∀ j, j < s.sp → s'.stack (v.stack.idx j) = s.stack (v.stack.idx j)

/-- The answer of `n` results to the host call that the machine is suspended in has as many as the call
declares. -/
def Declared (t : Mach) (n : Nat) : Prop := n = t.hostNResults

/-- One step of a run under a driver. The drivers push whatever number of results the host leaves;
`reply` says which numbers it may leave. -/
inductive Go (reply : Mach → Nat → Prop) : Mach → Mach → Prop where
  | step {s s' : Mach} (h : Run.step v m.dev s = .ok () s') : Go reply s s'
  | reenter {s s' : Mach} (h : Resumes v 0 s s') : Go reply s s'
  | host {s t s' : Mach} {n : Nat} (h : Run.step v m.dev s = .error .hostcallPending t)
      (hn : reply t n) (h' : Resumes v n t s') : Go reply s s'

/-- A step from a state that satisfies `C`. A host call is answered with the declared number of
results. -/
def GoWhen (C : Mach → Prop) (s s' : Mach) : Prop := C s ∧ Go v m Declared s s'

/-- A run under a driver whose every step starts in a state that satisfies `C`, and whose host calls
are all answered with the declared number of results. -/
def Runs (C : Mach → Prop) : Mach → Mach → Prop := Relation.ReflTransGen (GoWhen v m C)

/-- The machine at the entry of `f`. -/
structure Entry (f : FuncMeta) (s : Mach) : Prop where
  pc : s.pc = f.codeOff
  sp : s.sp = f.locals
  fp : s.fp = 0
  csp : s.csp = 1
  frame : s.frames (v.frames.idx 0) = ⟨0, 0, 0, f.nResults⟩

/-- The machine about to fetch an instruction of `f`: its stack pointer, the operands the instruction
takes, the local it accesses, the bound of the frame, and the suspended callers `gs`, innermost
first. -/
structure Balanced (f : FuncMeta) (gs : List FuncMeta) (s : Mach) : Prop where
  sp : (s.sp : Int) = s.fp + f.nParams + f.nLocals + heights m f (s.pc - f.codeOff)
  pops : ∀ i, m.code[s.pc]? = some i → s.fp + f.nParams + f.nLocals + taken m f i ≤ s.sp
  locals : ∀ i k, m.code[s.pc]? = some i → localOf i = some k →
    s.fp ≤ s.fp + k ∧ s.fp + k + taken m f i < s.sp
  maxStack : s.sp ≤ s.fp + f.maxStack
  depth : s.csp = gs.length + 1
  callers : ∀ (k : Nat) g, gs[k]? = some g → ∃ rel np,
    (s.frames (v.frames.idx (gs.length - k))).retPc = g.codeOff + rel + 1 ∧
      CallSite m g rel np (s.frames (v.frames.idx (gs.length - k))).nResults

/-- The caller's view of a finished call from `s` that entered the callee in `t` and came back in
`w`: the slots below the arguments are as before and the results are as many as the analysis of the
caller assumed. -/
structure Returned (s t w : Mach) : Prop where
  pc : w.pc = s.pc + 1
  fp : w.fp = s.fp
  stack : ∀ j, j < t.fp → w.stack (v.stack.idx j) = s.stack (v.stack.idx j)
  results : ∃ g np nr, g.codeOff ≤ s.pc ∧ CallSite m g (s.pc - g.codeOff) np nr ∧
    t.fp + np = s.sp ∧ w.sp = t.fp + nr

/-- In the runs from `s0` whose steps start in states satisfying `C`, no activation accesses a stack
slot below its frame base, and every call that returns leaves its caller's slots alone and delivers
the expected results. -/
structure FrameSafe (C : Mach → Prop) (s0 : Mach) : Prop where
  above : ∀ s, Runs v m C s0 s → C s →
    ∀ a ∈ (Exit.final (Run.step v m.dev s)).log, a.region = .stack → v.stack.idx s.fp ≤ a.start
  returns : ∀ s t u w, Runs v m C s0 s → C s → Run.step v m.dev s = .ok () t →
    t.csp = s.csp + 1 →
    Relation.ReflTransGen (fun x y => GoWhen v m C x y ∧ s.csp < y.csp) t u →
    C u → Run.step v m.dev u = .ok () w → w.csp = s.csp → Returned v m s t w

end Frames

end CuWasm
