import CuWasm.Frames

/-!
# Calls

What `OP_CALL` and `OP_CALL_INDIRECT` do to the machine that executes them, seen from the caller: the
frame they push, the arguments and zeros the callee starts with, and the state the caller finds when
the callee has returned.
-/

namespace CuWasm

section Calls

variable (v : Views)

/-- The table slot that an indirect call about to be executed in `s` selects by the low half of the
operand on top; `none` beyond the end of the table. -/
def tableSlot (m : HostModule) (s : Mach) : Option Nat :=
  m.table[(u32 (s.stack (v.stack.idx (s.sp - 1)))).toNat]?

/-- There is room for a frame of `f` whose arguments end below `top`. -/
structure HasRoom (f : FuncMeta) (s : Mach) (top : Nat) : Prop where
  depth : s.csp < FRAME_CAP
  cap : top + f.nLocals ≤ v.stack.cap
  limit : top + f.nLocals ≤ STACK_CAP

/-- A call in `s` whose arguments end below `top` has entered `f` in `w`: the new frame leads back
behind the call, the arguments have become the first locals, and zeros follow. -/
structure Enters (f : FuncMeta) (s : Mach) (top : Nat) (w : Mach) : Prop where
  pc : w.pc = f.codeOff
  fp : w.fp + f.nParams = top
  sp : w.sp = top + f.nLocals
  csp : w.csp = s.csp + 1
  frame : w.frames (v.frames.idx s.csp) = ⟨s.pc + 1, s.fp, w.fp, f.nResults⟩
  frames : ∀ k, k ≠ s.csp → w.frames (v.frames.idx k) = s.frames (v.frames.idx k)
  stack : ∀ j, j < top → w.stack (v.stack.idx j) = s.stack (v.stack.idx j)
  zeros : ∀ j, j < f.nLocals → w.stack (v.stack.idx (top + j)) = 0

/-- The instruction about to be executed in `s` is a call of `g` whose arguments end below `top`:
`OP_CALL`, or `OP_CALL_INDIRECT` with the table slot of `g` above the arguments. -/
def CallsAt (m : HostModule) (s : Mach) (g : FuncMeta) (top : Nat) : Prop :=
  ∃ i, m.code[s.pc]? = some i ∧
    ((i.op = .call ∧ m.funcs[i.b]? = some g ∧ top = s.sp) ∨
      (i.op = .callIndirect ∧ top + 1 = s.sp ∧
        Run.indirectTarget m.dev i.b (u32 (s.stack (v.stack.idx top))).toNat = some g))

/-- The call of `g` in `s`, whose first argument lay at `base`, is over in `w` behind the return
executed in `u`: the caller has its frame and its slots back, and above them the results that lay on
top of the stack in `u`. -/
structure Restores (m : HostModule) (g : FuncMeta) (s : Mach) (base : Nat) (u w : Mach) : Prop where
  returns : ∃ i, m.code[u.pc]? = some i ∧ (i.op = .ret ∨ i.op = .endFunc)
  pc : w.pc = s.pc + 1
  fp : w.fp = s.fp
  csp : w.csp = s.csp
  sp : w.sp = base + g.nResults
  enough : base + g.nResults ≤ u.sp
  results : ∀ j, j < g.nResults →
    w.stack (v.stack.idx (base + j)) = u.stack (v.stack.idx (u.sp - g.nResults + j))
  stack : ∀ j, j < base → w.stack (v.stack.idx j) = s.stack (v.stack.idx j)
  frames : ∀ k, k < s.csp → w.frames (v.frames.idx k) = s.frames (v.frames.idx k)

end Calls

end CuWasm
