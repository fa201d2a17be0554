import CuWasm.Dispatch
import CuWasm.Lib.Exit

/-!
# Relative handles over a run

A guest keeps the handles it was given, so a handle has to mean the same object ever after, whatever
happens to the context in between: further handles, host calls that succeed or fail, and guest code
that writes to its memory.
-/

namespace CuWasm.Dispatch

variable {H : Type} (S : Soroban H)

/-- What can happen to a context. A guest may also have grown its memory. -/
inductive CtxStep : DispatchCtx H → DispatchCtx H → Prop where
  | relative (ctx : DispatchCtx H) (x : Slot) : CtxStep ctx (Exit.final (toRelative S x ctx))
  | dispatch (ctx : DispatchCtx H) (mb : HostMailbox) :
      CtxStep ctx (Exit.final (Dispatch.dispatch S mb ctx))
  | guest (ctx : DispatchCtx H) (mem : Nat → Byte) (memSize : Nat) :
      CtxStep ctx { ctx with mem := mem, memSize := memSize }

/-- The context `later` has come out of `ctx`. -/
def Later : DispatchCtx H → DispatchCtx H → Prop := Relation.ReflTransGen (CtxStep S)

/-- Asked for a handle for `x`, the context reports an error or gives one that means `x` ever after. -/
def RoundTrips (ctx : DispatchCtx H) (x : Slot) : Prop :=
  (∃ e ctx', toRelative S x ctx = .error e ctx') ∨
    ∃ r ctx', toRelative S x ctx = .ok r ctx' ∧
      ∀ later, Later S ctx' later → toAbsolute S later r = .ok x

end CuWasm.Dispatch
