import CuWasm.Dispatch

/-!
# Sessions of host calls

A contract test answers the host calls of a guest one after the other, with one `DispatchCtx`. This
module states what the traces in the context should say about the calls that were answered.
-/

namespace CuWasm.Dispatch

variable {H : Type} (S : Soroban H)

/-- A call of `dispatch`. The guest has written to its memory since the call before, and the test may
have changed the host and the table of handles. -/
structure Call (H : Type) where
  mb : HostMailbox
  host : H
  mem : Nat → Byte
  memSize : Nat
  relativeObjects : List Slot

/-- The context in which the call is answered. -/
def Call.enter (c : Call H) (ctx : DispatchCtx H) : DispatchCtx H :=
  { ctx with
    host := c.host, mem := c.mem, memSize := c.memSize, relativeObjects := c.relativeObjects }

/-- A test at work: the calls that `dispatch` has answered with `Ok`, with the mailbox before and after
each, and whether it has panicked. -/
structure Session (H : Type) where
  ctx : DispatchCtx H
  answered : List (HostMailbox × HostMailbox) := []
  panicked : Bool := false

/-- The context of a new test. -/
def Session.new (host : H) (mem : Nat → Byte) (memSize : Nat) : Session H where
  ctx := { host := host, mem := mem, memSize := memSize }

/-- One call. `record_trace` slices the 16 arguments of the mailbox at `n_args`, and so panics when
there are more. -/
def Session.call (s : Session H) (c : Call H) : Session H :=
  if s.panicked then s
  else match dispatch S c.mb (c.enter s.ctx) with
    | .error _ ctx => { s with ctx := ctx }
    | .ok mb ctx =>
      if 16 < c.mb.nArgs ∧ s.ctx.traces.length < ctx.traces.length then
        { s with panicked := true }
      else { s with ctx := ctx, answered := s.answered ++ [(c.mb, mb)] }

/-- A sequence of calls. -/
def Session.run (s : Session H) (calls : List (Call H)) : Session H :=
  calls.foldl (Session.call S) s

/-- The trace of the `i`-th call that was answered, which turned the mailbox `mb` into `mb'`. -/
structure TraceOf (i : Nat) (mb mb' : HostMailbox) (t : HostCallTrace) : Prop where
  seq : t.seq = i
  fnId : t.fnId = mb.fnId
  nArgs : t.nArgs = mb.nArgs
  rawArgs : t.rawArgs = (List.range mb.nArgs).map mb.args
  rawResult : t.rawResult = mb'.results 0

/-- There is one trace for every call that was answered, in order. -/
structure Recorded (s : Session H) : Prop where
  length : s.ctx.traces.length = s.answered.length
  entry : ∀ i mb mb', s.answered[i]? = some (mb, mb') →
    ∃ t, s.ctx.traces[i]? = some t ∧ TraceOf i mb mb' t

/-- There is room for the values at `pos` of the guest memory, and in the table of handles. -/
def Fits (ctx : DispatchCtx H) (pos : Nat) (vals : List Slot) : Prop :=
  pos + vals.length * 8 ≤ ctx.memSize ∧
    ∀ k, k < vals.countP (isObjectVal S) → ctx.relativeObjects.length + k < 2 ^ 32

/-- The call unpacks a map: its arguments decode, the host knows the keys, and there is room for the
values. -/
def Unpacks (ctx : DispatchCtx H) (mb : HostMailbox) : Prop :=
  nameOf mb.fnId = some "map_unpack_to_linear_memory" ∧
  ∃ map keysPos valsPos len keys vals h,
    decodeVal S ctx (mb.args 0) = .ok map ∧ sorobanTag map = SOROBAN_TAG_MAP_OBJECT ∧
    decodeU32 S (mb.args 1) = .ok keysPos ∧ decodeU32 S (mb.args 2) = .ok valsPos ∧
    decodeU32 S (mb.args 3) = .ok len ∧ readSymbolKeys S ctx keysPos len = .ok keys ∧
    S.mapUnpackToSlice ctx.host map keys len = .ok (vals, h) ∧ Fits S ctx valsPos vals

/-- The state of the test before the call `calls[i]`, with that call, if the test gets there. -/
def Reaches (s : Session H) (calls : List (Call H)) (ctx : DispatchCtx H) (mb : HostMailbox) : Prop :=
  ∃ pre c post, calls = pre ++ c :: post ∧ (s.run S pre).panicked = false ∧
    c.enter (s.run S pre).ctx = ctx ∧ c.mb = mb

end CuWasm.Dispatch
