import CuWasm.Proofs.DispatchProofs
import CuWasm.Proofs.HandleProofs
import CuWasm.Recording

/-!
# Traces of host calls

Nothing but `record_trace` touches the traces, and `dispatch` gets there on every way to `Ok` but one:
the arm of `map_unpack_to_linear_memory` returns by itself.
-/

namespace CuWasm.Dispatch

open Exit

variable {H : Type} {S : Soroban H}

/-! ## Computations that leave the traces alone -/

section Keeps

theorem keeps_ofExcept {α : Type} (x : Except String α) :
    Keeps DispatchCtx.traces (ofExcept x : Method H α) := by
  cases x with
  | ok a => exact Keeps.pure a
  | error e => exact Keeps.throw e

theorem keeps_ask {α : Type} (name : String) (f : H → Except String (α × H)) :
    Keeps DispatchCtx.traces (ask name f) := by
  refine Keeps.get.bind fun ctx => ?_
  cases f ctx.host with
  | ok r =>
    refine Keeps.bind (Keeps.modify ?_) fun _ => Keeps.pure _
    exact fun _ => rfl
  | error e => exact Keeps.throw _

theorem keeps_tell (name : String) (f : H → Except String H) :
    Keeps DispatchCtx.traces (tell name f) := keeps_ask name _

theorem keeps_decode (raw : Slot) : Keeps DispatchCtx.traces (decode S raw) :=
  Keeps.get.bind fun _ => keeps_ofExcept _

theorem keeps_expectTag (tag : Byte) (text : String) (x : Slot) :
    Keeps DispatchCtx.traces (expectTag tag text x : Method H Slot) :=
  Keeps.ite (Keeps.pure x) (Keeps.throw text)

theorem keeps_toRelative (x : Slot) : Keeps DispatchCtx.traces (toRelative S x) := by
  refine Keeps.ite (c := isObjectVal S x = true) ?_ (Keeps.pure x)
  refine Keeps.get.bind fun ctx => Keeps.bind (Keeps.modify ?_) fun _ => ?_
  · exact fun _ => rfl
  · exact (keeps_ofExcept _).bind fun _ => Keeps.pure _

theorem keeps_writeValsFrom (pos : Nat) (xs : List Slot) :
    ∀ i, Keeps DispatchCtx.traces (writeValsFrom S pos i xs) := by
  induction xs with
  | nil => exact fun _ => Keeps.pure _
  | cons x xs ih =>
    intro i
    refine (keeps_toRelative x).bind fun _ => Keeps.bind (Keeps.modify ?_) fun _ => ih (i + 1)
    exact fun _ => rfl

theorem keeps_writeVals (pos : Nat) (xs : List Slot) :
    Keeps DispatchCtx.traces (writeVals S pos xs) := by
  refine Keeps.get.bind fun ctx => Keeps.ite ?_ (keeps_writeValsFrom pos xs 0)
  exact (Keeps.throw _).bind fun _ => keeps_writeValsFrom pos xs 0

theorem keeps_finish (mb : HostMailbox) (res : Option Slot) :
    Keeps DispatchCtx.traces (finish S mb res) := by
  cases res with
  | none => exact Keeps.pure _
  | some x =>
    refine Keeps.ite (c := isObjectVal S x = true) ?_ (Keeps.pure _)
    exact (keeps_toRelative x).bind fun _ => Keeps.pure _

theorem keeps_arm (mb : HostMailbox) (name : String) :
    Keeps DispatchCtx.traces (arm S mb name) := by
  unfold arm
  split
  all_goals
    repeat' with_reducible first
      | refine Keeps.bind ?_ fun _ => ?_
      | exact keeps_ofExcept _
      | exact keeps_ask _ _
      | exact keeps_tell _ _
      | exact keeps_decode _
      | exact keeps_expectTag _ _ _
      | exact keeps_writeVals _ _
      | exact keeps_finish _ _
      | exact Keeps.get
      | exact Keeps.pure _
      | exact Keeps.throw _

theorem keeps_describeVal (raw : Slot) : Keeps DispatchCtx.traces (describeVal S raw) := by
  refine Keeps.modify fun ctx => ?_
  cases decodeVal S ctx raw <;> rfl

theorem keeps_describeVals (raws : List Slot) :
    Keeps DispatchCtx.traces (raws.forM (describeVal S)) := by
  induction raws with
  | nil => exact Keeps.pure _
  | cons raw raws ih => exact (keeps_describeVal raw).bind fun _ => ih

end Keeps

/-! ## Recording -/

/-- What `record_trace` appends. -/
theorem recordTrace_ok (mb : HostMailbox) (name : String) (ctx : DispatchCtx H) :
    ∃ ctx' elems, recordTrace S mb name ctx = .ok () ctx' ∧
      ctx'.traces = ctx.traces ++ [{
        seq := ctx.traces.length % 2 ^ 32, fnId := mb.fnId, name := name, nArgs := mb.nArgs
        rawArgs := (List.range mb.nArgs).map mb.args, rawResult := mb.results 0
        vecElemRaw := elems }] := by
  have hdescribe : ∀ (raws : List Slot) (ctx : DispatchCtx H),
      ∃ ctx', raws.forM (describeVal S) ctx = .ok ⟨⟩ ctx' := by
    intro raws
    induction raws with
    | nil => exact fun ctx => ⟨ctx, rfl⟩
    | cons raw raws ih => exact fun ctx => ih _
  obtain ⟨ctx1, h1⟩ := hdescribe (describedVals mb name) ctx
  have htraces : ctx1.traces = ctx.traces := (keeps_describeVals _).ok h1
  unfold recordTrace
  rw [bind_ok (get_apply ctx), bind_ok h1]
  refine ⟨_, vecElemRaw S ctx mb name, rfl, ?_⟩
  simp only [htraces]

/-- `finish` writes a result and leaves the request as it is. -/
theorem finish_request {mb mb' : HostMailbox} {res : Option Slot} {ctx ctx' : DispatchCtx H}
    (h : finish S mb res ctx = .ok mb' ctx') :
    mb'.fnId = mb.fnId ∧ mb'.nArgs = mb.nArgs ∧ mb'.args = mb.args := by
  cases res with
  | none =>
    cases h
    exact ⟨rfl, rfl, rfl⟩
  | some x =>
    unfold finish at h
    dsimp only at h
    split_ifs at h
    · obtain ⟨out, t, -, h⟩ := bind_eq_ok h
      cases h
      exact ⟨rfl, rfl, rfl⟩
    · cases h
      exact ⟨rfl, rfl, rfl⟩

/-- The ways a `match` arm can go on. -/
inductive Goes (mb : HostMailbox) (name : String) : Arm → Prop where
  | result (h : name ≠ "map_unpack_to_linear_memory") (res : Option Slot) : Goes mb name (.result res)
  | raw (h : name ≠ "map_unpack_to_linear_memory") (raw : Slot) :
    Goes mb name (.done (finishRaw mb raw) true)
  | unpacked (mb' : HostMailbox) (h : name = "map_unpack_to_linear_memory") :
    Goes mb name (.done mb' false)

theorem spec_any {α : Type} (x : Method H α) :
    Spec (fun _ => True) x (fun _ _ => True) fun _ _ => True :=
  fun _ _ => ⟨fun _ _ _ => trivial, fun _ _ _ => trivial⟩

/-- Only one arm returns by itself. -/
theorem arm_goes_on (mb : HostMailbox) {name : String} (hname : name ≠ "map_unpack_to_linear_memory") :
    Spec (fun _ => True) (arm S mb name) (fun a _ => Goes mb name a) fun _ _ => True := by
  unfold arm
  split
  all_goals
    repeat' with_reducible first
      | refine Spec.bind (spec_any _) fun _ => ?_
      | exact Spec.throw fun _ _ => trivial
      | exact Spec.pure fun _ _ => Goes.result hname _
      | exact Spec.pure fun _ _ => Goes.raw hname _
      | exact absurd rfl hname

theorem arm_goes (mb : HostMailbox) (name : String) :
    Spec (fun _ => True) (arm S mb name) (fun a _ => Goes mb name a) fun _ _ => True := by
  by_cases hname : name = "map_unpack_to_linear_memory"
  · subst hname
    show Spec _ (decode S (mb.args 0) >>= _) _ _
    repeat refine Spec.bind (spec_any _) fun _ => ?_
    exact Spec.pure fun _ _ => .unpacked _ rfl
  · exact arm_goes_on mb hname

/-! ## Unpacking a map -/

theorem ofExcept_eq_ok {α : Type} {x : Except String α} {ctx ctx' : DispatchCtx H} {a : α} :
    (ofExcept x : Method H α) ctx = .ok a ctx' ↔ x = .ok a ∧ ctx = ctx' := by
  cases x with
  | ok b =>
    constructor
    · intro h
      cases h
      exact ⟨rfl, rfl⟩
    · rintro ⟨h, rfl⟩
      cases h
      rfl
  | error e => exact ⟨fun h => (nomatch h), fun h => (nomatch h.1)⟩

theorem decode_eq_ok {raw x : Slot} {ctx ctx' : DispatchCtx H} :
    decode S raw ctx = .ok x ctx' ↔ decodeVal S ctx raw = .ok x ∧ ctx = ctx' := by
  unfold decode
  rw [bind_ok (get_apply ctx)]
  exact ofExcept_eq_ok

theorem ask_eq_ok {α : Type} {name : String} {f : H → Except String (α × H)}
    {ctx ctx' : DispatchCtx H} {a : α} :
    ask name f ctx = .ok a ctx' ↔ ∃ h, f ctx.host = .ok (a, h) ∧ ctx' = { ctx with host := h } := by
  unfold ask
  rw [bind_ok (get_apply ctx)]
  cases f ctx.host with
  | ok r =>
    obtain ⟨b, h⟩ := r
    constructor
    · intro hok
      cases hok
      exact ⟨h, rfl, rfl⟩
    · rintro ⟨h', heq, rfl⟩
      cases heq
      rfl
  | error e => exact ⟨fun h => (nomatch h), fun ⟨_, h, _⟩ => (nomatch h)⟩

theorem expectTag_eq_ok {tag : Byte} {text : String} {x y : Slot} {ctx ctx' : DispatchCtx H} :
    (expectTag tag text x : Method H Slot) ctx = .ok y ctx' ↔
      (y = x ∧ sorobanTag x = tag) ∧ ctx = ctx' := by
  unfold expectTag
  rw [ite_run]
  by_cases htag : sorobanTag x = tag
  · rw [if_pos htag]
    constructor
    · intro h
      cases h
      exact ⟨⟨rfl, htag⟩, rfl⟩
    · rintro ⟨⟨rfl, -⟩, rfl⟩
      rfl
  · rw [if_neg htag]
    exact ⟨fun h => (nomatch h), fun h => absurd h.1.2 htag⟩

/-- The loop of `write_vals` returns if every object gets an index. -/
theorem writeValsFrom_returns {pos : Nat} (xs : List Slot) :
    ∀ i (ctx : DispatchCtx H), (∃ ctx', writeValsFrom S pos i xs ctx = .ok () ctx') ↔
      ∀ k, k < xs.countP (isObjectVal S) → ctx.relativeObjects.length + k < 2 ^ 32 := by
  induction xs with
  | nil => exact fun i ctx => ⟨fun _ k hk => (nomatch hk), fun _ => ⟨ctx, rfl⟩⟩
  | cons x xs ih =>
    intro i ctx
    unfold writeValsFrom
    rw [bind_apply, toRelative_apply]
    by_cases hobj : isObjectVal S x = true
    · rw [if_pos hobj, List.countP_cons_of_pos hobj]
      by_cases hroom : ctx.relativeObjects.length < 2 ^ 32
      · rw [if_pos hroom]
        refine (ih (i + 1) _).trans ?_
        simp only [List.length_append, List.length_singleton]
        constructor
        · intro h k hk
          cases k with
          | zero => exact hroom
          | succ k =>
            have := h k (Nat.lt_of_succ_lt_succ hk)
            omega
        · intro h k hk
          have := h (k + 1) (Nat.succ_lt_succ hk)
          omega
      · rw [if_neg hroom]
        constructor
        · rintro ⟨ctx', h⟩
          cases h
        · intro h
          exact absurd (h 0 (Nat.succ_pos _)) hroom
    · rw [if_neg hobj, List.countP_cons_of_neg hobj]
      exact ih (i + 1) _

theorem writeVals_returns {pos : Nat} {xs : List Slot} {ctx : DispatchCtx H} :
    (∃ ctx', writeVals S pos xs ctx = .ok () ctx') ↔ Fits S ctx pos xs := by
  unfold writeVals Fits
  rw [bind_ok (get_apply ctx), ← writeValsFrom_returns xs 0 ctx]
  by_cases hout : pos + xs.length * 8 > ctx.memSize
  · rw [if_pos hout]
    constructor
    · rintro ⟨ctx', h⟩
      cases h
    · rintro ⟨h, -⟩
      omega
  · rw [if_neg hout]
    exact ⟨fun h => ⟨Nat.le_of_not_gt hout, h⟩, fun h => h.2⟩

/-- The arm of `map_unpack_to_linear_memory` returns by itself, just when the call unpacks a map. -/
theorem unpack_arm {mb : HostMailbox} {ctx : DispatchCtx H}
    (hname : nameOf mb.fnId = some "map_unpack_to_linear_memory") :
    (∃ a ctx', arm S mb "map_unpack_to_linear_memory" ctx = .ok a ctx') ↔ Unpacks S ctx mb := by
  constructor
  · rintro ⟨a, ctx', h⟩
    change (decode S (mb.args 0) >>= _) ctx = _ at h
    obtain ⟨x, t, hrun, h⟩ := bind_eq_ok h
    obtain ⟨hx, rfl⟩ := decode_eq_ok.mp hrun
    obtain ⟨map, t, hrun, h⟩ := bind_eq_ok h
    obtain ⟨⟨rfl, htag⟩, rfl⟩ := expectTag_eq_ok.mp hrun
    obtain ⟨keysPos, t, hrun, h⟩ := bind_eq_ok h
    obtain ⟨hkeysPos, rfl⟩ := ofExcept_eq_ok.mp hrun
    obtain ⟨valsPos, t, hrun, h⟩ := bind_eq_ok h
    obtain ⟨hvalsPos, rfl⟩ := ofExcept_eq_ok.mp hrun
    obtain ⟨len, t, hrun, h⟩ := bind_eq_ok h
    obtain ⟨hlen, rfl⟩ := ofExcept_eq_ok.mp hrun
    obtain ⟨c, t, hget, h⟩ := bind_eq_ok h
    cases hget
    obtain ⟨keys, t, hrun, h⟩ := bind_eq_ok h
    obtain ⟨hkeys, rfl⟩ := ofExcept_eq_ok.mp hrun
    obtain ⟨vals, t, hrun, h⟩ := bind_eq_ok h
    obtain ⟨host, hvals, rfl⟩ := ask_eq_ok.mp hrun
    obtain ⟨u, t, hwrite, -⟩ := bind_eq_ok h
    have hfits : Fits S { ctx with host := host } valsPos vals := writeVals_returns.mp ⟨t, hwrite⟩
    exact ⟨hname, map, keysPos, valsPos, len, keys, vals, host, hx, htag, hkeysPos, hvalsPos, hlen,
      hkeys, hvals, hfits⟩
  · rintro ⟨-, map, keysPos, valsPos, len, keys, vals, host, hx, htag, hkeysPos, hvalsPos, hlen, hkeys,
      hvals, hfits⟩
    have hfits' : Fits S { ctx with host := host } valsPos vals := hfits
    obtain ⟨t, hwrite⟩ := writeVals_returns.mpr hfits'
    refine ⟨.done { mb with nResults := 1, results := Function.update mb.results 0 SOROBAN_VOID } false,
      t, ?_⟩
    show (decode S (mb.args 0) >>= _) ctx = _
    rw [bind_ok (decode_eq_ok.mpr ⟨hx, rfl⟩), bind_ok (expectTag_eq_ok.mpr ⟨⟨rfl, htag⟩, rfl⟩),
      bind_ok (ofExcept_eq_ok.mpr ⟨hkeysPos, rfl⟩), bind_ok (ofExcept_eq_ok.mpr ⟨hvalsPos, rfl⟩),
      bind_ok (ofExcept_eq_ok.mpr ⟨hlen, rfl⟩), bind_ok (get_apply ctx),
      bind_ok (ofExcept_eq_ok.mpr ⟨hkeys, rfl⟩), bind_ok (ask_eq_ok.mpr ⟨host, hvals, rfl⟩),
      bind_ok hwrite]
    rfl

/-! ## Calls -/

/-- What `dispatch` does behind the `match`. -/
def conclude (S : Soroban H) (name : String) (mb : HostMailbox) : Arm → Method H HostMailbox
  | .done mb recorded => do
    if recorded then recordTrace S mb name
    return mb
  | .result res => do
    let mb ← finish S mb res
    recordTrace S mb name
    return mb

theorem dispatch_apply (mb : HostMailbox) (ctx : DispatchCtx H) :
    dispatch S mb ctx = (arm S mb ((nameOf mb.fnId).getD "?") >>=
      conclude S ((nameOf mb.fnId).getD "?") mb)
        { ctx with hostCalls := ctx.hostCalls ++ [((nameOf mb.fnId).getD "?", mb.nArgs)] } := by
  unfold dispatch
  rw [bind_ok (modify_apply _ ctx)]
  rfl

/-- The trace of a call that was answered with `mb'`. -/
theorem record_ok {mb mb' : HostMailbox} (name : String) (ctx : DispatchCtx H)
    (h : mb'.fnId = mb.fnId ∧ mb'.nArgs = mb.nArgs ∧ mb'.args = mb.args) :
    ∃ ctx', recordTrace S mb' name ctx = .ok () ctx' ∧ ∃ t, ctx'.traces = ctx.traces ++ [t] ∧
      TraceOf (ctx.traces.length % 2 ^ 32) mb mb' t := by
  obtain ⟨ctx', elems, hok, htraces⟩ := recordTrace_ok (S := S) mb' name ctx
  obtain ⟨hfn, hn, hargs⟩ := h
  refine ⟨ctx', hok, _, htraces, rfl, hfn, hn, ?_, rfl⟩
  rw [hn, hargs]

/-- Behind the `match`, a call fails without a trace, or it succeeds and records one, unless the arm has
returned by itself. -/
theorem conclude_cases {name : String} {mb : HostMailbox} {a : Arm} (ha : Goes mb name a)
    (ctx : DispatchCtx H) :
    (∃ e ctx', conclude S name mb a ctx = .error e ctx' ∧ ctx'.traces = ctx.traces) ∨
    (∃ mb' ctx', conclude S name mb a ctx = .ok mb' ctx' ∧
      ((name ≠ "map_unpack_to_linear_memory" ∧ ∃ t, ctx'.traces = ctx.traces ++ [t] ∧
          TraceOf (ctx.traces.length % 2 ^ 32) mb mb' t) ∨
        (name = "map_unpack_to_linear_memory" ∧ ctx'.traces = ctx.traces))) := by
  cases ha with
  | result hname res =>
    have hkeep := keeps_finish (S := S) mb res ctx
    cases hfin : finish S mb res ctx with
    | error e ctx1 =>
      rw [hfin] at hkeep
      exact .inl ⟨e, ctx1, bind_error hfin, hkeep⟩
    | ok mb' ctx1 =>
      rw [hfin] at hkeep
      obtain ⟨ctx', hrec, t, htraces, ht⟩ := record_ok (S := S) name ctx1 (finish_request hfin)
      have hlen : ctx1.traces = ctx.traces := hkeep
      rw [hlen] at htraces ht
      refine .inr ⟨mb', ctx', ?_, .inl ⟨hname, t, htraces, ht⟩⟩
      show (finish S mb res >>= _) ctx = _
      rw [bind_ok hfin, bind_ok hrec]
      rfl
  | raw hname raw =>
    have hrequest : (finishRaw mb raw).fnId = mb.fnId ∧ (finishRaw mb raw).nArgs = mb.nArgs ∧
        (finishRaw mb raw).args = mb.args := ⟨rfl, rfl, rfl⟩
    obtain ⟨ctx', hrec, t, htraces, ht⟩ := record_ok (S := S) name ctx hrequest
    refine .inr ⟨finishRaw mb raw, ctx', ?_, .inl ⟨hname, t, htraces, ht⟩⟩
    show (recordTrace S (finishRaw mb raw) name >>= _) ctx = _
    rw [bind_ok hrec]
    rfl
  | unpacked mb' hname => exact .inr ⟨mb', ctx, rfl, .inr ⟨hname, rfl⟩⟩

theorem getD_eq_unpack {name : Option String} :
    name.getD "?" = "map_unpack_to_linear_memory" ↔ name = some "map_unpack_to_linear_memory" := by
  cases name with
  | none => decide
  | some name => exact (Option.some_inj).symm

/-- What a call does to the traces. -/
theorem dispatch_cases (S : Soroban H) (mb : HostMailbox) (ctx : DispatchCtx H) :
    (∃ e ctx', dispatch S mb ctx = .error e ctx' ∧ ctx'.traces = ctx.traces ∧ ¬ Unpacks S ctx mb) ∨
    (∃ mb' ctx', dispatch S mb ctx = .ok mb' ctx' ∧
      ((¬ Unpacks S ctx mb ∧ ∃ t, ctx'.traces = ctx.traces ++ [t] ∧
          TraceOf (ctx.traces.length % 2 ^ 32) mb mb' t) ∨
        (Unpacks S ctx mb ∧ ctx'.traces = ctx.traces))) := by
  rw [dispatch_apply]
  generalize hnoted : ({ ctx with
    hostCalls := ctx.hostCalls ++ [((nameOf mb.fnId).getD "?", mb.nArgs)] } : DispatchCtx H) = noted
  have htraces : noted.traces = ctx.traces := by rw [← hnoted]
  have hunpacks : Unpacks S noted mb ↔ Unpacks S ctx mb := by rw [← hnoted]; exact Iff.rfl
  rw [← htraces, ← hunpacks]
  have hkeep := keeps_arm (S := S) mb ((nameOf mb.fnId).getD "?") noted
  cases harm : arm S mb ((nameOf mb.fnId).getD "?") noted with
  | error e ctx1 =>
    rw [harm] at hkeep
    refine .inl ⟨e, ctx1, bind_error harm, hkeep, fun hun => ?_⟩
    have hname := getD_eq_unpack.mpr hun.1
    obtain ⟨a, ctx2, hok⟩ := (unpack_arm hun.1).mpr hun
    rw [← hname, harm] at hok
    cases hok
  | ok a ctx1 =>
    rw [harm] at hkeep
    have hkeep' : ctx1.traces = noted.traces := hkeep
    have hgoes := (arm_goes (S := S) mb _ noted trivial).1 a ctx1 harm
    have hun : Unpacks S noted mb ↔ (nameOf mb.fnId).getD "?" = "map_unpack_to_linear_memory" := by
      refine ⟨fun h => getD_eq_unpack.mpr h.1, fun h => ?_⟩
      refine (unpack_arm (getD_eq_unpack.mp h)).mp ⟨a, ctx1, ?_⟩
      rw [← h]
      exact harm
    rw [bind_ok harm, hun, ← hkeep']
    rcases conclude_cases (S := S) hgoes ctx1 with ⟨e, ctx', herr, hsame⟩ | ⟨mb', ctx', hok, h⟩
    · refine .inl ⟨e, ctx', herr, hsame, fun hname => ?_⟩
      cases hgoes with
      | result h _ => exact h hname
      | raw h _ => exact h hname
      | unpacked mb' _ => cases herr
    · exact .inr ⟨mb', ctx', hok, h⟩

/-! ## Sessions -/

section Sessions

variable {s : Session H}

theorem run_append (xs ys : List (Call H)) : s.run S (xs ++ ys) = (s.run S xs).run S ys :=
  List.foldl_append

/-- A call leaves the session behind a panic as it is. -/
theorem run_panicked (h : s.panicked = true) (calls : List (Call H)) : s.run S calls = s := by
  induction calls with
  | nil => rfl
  | cons c calls ih =>
    have hc : s.call S c = s := if_pos h
    show (s.call S c).run S calls = s
    rw [hc, ih]

/-- The traces are those of the answered calls, as far as their numbers go. -/
structure Numbered (s : Session H) : Prop where
  length : s.ctx.traces.length = s.answered.length
  entry : ∀ i mb mb', s.answered[i]? = some (mb, mb') →
    ∃ t, s.ctx.traces[i]? = some t ∧ TraceOf (i % 2 ^ 32) mb mb' t

/-- The traces are the right ones as long as no more calls are answered than there are numbers. -/
theorem Numbered.recorded_iff (h : Numbered s) : Recorded s ↔ s.answered.length ≤ 2 ^ 32 := by
  constructor
  · intro hrec
    by_contra hlong
    have hlt : 2 ^ 32 < s.answered.length := Nat.lt_of_not_le hlong
    have hget : s.answered[2 ^ 32]? = some s.answered[2 ^ 32] := List.getElem?_eq_getElem hlt
    obtain ⟨t, ht, hseq⟩ := hrec.entry _ _ _ hget
    obtain ⟨t', ht', hseq'⟩ := h.entry _ _ _ hget
    rw [ht] at ht'
    cases ht'
    have := hseq.seq.symm.trans hseq'.seq
    omega
  · intro hle
    refine ⟨h.length, fun i mb mb' hi => ?_⟩
    obtain ⟨t, ht, htrace⟩ := h.entry i mb mb' hi
    have hlt := (List.getElem?_eq_some_iff.mp hi).1
    rw [Nat.mod_eq_of_lt (by omega)] at htrace
    exact ⟨t, ht, htrace⟩

/-- An answer and its trace. -/
theorem Numbered.push (h : Numbered s) {mb mb' : HostMailbox} {ctx : DispatchCtx H}
    {t : HostCallTrace} (ht : ctx.traces = s.ctx.traces ++ [t])
    (htrace : TraceOf (s.ctx.traces.length % 2 ^ 32) mb mb' t) :
    Numbered { s with ctx := ctx, answered := s.answered ++ [(mb, mb')] } where
  length := by
    simp only [ht, List.length_append, List.length_singleton, h.length]
  entry := by
    intro i mb1 mb1' hi
    rcases Nat.lt_trichotomy i s.answered.length with hlt | rfl | hgt
    · rw [List.getElem?_append_left hlt] at hi
      obtain ⟨t1, ht1, htrace1⟩ := h.entry i mb1 mb1' hi
      refine ⟨t1, ?_, htrace1⟩
      simp only [ht]
      rw [List.getElem?_append_left (h.length ▸ hlt), ht1]
    · rw [List.getElem?_concat_length] at hi
      cases hi
      refine ⟨t, ?_, h.length ▸ htrace⟩
      simp only [ht]
      rw [← h.length, List.getElem?_concat_length]
    · rw [List.getElem?_eq_none (by simp only [List.length_append, List.length_singleton]; omega)]
        at hi
      cases hi

theorem enter_traces {c : Call H} : (c.enter s.ctx).traces = s.ctx.traces := rfl

/-- A call that unpacks no map keeps answers and traces together. -/
theorem Numbered.call (h : Numbered s) {c : Call H} (hun : ¬ Unpacks S (c.enter s.ctx) c.mb) :
    Numbered (s.call S c) := by
  unfold Session.call
  by_cases hp : s.panicked = true
  · rw [if_pos hp]
    exact h
  · rw [if_neg hp]
    rcases dispatch_cases S c.mb (c.enter s.ctx) with
      ⟨e, ctx', herr, hsame, -⟩ | ⟨mb', ctx', hok, ⟨-, t, ht, htrace⟩ | ⟨hyes, -⟩⟩
    · rw [herr]
      rw [enter_traces] at hsame
      exact ⟨hsame ▸ h.length, hsame ▸ h.entry⟩
    · rw [hok]
      dsimp only
      split
      · exact ⟨h.length, h.entry⟩
      · exact h.push ht htrace
    · exact absurd hyes hun

/-- A call that unpacks a map is answered without a trace. -/
theorem call_unpacks {c : Call H} (hp : s.panicked = false) (hun : Unpacks S (c.enter s.ctx) c.mb) :
    ∃ mb' ctx', s.call S c = { s with ctx := ctx', answered := s.answered ++ [(c.mb, mb')] } ∧
      ctx'.traces = s.ctx.traces := by
  rcases dispatch_cases S c.mb (c.enter s.ctx) with
    ⟨e, ctx', -, -, hno⟩ | ⟨mb', ctx', hok, ⟨hno, -⟩ | ⟨-, hsame⟩⟩
  · exact absurd hun hno
  · exact absurd hun hno
  · refine ⟨mb', ctx', ?_, hsame⟩
    have hlen : ¬ (16 < c.mb.nArgs ∧ s.ctx.traces.length < ctx'.traces.length) := by
      rw [hsame]
      exact fun h => Nat.lt_irrefl _ h.2
    unfold Session.call
    rw [hp, if_neg (by decide), hok]
    exact if_neg hlen

/-- A call adds at most as many traces as answers. -/
theorem call_behind {k : Nat} (c : Call H) (h : s.ctx.traces.length + k ≤ s.answered.length) :
    (s.call S c).ctx.traces.length + k ≤ (s.call S c).answered.length := by
  unfold Session.call
  by_cases hp : s.panicked = true
  · rw [if_pos hp]
    exact h
  rw [if_neg hp]
  rcases dispatch_cases S c.mb (c.enter s.ctx) with
    ⟨e, ctx', herr, hsame, -⟩ | ⟨mb', ctx', hok, hrest⟩
  · rw [herr]
    rw [enter_traces] at hsame
    simp only [hsame]
    exact h
  · have hlen : ctx'.traces.length ≤ s.ctx.traces.length + 1 := by
      rcases hrest with ⟨-, t, ht, -⟩ | ⟨-, hsame⟩
      · rw [ht, enter_traces, List.length_append, List.length_singleton]
      · rw [hsame, enter_traces]
        omega
    rw [hok]
    dsimp only
    split
    · exact h
    · simp only [List.length_append, List.length_singleton]
      omega

theorem run_behind {k : Nat} (calls : List (Call H)) : ∀ {s : Session H},
    s.ctx.traces.length + k ≤ s.answered.length →
      (s.run S calls).ctx.traces.length + k ≤ (s.run S calls).answered.length := by
  induction calls with
  | nil => exact fun h => h
  | cons c calls ih => exact fun h => ih (call_behind c h)

/-- Behind calls that unpack no map the answers and the traces are together. -/
theorem Numbered.run (calls : List (Call H)) : ∀ {s : Session H}, Numbered s →
    (∀ ctx mb, Reaches S s calls ctx mb → ¬ Unpacks S ctx mb) → Numbered (s.run S calls) := by
  induction calls with
  | nil => exact fun h _ => h
  | cons c calls ih =>
    intro s h hun
    by_cases hp : s.panicked = true
    · rw [run_panicked hp]
      exact h
    · have hp' : s.panicked = false := Bool.eq_false_iff.mpr hp
      refine ih (h.call (S := S) (c := c) (hun _ _ ⟨[], c, calls, rfl, hp', rfl, rfl⟩)) ?_
      rintro ctx mb ⟨pre, d, post, rfl, hd, henter, hmb⟩
      exact hun ctx mb ⟨c :: pre, d, post, rfl, hd, henter, hmb⟩

end Sessions

/-- After a sequence of calls there is one trace for every answer, unless a call on the way unpacked a
map, or more calls were answered than there are 32-bit numbers. -/
theorem traces_recorded_iff (S : Soroban H) (host : H) (mem : Nat → Byte) (memSize : Nat)
    (calls : List (Call H)) :
    Recorded ((Session.new host mem memSize).run S calls) ↔
      (∀ ctx mb, Reaches S (Session.new host mem memSize) calls ctx mb → ¬ Unpacks S ctx mb) ∧
        ((Session.new host mem memSize).run S calls).answered.length ≤ 2 ^ 32 := by
  have hnew : Numbered (Session.new host mem memSize : Session H) := ⟨rfl, fun _ _ _ h => nomatch h⟩
  constructor
  · intro hrec
    have hnone : ∀ ctx mb, Reaches S (Session.new host mem memSize) calls ctx mb →
        ¬ Unpacks S ctx mb := by
      rintro ctx mb ⟨pre, c, post, rfl, hp, rfl, rfl⟩ hun
      have hle := run_behind (S := S) (k := 0) pre
        (Nat.le_refl _ : (Session.new host mem memSize : Session H).ctx.traces.length + 0 ≤ _)
      obtain ⟨mb', ctx', hcall, hsame⟩ := call_unpacks hp hun
      have hstep : (((Session.new host mem memSize).run S pre).call S c).ctx.traces.length + 1 ≤
          (((Session.new host mem memSize).run S pre).call S c).answered.length := by
        rw [hcall]
        simp only [hsame, List.length_append, List.length_singleton]
        omega
      have hbehind := run_behind (S := S) post hstep
      have hlen := hrec.length
      rw [run_append] at hlen
      exact absurd hlen (Nat.ne_of_lt hbehind)
    exact ⟨hnone, (Numbered.run calls hnew hnone).recorded_iff.mp hrec⟩
  · rintro ⟨hnone, hlen⟩
    exact (Numbered.run calls hnew hnone).recorded_iff.mpr hlen

/-- A host that knows the empty map, under its handle 1. -/
def mapHost : Soroban Unit where
  __ := silentHost
  mapNewFromSlices := fun h _ _ => .ok (sorobanMakeObj 1 SOROBAN_TAG_MAP_OBJECT, h)
  mapUnpackToSlice := fun h _ _ _ => .ok ([], h)

/-- A new map without entries. -/
def newMap : Call Unit where
  mb := { fnId := 72, nArgs := 3, args := fun _ => SOROBAN_TAG_U32VAL.setWidth 64 }
  host := ()
  mem := fun _ => 0
  memSize := 8
  relativeObjects := []

/-- The new map is unpacked, under the handle that the guest was given. -/
def unpackMap : Call Unit where
  mb :=
    { fnId := 73, nArgs := 4
      args := fun i =>
        if i = 0 then sorobanMakeObj 0 SOROBAN_TAG_MAP_OBJECT else SOROBAN_TAG_U32VAL.setWidth 64 }
  host := ()
  mem := fun _ => 0
  memSize := 8
  relativeObjects := [sorobanMakeObj 1 SOROBAN_TAG_MAP_OBJECT]

/-- Two calls are answered, and there is one trace. -/
theorem unpacked_map_untraced :
    ¬ Recorded ((Session.new () (fun _ => 0) 8).run mapHost [newMap, unpackMap]) := by
  have hcounts : ((Session.new () (fun _ => 0) 8).run mapHost [newMap, unpackMap]).ctx.traces.length = 1 ∧
      ((Session.new () (fun _ => 0) 8).run mapHost [newMap, unpackMap]).answered.length = 2 := by
    decide +kernel
  intro h
  have hlen := h.length
  rw [hcounts.1, hcounts.2] at hlen
  cases hlen

end CuWasm.Dispatch
