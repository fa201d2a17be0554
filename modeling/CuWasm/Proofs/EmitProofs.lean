import CuWasm.Immediates
import CuWasm.Proofs.BodyProofs
import CuWasm.Proofs.RunProofs

/-!
# What the pass emits for an operator

Read back with the final constant pool, the code from any point of the pass on denotes the immediates
of the operators from there on, cut to 16 bits where the fields are. Patching changes jumps only, and
jumps denote nothing; interning only appends.
-/

namespace CuWasm

open Wasm Exit

/-! ## Reading the code -/

/-- A longer pool denotes the same where the shorter one is defined. -/
theorem CuOp.immediate_prefix {pool consts : List Slot} (h : pool <+: consts) {i : CuOp}
    (hi : i.op = .i64Const → i.b < pool.length) : i.immediate consts = i.immediate pool := by
  by_cases hop : i.op = .i64Const
  · obtain ⟨l, rfl⟩ := h
    unfold immediate
    rw [hop]
    dsimp only
    rw [List.getElem?_append_left (hi hop)]
  · unfold immediate
    split <;> first | rfl | contradiction

theorem CuOp.IsJump.immediate {i : CuOp} (h : i.IsJump) (consts : List Slot) :
    i.immediate consts = none := by
  unfold CuOp.immediate
  rcases h with h | h
  · rw [h]
  · rw [h]

namespace Lower

/-- The open block has recorded the position `q`. -/
def Remembers (c : Ctrl) (q : Nat) : Prop := q ∈ c.patches ∨ c.elseBr = some q ∨ c.brIfNot = some q

/-- The code begins with `base`, up to the targets of jumps, and denotes the immediates `xs` from there
on. The constants begin with `pool`, and only jumps are going to be patched: those the open blocks have
recorded and those in `X`. -/
structure Denoting (base : List CuOp) (pool : List Slot) (X : List Nat) (xs : List Immediate)
    (s : LState) : Prop where
  low : base.length ≤ s.code.length
  kept : ∀ consts, (s.code.take base.length).map (CuOp.immediate consts) =
    base.map (CuOp.immediate consts)
  denotes : (s.code.drop base.length).filterMap (CuOp.immediate s.consts) = xs
  pool : pool <+: s.consts
  defined : ∀ i ∈ s.code.drop base.length, i.op = .i64Const → i.b < s.consts.length
  held : ∀ q ∈ X, JumpAt s.code q
  frames : ∀ c ∈ s.ctrl, ∀ q, Remembers c q → JumpAt s.code q

section Denoting

variable {base : List CuOp} {pool : List Slot} {X : List Nat} {xs : List Immediate} {s : LState}

theorem Denoting.mono (h : Denoting base pool X xs s) {pool' : List Slot} {Y : List Nat}
    (hpool : pool' <+: pool) (hY : Y ⊆ X) : Denoting base pool' Y xs s :=
  ⟨h.low, h.kept, h.denotes, hpool.trans h.pool, h.defined, fun q hq => h.held q (hY hq), h.frames⟩

/-- Appending an instruction. -/
theorem Denoting.emit (h : Denoting base pool X xs s) (i : CuOp) {Y : List Nat}
    (hi : i.op = .i64Const → i.b < pool.length)
    (hY : ∀ q ∈ Y, q ∈ X ∨ q = s.code.length ∧ i.IsJump) :
    Denoting base pool Y (xs ++ (i.immediate pool).toList) { s with code := s.code ++ [i] } where
  low := by
    rw [List.length_append]
    exact Nat.le_add_right_of_le h.low
  kept consts := by
    rw [List.take_append_of_le_length h.low]
    exact h.kept consts
  denotes := by
    have himm : i.immediate s.consts = i.immediate pool := CuOp.immediate_prefix h.pool hi
    rw [List.drop_append_of_le_length h.low, List.filterMap_append, h.denotes]
    congr 1
    rw [← himm]
    cases hx : i.immediate s.consts with
    | none => exact List.filterMap_cons_none hx
    | some x => exact List.filterMap_cons_some hx
  pool := h.pool
  defined j hj hop := by
    rw [List.drop_append_of_le_length h.low] at hj
    rcases List.mem_append.mp hj with hj | hj
    · exact h.defined j hj hop
    · rw [List.mem_singleton.mp hj] at hop ⊢
      exact (hi hop).trans_le h.pool.length_le
  held q hq := by
    rcases hY q hq with hq | ⟨rfl, hjump⟩
    · exact (h.held q hq).append _
    · unfold JumpAt opAt
      rw [List.getElem?_concat_length]
      exact hjump.imp (congrArg some) (congrArg some)
  frames c hc q hq := (h.frames c hc q hq).append _

/-- Patching a jump changes nothing that is read. -/
theorem patchB_immediates {code : List CuOp} {q : Nat} (hq : JumpAt code q) (t : Nat)
    (consts : List Slot) :
    (patchB code q t).map (CuOp.immediate consts) = code.map (CuOp.immediate consts) := by
  refine List.ext_getElem? fun k => ?_
  rw [List.getElem?_map, List.getElem?_map, patchB_get]
  by_cases hk : q = k
  · subst hk
    obtain ⟨i, hi, hjump⟩ := hq.get
    have hpatched : ({ i with b := t } : CuOp).IsJump := hjump
    rw [if_pos rfl, hi]
    show some (CuOp.immediate consts { i with b := t }) = some (CuOp.immediate consts i)
    rw [hpatched.immediate, hjump.immediate]
  · rw [if_neg hk]

theorem Denoting.patch (h : Denoting base pool X xs s) {q : Nat} (hq : JumpAt s.code q) (t : Nat) :
    Denoting base pool X xs { s with code := patchB s.code q t } where
  low := by
    rw [patchB_length]
    exact h.low
  kept consts := by
    rw [List.map_take, patchB_immediates hq, ← List.map_take]
    exact h.kept consts
  denotes := by
    have hsame := congrArg (fun l => (l.drop base.length).filterMap id) (patchB_immediates hq t s.consts)
    simp only [← List.map_drop, List.filterMap_map, Function.id_comp] at hsame
    exact hsame.trans h.denotes
  pool := h.pool
  defined j hj hop := by
    obtain ⟨k, hk⟩ := List.mem_iff_getElem?.mp hj
    rw [List.getElem?_drop, patchB_get] at hk
    refine h.defined j (List.mem_iff_getElem?.mpr ⟨k, ?_⟩) hop
    rw [List.getElem?_drop]
    by_cases hqk : q = base.length + k
    · subst hqk
      obtain ⟨i, hi, hjump⟩ := hq.get
      rw [if_pos rfl, hi] at hk
      cases hk
      rcases hjump with hj | hj
      · exact absurd (hj.symm.trans hop) (by decide)
      · exact absurd (hj.symm.trans hop) (by decide)
    · rwa [if_neg hqk] at hk
  held p hp := (h.held p hp).patchB q t
  frames c hc p hp := (h.frames c hc p hp).patchB q t

/-- Changing the height and the dead-code flag. -/
theorem Denoting.track (h : Denoting base pool X xs s) (k : Nat) (dead : Bool) :
    Denoting base pool X xs { s with h := k, dead := dead } :=
  ⟨h.low, h.kept, h.denotes, h.pool, h.defined, h.held, h.frames⟩

/-- Changing the open blocks. -/
theorem Denoting.ctrl (h : Denoting base pool X xs s) {ctrl : List Ctrl}
    (hc : ∀ c ∈ ctrl, ∀ q, Remembers c q → JumpAt s.code q) :
    Denoting base pool X xs { s with ctrl := ctrl } :=
  ⟨h.low, h.kept, h.denotes, h.pool, h.defined, h.held, hc⟩

/-- A constant joins the pool. -/
theorem Denoting.grow (h : Denoting base pool X xs s) {consts : List Slot} (hc : s.consts <+: consts) :
    Denoting base pool X xs { s with consts := consts } where
  low := h.low
  kept := h.kept
  denotes := by
    rw [← h.denotes]
    refine List.filterMap_congr fun i hi => ?_
    exact CuOp.immediate_prefix hc (h.defined i hi)
  pool := h.pool.trans hc
  defined i hi hop := (h.defined i hi hop).trans_le hc.length_le
  held := h.held
  frames := h.frames

end Denoting

/-! ## The operations of the pass -/

/-- The computation emits instructions that denote `xs ++ ys`. If it fails, `xs` has been emitted, and
perhaps a part of `ys`. -/
def Emits {α : Type} (pool : List Slot) (X : List Nat) (xs ys : List Immediate) (x : Lower α) : Prop :=
  ∀ base zs, Spec (Denoting base pool X zs) x (fun _ => Denoting base pool X (zs ++ (xs ++ ys)))
    fun _ s => ∃ ws, ws <+: ys ∧ Denoting base pool X (zs ++ (xs ++ ws)) s

section

variable {pool : List Slot} {X : List Nat} {xs ys ys' : List Immediate}

theorem Emits.bind {α β : Type} {x : Lower α} {g : α → Lower β} (hx : Emits pool X xs ys x)
    (hg : ∀ a, Emits pool X [] ys' (g a)) : Emits pool X xs (ys ++ ys') (x >>= g) := by
  intro base zs
  refine Spec.bind ((hx base zs).mono (fun _ h => h) (fun _ _ h => h) fun e s h => ?_) fun a => ?_
  · obtain ⟨ws, hws, h⟩ := h
    exact ⟨ws, hws.trans (List.prefix_append ..), h⟩
  · refine (hg a base _).mono (fun _ h => h) (fun _ s h => ?_) fun _ s h => ?_
    · rw [List.nil_append, List.append_assoc, List.append_assoc] at h
      exact h
    · obtain ⟨ws, hws, h⟩ := h
      rw [List.nil_append, List.append_assoc, List.append_assoc] at h
      exact ⟨ys ++ ws, (List.prefix_append_right_inj ys).mpr hws, h⟩

/-- What is certain to be emitted is emitted in particular. -/
theorem Emits.weaken {α : Type} {x : Lower α} (hx : Emits pool X xs ys x) :
    Emits pool X [] (xs ++ ys) x := by
  intro base zs
  refine (hx base zs).mono (fun _ h => h) (fun _ _ h => h) fun _ s h => ?_
  obtain ⟨ws, hws, h⟩ := h
  exact ⟨xs ++ ws, (List.prefix_append_right_inj xs).mpr hws, h⟩

/-- A computation in front of which something is emitted. -/
theorem Emits.seq {α β : Type} {x : Lower α} {g : α → Lower β} (hx : Emits pool X xs [] x)
    (hg : ∀ a, Emits pool X [] ys (g a)) : Emits pool X [] (xs ++ ys) (x >>= g) :=
  (hx.bind hg).weaken

theorem Emits.pure {α : Type} (a : α) : Emits pool X [] [] (pure a : Lower α) := by
  intro base zs
  refine Spec.pure fun s h => ?_
  rw [List.append_nil, List.append_nil]
  exact h

theorem Denoting.part {base : List CuOp} {zs : List Immediate} {s : LState} (h : Denoting base pool X zs s)
    (ys : List Immediate) : ∃ ws, ws <+: ys ∧ Denoting base pool X (zs ++ ([] ++ ws)) s :=
  ⟨[], List.nil_prefix, by rw [List.append_nil, List.append_nil]; exact h⟩

theorem Emits.throw {α : Type} (e : String) (ys : List Immediate) :
    Emits pool X [] ys (throw e : Lower α) := fun _ _ => Spec.throw fun _ h => h.part ys

theorem Emits.guard {α : Type} {c : Prop} [Decidable c] {e : String} {k : PUnit → Lower α}
    (hk : ¬ c → Emits pool X [] ys (k ⟨⟩)) :
    Emits pool X [] ys (if c then Bind.bind (MonadExcept.throw e) k else k ⟨⟩) :=
  fun base zs => Spec.guard (fun _ _ h => h.part ys) fun hc => hk hc base zs

theorem Emits.ite {α : Type} {c : Prop} [Decidable c] {x y : Lower α}
    (hx : c → Emits pool X xs ys x) (hy : ¬ c → Emits pool X xs ys y) :
    Emits pool X xs ys (if c then x else y) :=
  fun base zs => Spec.ite (fun hc => hx hc base zs) fun hc => hy hc base zs

/-- A computation that goes on from the state it reads. -/
theorem Emits.get_bind {α : Type} {g : LState → Lower α} (hg : ∀ s, Emits pool X xs ys (g s)) :
    Emits pool X xs ys (get >>= g) := by
  intro base zs
  refine Spec.get_bind fun s hs => ?_
  exact (hg s base zs).mono (fun _ h => h ▸ hs) (fun _ _ h => h) fun _ _ h => h

/-- A lookup that may fail in front of the rest. -/
theorem Emits.ofExcept_bind {α β : Type} {r : Except String α} {g : α → Lower β}
    (hg : ∀ a, r = .ok a → Emits pool X [] ys (g a)) : Emits pool X [] ys (ofExcept r >>= g) := by
  cases r with
  | ok a => exact hg a rfl
  | error e => exact Emits.throw e ys

/-- A computation that emits nothing that is read. -/
theorem Emits.of_final {α : Type} {x : Lower α}
    (h : ∀ base zs s, Denoting base pool X zs s → Denoting base pool X zs (final (x s))) :
    Emits pool X [] [] x := by
  intro base zs s hs
  have hfin := h base zs s hs
  cases hx : x s with
  | ok a t =>
    rw [hx] at hfin
    refine ⟨fun _ t' ht => ?_, fun _ _ ht => by cases ht⟩
    cases ht
    rw [List.append_nil, List.append_nil]
    exact hfin
  | error e t =>
    rw [hx] at hfin
    refine ⟨fun _ _ ht => (by cases ht), fun _ t' ht => ?_⟩
    cases ht
    exact hfin.part []

theorem consume_emits (pops pushes : Nat) : Emits pool X [] [] (consume pops pushes) := by
  refine Emits.of_final fun base zs s hs => ?_
  rw [Structured.consume_apply]
  split_ifs
  · exact hs
  · exact hs
  · exact hs.track _ _

theorem markDead_emits : Emits pool X [] [] markDead :=
  Emits.of_final fun _ _ s hs => hs.track s.h true

/-- An instruction that is not a constant, or one of the pool. -/
theorem emit_emits (op : Opcode) (a b : Nat) (hb : op = .i64Const → b < pool.length)
    (hxs : (CuOp.immediate pool ⟨op, a, b⟩).toList = xs) : Emits pool X xs [] (emit op a b) := by
  intro base zs s hs
  refine ⟨fun _ t h => ?_, fun _ _ h => by cases h⟩
  cases h
  rw [List.append_nil, ← hxs]
  exact hs.emit ⟨op, a, b⟩ hb fun q hq => .inl hq

theorem plain_emits (op : Opcode) (a b pops pushes : Nat) (hb : op = .i64Const → b < pool.length)
    (hxs : (CuOp.immediate pool ⟨op, a, b⟩).toList = xs) :
    Emits pool X xs [] (plain op a b pops pushes) :=
  (emit_emits op a b hb hxs).bind fun _ => consume_emits pops pushes

/-- A jump without a target joins `X`. -/
theorem hold_emits {base : List CuOp} {zs : List Immediate} (op : Opcode) (hop : op = .br ∨ op = .brIfNot)
    {E : String → LState → Prop} :
    Spec (Denoting base pool X zs) (emit op 0 0) (fun q => Denoting base pool (q :: X) zs) E := by
  intro s hs
  refine ⟨fun q t h => ?_, fun _ _ h => by cases h⟩
  cases h
  have hjump : (⟨op, 0, 0⟩ : CuOp).IsJump := hop
  have hemit := hs.emit ⟨op, 0, 0⟩ (Y := s.code.length :: X)
    (fun h => by rcases hop with rfl | rfl <;> cases h)
    fun q hq => (List.mem_cons.mp hq).symm.imp_right fun h => ⟨h, hjump⟩
  rwa [hjump.immediate, Option.toList_none, List.append_nil] at hemit

/-- A jump without a target in front of a computation that takes care of it. -/
theorem hold_bind_emits {α : Type} {g : Nat → Lower α} (op : Opcode)
    (hop : op = .br ∨ op = .brIfNot)
    (hg : ∀ q base zs, Spec (Denoting base pool (q :: X) zs) (g q)
      (fun _ => Denoting base pool X (zs ++ ([] ++ ys)))
      fun _ s => ∃ ws, ws <+: ys ∧ Denoting base pool X (zs ++ ([] ++ ws)) s) :
    Emits pool X [] ys (emit op 0 0 >>= g) :=
  fun base zs => Spec.bind (hold_emits op hop) fun q => hg q base zs

/-- The pool may have grown when the rest is emitted. -/
theorem intern_bind_emits {α : Type} {g : Nat → Lower α} (x : Slot)
    (hg : ∀ i (pool' : List Slot), pool'[i]? = some x → Emits pool' X [] ys (g i)) :
    Emits pool X [] ys (intern x >>= g) := by
  intro base zs s hs
  rw [bind_apply, Structured.intern_apply]
  have hgrow : s.consts <+: (Structured.intern x s.consts).2 := by
    unfold Structured.intern
    split
    · exact List.prefix_refl _
    · exact List.prefix_append ..
  have hget : (Structured.intern x s.consts).2[(Structured.intern x s.consts).1]? = some x := by
    unfold Structured.intern
    split
    · rename_i i hi
      obtain ⟨hlt, hx, -⟩ := List.findIdx?_eq_some_iff_getElem.mp hi
      rw [List.getElem?_eq_getElem hlt, beq_iff_eq.mp hx]
    · exact List.getElem?_concat_length ..
  have hrest := hg _ _ hget base zs
  have hs' := hs.grow hgrow
  have hpool : pool <+: (Structured.intern x s.consts).2 := hs.pool.trans hgrow
  obtain ⟨hok, herr⟩ := hrest _ ⟨hs'.low, hs'.kept, hs'.denotes, List.prefix_refl _, hs'.defined, hs'.held, hs'.frames⟩
  refine ⟨fun a t h => (hok a t h).mono hpool (List.Subset.refl X), fun e t h => ?_⟩
  obtain ⟨ws, hws, ht⟩ := herr e t h
  exact ⟨ws, hws, ht.mono hpool (List.Subset.refl X)⟩

/-- A constant of the pool. -/
theorem const_emits {i : Nat} {x : Slot} (hi : pool[i]? = some x) :
    Emits pool X [.value x] [] (plain .i64Const 0 i 0 1) := by
  refine plain_emits .i64Const 0 i 0 1 (fun _ => (List.getElem?_eq_some_iff.mp hi).1) ?_
  show (pool[i]?.map Immediate.value).toList = _
  rw [hi]
  rfl

/-! ### Branches -/

theorem emitJump_emits (idx : Nat) (c : Ctrl) : Emits pool X [] [] (emitJump idx c) := by
  refine Emits.of_final fun base zs s hs => ?_
  unfold emitJump
  simp only [ite_run, bind_apply, Structured.emit_apply, modify_apply]
  split_ifs
  · have hemit := hs.emit ⟨.br, 0, c.start⟩ (Y := X) nofun fun q hq => .inl hq
    rwa [CuOp.IsJump.immediate (.inl rfl), Option.toList_none, List.append_nil] at hemit
  · have hemit := hs.emit ⟨.br, 0, 0⟩ (Y := s.code.length :: X) nofun
      fun q hq => (List.mem_cons.mp hq).symm.imp_right fun h => ⟨h, .inl rfl⟩
    rw [CuOp.IsJump.immediate (.inl rfl), Option.toList_none, List.append_nil] at hemit
    refine (hemit.mono (List.prefix_refl _) (List.subset_cons_self ..)).ctrl fun d hd q hq => ?_
    rcases mem_record hd with hd | ⟨d', hd', rfl⟩
    · exact hemit.frames d hd q hq
    · rcases hq with hq | hq
      · rcases List.mem_append.mp hq with hq | hq
        · exact hemit.frames d' hd' q (.inl hq)
        · rw [List.mem_singleton.mp hq]
          exact hemit.held _ (.head _)
      · exact hemit.frames d' hd' q (.inr hq)

theorem emitUnwind_emits (env : LowerEnv) (c : Ctrl) : Emits pool X [] [] (emitUnwind env c) := by
  refine Emits.of_final fun base zs s hs => ?_
  rw [Structured.emitUnwind_apply]
  split_ifs
  · exact hs
  · have hemit := hs.emit
      ⟨.unwind, labelArity c, env.nParams + env.nLocals + (c.base + labelArity c)⟩ (Y := X) nofun
      fun q hq => .inl hq
    rwa [show CuOp.immediate pool ⟨.unwind, _, _⟩ = none from rfl, Option.toList_none,
      List.append_nil] at hemit
  · exact hs

theorem resolveBr_emits (depth : Nat) : Emits pool X [] [] (resolveBr depth) := by
  refine Emits.get_bind fun s => ?_
  split
  · exact Emits.throw _ []
  · exact Emits.pure _

theorem branch_emits (env : LowerEnv) (depth : Nat) : Emits pool X [] [] (branch env depth) := by
  refine (resolveBr_emits depth).seq fun c => Emits.get_bind fun s => ?_
  refine Emits.ite (fun _ => ?_) fun _ => emitJump_emits depth c
  exact (emitUnwind_emits env c).seq fun _ => emitJump_emits depth c

/-- A branch behind a `BR_IF_NOT` that skips it. -/
theorem skip_emits (env : LowerEnv) (depth : Nat) {α : Type} {g : Lower α}
    (hg : Emits pool X [] ys g) :
    Emits pool X [] ys (do
      let skip ← emit .brIfNot 0 0
      branch env depth
      patch skip (← get).code.length
      g) := by
  refine hold_bind_emits .brIfNot (.inr rfl) fun q base zs => ?_
  have hsub : X ⊆ q :: X := List.subset_cons_self ..
  refine Spec.bind ((branch_emits (X := q :: X) env depth base zs).mono (fun _ h => h) (fun _ _ h => h)
    fun _ s h => ?_) fun _ => ?_
  · obtain ⟨ws, hws, h⟩ := h
    exact ⟨ws, hws.trans List.nil_prefix, h.mono (List.prefix_refl _) hsub⟩
  · refine Spec.get_bind fun s hs => ?_
    rw [List.append_nil, List.append_nil] at hs
    refine Spec.bind (Q := fun _ => Denoting base pool X zs) ?_ fun _ => hg base zs
    refine Spec.modify fun t ht => ?_
    rw [ht]
    exact (hs.patch (hs.held q (.head _)) _).mono (List.prefix_refl _) hsub

theorem slot_index (i : Nat) : (BitVec.ofNat 64 (i % 2 ^ 32) : Slot) = slot32 (BitVec.ofNat 32 i) := by
  refine BitVec.eq_of_toNat_eq ?_
  unfold slot32
  simp only [BitVec.toNat_ofNat, BitVec.toNat_setWidth]

theorem brTableArms_emits (env : LowerEnv) (scratch i : Nat) (targets : List Nat) :
    Emits pool X [] (tableImmediates scratch i targets) (brTableArms env scratch i targets) := by
  induction targets generalizing pool i with
  | nil => exact Emits.pure _
  | cons depth depths ih =>
    refine intern_bind_emits _ fun idxc pool' hidxc => ?_
    rw [slot_index] at hidxc
    refine (plain_emits .localGet scratch 0 0 1 nofun rfl).seq fun _ => ?_
    refine (const_emits hidxc).seq fun _ => ?_
    refine (plain_emits (.bin .i32Eq) 0 0 2 1 nofun rfl).seq fun _ => ?_
    exact (consume_emits 1 0).seq fun _ => skip_emits env depth (ih (i + 1))

/-- A `br_table` has written its operand to the scratch local before it fails. -/
theorem brTableArm_emits (env : LowerEnv) {scratch : Nat} (hscratch : env.scratch = some scratch)
    (targets : List Nat) (default : Nat) :
    Emits pool X [.localIndex scratch] (tableImmediates scratch 0 targets)
      (brTableArm env targets default) := by
  unfold brTableArm
  rw [hscratch]
  refine (plain_emits .localSet scratch 0 1 0 nofun rfl).bind fun _ => ?_
  rw [← List.append_nil (tableImmediates scratch 0 targets)]
  refine (brTableArms_emits env scratch 0 targets).bind fun _ => ?_
  exact (branch_emits env default).seq fun _ => markDead_emits

/-! ### Blocks -/

/-- A block opens; the `BR_IF_NOT` of an `if` goes over to the block. -/
theorem pushCtrl_emits {base : List CuOp} {zs : List Immediate} (kind : CtrlKind) (np nr : Nat)
    (pc : Option Nat) :
    Spec (Denoting base pool (pc.toList ++ X) zs) (pushCtrl kind np nr pc)
      (fun _ => Denoting base pool X (zs ++ ([] ++ [])))
      fun _ s => ∃ ws, ws <+: [] ∧ Denoting base pool X (zs ++ ([] ++ ws)) s := by
  intro s hs
  have hrest : Denoting base pool X zs s :=
    hs.mono (List.prefix_refl _) (List.subset_append_right ..)
  rw [Structured.pushCtrl_apply]
  split
  · refine ⟨fun _ _ h => (by cases h), fun _ t h => ?_⟩
    cases h
    exact hrest.part []
  · refine ⟨fun _ t h => ?_, fun _ _ h => by cases h⟩
    cases h
    rw [List.append_nil, List.append_nil]
    refine hrest.ctrl fun c hc q hq => ?_
    rcases List.mem_cons.mp hc with rfl | hc
    · rcases hq with hq | hq | hq
      · cases hq
      · cases hq
      · exact hs.held q (List.mem_append_left _ (Option.mem_toList.mpr hq))
    · exact hrest.frames c hc q hq

theorem scope_emits (env : LowerEnv) (ty : BlockType) (kind : CtrlKind) :
    Emits pool X [] [] (do
      let (np, nr) ← ofExcept (blockArity ty env.funcTypes)
      pushCtrl kind np nr) :=
  Emits.ofExcept_bind fun a _ _ _ => pushCtrl_emits kind a.1 a.2 none

theorem ifArm_emits (env : LowerEnv) (ty : BlockType) : Emits pool X [] [] (ifArm env ty) := by
  refine Emits.ofExcept_bind fun a _ => (consume_emits 1 0).seq fun _ => ?_
  exact hold_bind_emits .brIfNot (.inr rfl) fun q base zs => pushCtrl_emits .if_ a.1 a.2 (some q)

theorem elseArm_emits : Emits pool X [] [] elseArm := by
  refine Emits.of_final fun base zs s hs => ?_
  unfold elseArm
  cases hctrl : s.ctrl with
  | nil =>
    simp only [bind_apply, get_apply, hctrl]
    exact hs
  | cons c rest =>
    have hc : ∀ q, Remembers c q → JumpAt s.code q := hs.frames c (by rw [hctrl]; exact .head _)
    have hrest : ∀ d ∈ rest, ∀ q, Remembers d q → JumpAt s.code q :=
      fun d hd => hs.frames d (by rw [hctrl]; exact .tail _ hd)
    simp only [bind_apply, get_apply, hctrl, ite_run, throw_apply]
    split_ifs
    · exact hs
    · -- the jump behind the first arm
      have hemit := hs.emit ⟨.br, 0, 0⟩ (Y := s.code.length :: X) nofun
        fun q hq => (List.mem_cons.mp hq).symm.imp_right fun h => ⟨h, .inl rfl⟩
      rw [CuOp.IsJump.immediate (.inl rfl), Option.toList_none, List.append_nil] at hemit
      have hopen : Denoting base pool X zs { s with
          code := s.code ++ [⟨.br, 0, 0⟩]
          ctrl := { c with elseBr := some s.code.length, hasElse := true } :: rest } := by
        refine (hemit.mono (List.prefix_refl _) (List.subset_cons_self ..)).ctrl fun d hd q hq => ?_
        rcases List.mem_cons.mp hd with rfl | hd
        · rcases hq with hq | hq | hq
          · exact (hc q (.inl hq)).append _
          · cases hq
            exact hemit.held _ (.head _)
          · exact (hc q (.inr (.inr hq))).append _
        · exact (hrest d hd q hq).append _
      simp only [Structured.emit_apply, modify_apply]
      cases hb : c.brIfNot with
      | none =>
        rw [hb] at hopen
        exact hopen.track _ _
      | some q =>
        have hq : JumpAt (s.code ++ [⟨.br, 0, 0⟩]) q := (hc q (.inr (.inr hb))).append _
        rw [hb] at hopen
        exact (hopen.patch hq _).track _ _

/-- Patching the jumps `ps`. -/
theorem dues_emits (ps : List Nat) (t : Nat) :
    ∀ {base : List CuOp} {zs : List Immediate} {s : LState}, Denoting base pool X zs s →
      (∀ q ∈ ps, JumpAt s.code q) → Denoting base pool X zs (final ((ps.forM fun p => patch p t) s)) := by
  induction ps with
  | nil => exact fun hs _ => hs
  | cons q ps ih =>
    intro base zs s hs hps
    refine ih (hs.patch (hps q (.head _)) t) fun p hp => ?_
    exact (hps p (.tail _ hp)).patchB q t

theorem due_remembered {c : Ctrl} {q : Nat} (h : q ∈ due c) : Remembers c q := by
  unfold due at h
  rcases List.mem_append.mp h with h | h
  · split_ifs at h
    · exact .inr (.inl (Option.mem_toList.mp h))
    · exact .inr (.inr (Option.mem_toList.mp h))
    · cases h
  · exact .inl h

theorem patch_ok (ps : List Nat) (t : Nat) (s : LState) :
    ∃ u, (ps.forM fun p => patch p t) s = .ok () u := by
  induction ps generalizing s with
  | nil => exact ⟨s, rfl⟩
  | cons q ps ih => exact ih _

theorem endArm_emits (env : LowerEnv) : Emits pool X [] [] (endArm env) := by
  refine Emits.of_final fun base zs s hs => ?_
  unfold endArm
  cases hctrl : s.ctrl with
  | nil =>
    simp only [bind_apply, get_apply, hctrl]
    exact hs
  | cons c rest =>
    have hc : ∀ q ∈ due c, JumpAt s.code q :=
      fun q hq => hs.frames c (by rw [hctrl]; exact .head _) q (due_remembered hq)
    have hpop : Denoting base pool X zs { s with ctrl := rest } :=
      hs.ctrl fun d hd => hs.frames d (by rw [hctrl]; exact .tail _ hd)
    have hclose {t : LState} (ht : Denoting base pool X zs t) (hdue : ∀ q ∈ due c, JumpAt t.code q)
        (joinPc : Nat) : Denoting base pool X zs (final ((endPatches c joinPc >>= fun _ =>
          modify fun s : LState => { s with h := c.base + c.nResults, dead := c.deadOnEntry }) t)) := by
      have hfin := dues_emits (due c) joinPc ht hdue
      obtain ⟨u, hu⟩ := patch_ok (due c) joinPc t
      rw [hu] at hfin
      rw [endPatches_eq, bind_ok hu]
      exact Denoting.track hfin _ _
    simp only [bind_apply, get_apply, hctrl, modify_apply]
    by_cases hk : c.kind = .func
    · simp only [if_pos hk]
      have hemit := hpop.emit ⟨.endFunc, env.nResults, 0⟩ (Y := X) nofun fun q hq => .inl hq
      rw [show CuOp.immediate pool ⟨.endFunc, _, _⟩ = none from rfl, Option.toList_none,
        List.append_nil] at hemit
      exact hclose hemit (fun q hq => (hc q hq).append _) _
    · simp only [if_neg hk, bind_apply, get_apply, pure_apply]
      exact hclose hpop hc _

end

end Lower

/-! ## Operators -/

/-- The operator with those indices cut to 16 bits that are emitted in a 16-bit field. Nothing is
emitted for another memory than the first. -/
def Wasm.Operator.cut : Operator → Operator
  | .localGet i => .localGet (i % 2 ^ 16)
  | .localSet i => .localSet (i % 2 ^ 16)
  | .localTee i => .localTee (i % 2 ^ 16)
  | .memoryInit di mem => .memoryInit (if mem = 0 then di % 2 ^ 16 else di) mem
  | .dataDrop di => .dataDrop (di % 2 ^ 16)
  | o => o

/-- The operators that emit an instruction with an immediate before anything can fail. -/
def Wasm.Operator.Certain : Operator → Prop
  | .localGet _ | .localSet _ | .localTee _ | .brTable _ _ | .dataDrop _ => True
  | .memoryInit _ mem => mem = 0
  | _ => False

theorem Structured.Describes.funcType {env : LowerEnv} {C : Ctx} (hd : Describes env C) {fi : Nat}
    {a : Nat × Nat} (h : CuWasm.funcArity fi env.funcTypes env.funcTypeidx = .ok a) :
    ∃ ft ∈ C.types, C.funcType fi = some ft ∧ a = (ft.1.length, ft.2.length) := by
  have h' := h
  unfold CuWasm.funcArity at h'
  rw [hd.funcs, hd.types] at h'
  unfold Ctx.funcType
  split at h'
  · cases h'
  · rename_i t ht
    split at h'
    · cases h'
    · rename_i ft hft
      rw [hd.funcArity ht hft] at h
      cases h
      exact ⟨ft, List.mem_of_getElem? hft, by rw [ht]; exact hft, rfl⟩

namespace Lower

section

variable {env : LowerEnv} {C : Ctx} {scratch : Nat} {pool : List Slot} {X : List Nat}

theorem numOp_emits (o : NumOp) : Emits pool X [] [] (operator env (.num o)) := by
  refine plain_emits _ _ _ _ _ (fun h => ?_) ?_
  · cases o <;> cases h
  · cases o <;> rfl

theorem memArm_emits (mem : Nat) (op : Opcode) (a pops pushes : Nat) {xs : List Immediate}
    (hop : op ≠ .i64Const) (hxs : mem = 0 → (CuOp.immediate pool ⟨op, a, 0⟩).toList = xs) :
    Emits pool X [] xs (memArm mem op a pops pushes) := by
  unfold memArm
  refine Emits.guard fun hmem => ?_
  have hplain : Emits pool X xs [] (plain op a 0 pops pushes) :=
    plain_emits op a 0 pops pushes (fun h => absurd h hop) (hxs (not_not.mp hmem))
  have hall := hplain.weaken
  rwa [List.append_nil] at hall

theorem checkMemarg_ok {ma : MemArg} {off : Nat} (h : checkMemarg ma = .ok off) : off = ma.offset := by
  unfold checkMemarg at h
  split_ifs at h
  cases h
  rfl

theorem callArm_emits (hd : Structured.Describes env C)
    (hshort : ∀ ft ∈ C.types, ft.1.length ≤ 8 ∧ ft.2.length ≤ 8) (fi : Nat) :
    Emits pool X [] ((Operator.call fi).immediates C env.nImports scratch) (callArm env fi) := by
  refine Emits.ofExcept_bind fun a ha => ?_
  obtain ⟨ft, hmem, hft, rfl⟩ := hd.funcType ha
  obtain ⟨h8, h8'⟩ := hshort ft hmem
  unfold Operator.immediates
  dsimp only
  by_cases hi : fi < env.nImports
  · rw [if_pos hi, if_pos hi, hft]
    split
    · exact Emits.throw _ _
    · show Emits pool X [] ([.host ft.1.length ft.2.length] ++ []) _
      refine (plain_emits .callHost _ _ _ _ nofun ?_).weaken
      obtain ⟨hp, hr⟩ := Structured.callHost_arity _ h8 _ h8'
      show [Immediate.host _ _] = [Immediate.host _ _]
      rw [hp, hr]
  · rw [if_neg hi, if_neg hi]
    exact (plain_emits .call 0 fi _ _ nofun rfl).weaken

theorem callIndirectArm_emits (ti tab : Nat) :
    Emits pool X [] [.typeIndex ti] (callIndirectArm env ti tab) := by
  unfold callIndirectArm
  refine Emits.guard fun _ => ?_
  split
  · exact Emits.throw _ _
  · exact (plain_emits .callIndirect 0 ti _ _ nofun rfl).weaken

/-- An instruction behind which the code is dead. -/
theorem emitDead_emits (op : Opcode) (a b : Nat) {xs : List Immediate} (hop : op ≠ .i64Const)
    (hxs : (CuOp.immediate pool ⟨op, a, b⟩).toList = xs) :
    Emits pool X [] xs (do
      let _ ← emit op a b
      markDead) := by
  have hall : Emits pool X [] (xs ++ []) (emit op a b >>= fun _ => markDead) :=
    (emit_emits op a b (fun h => absurd h hop) hxs).seq fun _ => markDead_emits
  rwa [List.append_nil] at hall

/-- An operator emits its immediates, cut to 16 bits where the field is. -/
theorem operator_emits (hd : Structured.Describes env C)
    (hshort : ∀ ft ∈ C.types, ft.1.length ≤ 8 ∧ ft.2.length ≤ 8) (o : Operator)
    (hscratch : o.isBrTable = true → env.scratch = some scratch) :
    Emits pool X [] (o.cut.immediates C env.nImports scratch) (operator env o) := by
  cases o with
  | nop => exact Emits.pure ()
  | unreachable => exact emitDead_emits .unreachable 0 0 nofun rfl
  | const c => exact intern_bind_emits _ fun i pool' hi => (const_emits hi).weaken
  | num o => exact numOp_emits o
  | localTee i =>
    refine (emit_emits .localSet (i % 2 ^ 16) 0 nofun rfl).seq fun _ => ?_
    exact (emit_emits .localGet (i % 2 ^ 16) 0 nofun rfl).seq fun _ => Emits.pure _
  | block ty => exact scope_emits env ty .block
  | loop ty => exact scope_emits env ty .loop
  | if_ ty => exact ifArm_emits env ty
  | else_ => exact elseArm_emits
  | end_ => exact endArm_emits env
  | br depth => exact (branch_emits env depth).seq fun _ => markDead_emits
  | brIf depth => exact (consume_emits 1 0).seq fun _ => skip_emits env depth (Emits.pure ())
  | brTable targets default => exact (brTableArm_emits env (hscratch rfl) targets default).weaken
  | return_ => exact emitDead_emits .ret env.nResults 0 nofun rfl
  | call fi => exact callArm_emits hd hshort fi
  | returnCall fi =>
    unfold operator
    exact Emits.guard fun _ => emitDead_emits .returnCall 0 fi nofun rfl
  | callIndirect ti tab => exact callIndirectArm_emits ti tab
  | load o ma =>
    refine Emits.ofExcept_bind fun off hoff => ?_
    rw [checkMemarg_ok hoff]
    exact (plain_emits .load (LoadOp.lower o) ma.offset 1 1 nofun rfl).weaken
  | store o ma =>
    refine Emits.ofExcept_bind fun off hoff => ?_
    rw [checkMemarg_ok hoff]
    exact (plain_emits .store (StoreOp.lower o) ma.offset 2 0 nofun rfl).weaken
  | memorySize mem => exact memArm_emits mem .memorySize 0 0 1 nofun fun _ => rfl
  | memoryGrow mem => exact memArm_emits mem .memoryGrow 0 1 1 nofun fun _ => rfl
  | memoryCopy dst src =>
    unfold operator
    exact Emits.guard fun _ => plain_emits .memoryCopy 0 0 3 0 nofun rfl
  | memoryFill mem => exact memArm_emits mem .memoryFill 0 3 0 nofun fun _ => rfl
  | memoryInit di mem =>
    refine memArm_emits mem .memoryInit (di % 2 ^ 16) 3 0 nofun fun hmem => ?_
    subst hmem
    rfl
  | dataDrop di => exact (emit_emits .dataDrop (di % 2 ^ 16) 0 nofun rfl).seq fun _ => Emits.pure _
  | reinterpret r => exact consume_emits 1 1
  | refFunc k => exact Emits.throw _ _
  | refNull => exact Emits.throw _ _
  | other t => exact Emits.throw _ _
  | drop => exact plain_emits .drop 0 0 1 0 nofun rfl
  | select | typedSelect t => exact plain_emits .select 0 0 3 1 nofun rfl
  | globalGet k => exact (plain_emits .globalGet 0 k 0 1 nofun rfl).weaken
  | globalSet k => exact (plain_emits .globalSet 0 k 1 0 nofun rfl).weaken
  | localGet k => exact (plain_emits .localGet (k % 2 ^ 16) 0 0 1 nofun rfl).weaken
  | localSet k => exact (plain_emits .localSet (k % 2 ^ 16) 0 1 0 nofun rfl).weaken

/-- A certain operator has emitted its first immediate even if it fails. -/
theorem operator_certain {o : Operator} (ho : o.Certain)
    (hscratch : o.isBrTable = true → env.scratch = some scratch) :
    ∃ x ys, o.cut.immediates C env.nImports scratch = x :: ys ∧
      ∀ pool X, Emits pool X [x] ys (operator env o) := by
  cases o with
  | localGet k => exact ⟨_, _, rfl, fun _ _ => plain_emits .localGet (k % 2 ^ 16) 0 0 1 nofun rfl⟩
  | localSet k => exact ⟨_, _, rfl, fun _ _ => plain_emits .localSet (k % 2 ^ 16) 0 1 0 nofun rfl⟩
  | localTee k =>
    refine ⟨_, _, rfl, fun pool X => ?_⟩
    refine (emit_emits .localSet (k % 2 ^ 16) 0 nofun rfl).bind fun _ => ?_
    exact (emit_emits .localGet (k % 2 ^ 16) 0 nofun rfl).seq fun _ => Emits.pure _
  | brTable targets default =>
    exact ⟨_, _, rfl, fun _ _ => brTableArm_emits env (hscratch rfl) targets default⟩
  | dataDrop di =>
    refine ⟨_, _, rfl, fun pool X => ?_⟩
    exact (emit_emits .dataDrop (di % 2 ^ 16) 0 nofun rfl).bind fun _ => Emits.pure _
  | memoryInit di mem =>
    have hmem : mem = 0 := ho
    subst hmem
    exact ⟨_, _, rfl, fun _ _ => plain_emits .memoryInit (di % 2 ^ 16) 0 3 0 nofun rfl⟩
  | _ => cases ho

/-- The operators behind one another. -/
theorem operators_emits (hd : Structured.Describes env C)
    (hshort : ∀ ft ∈ C.types, ft.1.length ≤ 8 ∧ ft.2.length ≤ 8) (ops : List Operator)
    (hscratch : ∀ o ∈ ops, o.isBrTable = true → env.scratch = some scratch) :
    Emits pool X [] (ops.flatMap fun o => o.cut.immediates C env.nImports scratch)
      (operators env ops) := by
  induction ops with
  | nil => exact Emits.pure ()
  | cons o ops ih =>
    have hrest := ih fun o' ho' => hscratch o' (.tail _ ho')
    exact (operator_emits hd hshort o (hscratch o (.head _))).bind fun _ => hrest

theorem ComesTo.mem {ops : List Operator} {init : LState} {o : Operator} {t : LState}
    (h : ComesTo env ops init o t) : o ∈ ops := by
  obtain ⟨pre, post, hops, -⟩ := h
  rw [hops]
  exact List.mem_append_right _ (.head _)

/-- Reading begins anew. -/
theorem Denoting.restart {base : List CuOp} {xs : List Immediate} {s : LState}
    (h : Denoting base pool X xs s) : Denoting s.code s.consts X [] s where
  low := le_rfl
  kept consts := by rw [List.take_length]
  denotes := by rw [List.drop_length]; rfl
  pool := List.prefix_refl _
  defined i hi := by
    rw [List.drop_length] at hi
    cases hi
  held := h.held
  frames := h.frames

/-- What a computation leaves, whether it fails or not. -/
theorem Emits.final {α : Type} {x : Lower α} {xs ys : List Immediate} (hx : Emits pool X xs ys x)
    {base : List CuOp} {zs : List Immediate} {s : LState} (hs : Denoting base pool X zs s) :
    ∃ vs, Denoting base pool X vs (final (x s)) := by
  obtain ⟨hok, herr⟩ := hx base zs s hs
  cases hr : x s with
  | ok a t => exact ⟨_, hok a t hr⟩
  | error e t =>
    obtain ⟨ws, -, ht⟩ := herr e t hr
    exact ⟨_, ht⟩

/-- What an operator leaves: all its immediates if it succeeds, the first one if it is certain. -/
theorem operator_result (hd : Structured.Describes env C)
    (hshort : ∀ ft ∈ C.types, ft.1.length ≤ 8 ∧ ft.2.length ≤ 8) (o : Operator)
    (hscratch : o.isBrTable = true → env.scratch = some scratch) {base : List CuOp} {s : LState}
    (hs : Denoting base pool X [] s) :
    ∃ ws, Denoting base pool X ws (final (operator env o s)) ∧
      ws <+: o.cut.immediates C env.nImports scratch ∧
      ((∃ t, operator env o s = .ok () t) → ws = o.cut.immediates C env.nImports scratch) ∧
      (o.Certain → ws.head? = (o.cut.immediates C env.nImports scratch).head?) := by
  obtain ⟨hok, herr⟩ := operator_emits hd hshort o hscratch base [] s hs
  cases hr : operator env o s with
  | ok a t => exact ⟨_, hok a t hr, List.prefix_refl _, fun _ => rfl, fun _ => rfl⟩
  | error e t =>
    by_cases ho : o.Certain
    · obtain ⟨x, ys, heq, hx⟩ := operator_certain ho hscratch
      obtain ⟨ws, hws, ht⟩ := (hx pool X base [] s hs).2 e t hr
      rw [heq]
      exact ⟨x :: ws, ht, (List.prefix_cons_inj x).mpr hws, fun ⟨_, h⟩ => (by cases h), fun _ => rfl⟩
    · obtain ⟨ws, hws, ht⟩ := herr e t hr
      exact ⟨ws, ht, hws, fun ⟨_, h⟩ => (by cases h), fun h => absurd h ho⟩

end

end Lower

end CuWasm
