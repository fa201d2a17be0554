import CuWasm.Jumps
import CuWasm.Proofs.PassProofs
import CuWasm.Proofs.StructuredProofs

/-!
# The jumps of a pass

On every sequence of operators, a jump of the pass waits in its books, has been forgotten by a second
`else`, or has its target: forward, or back to the start of a loop, and at most the end of the code.
The scan of the operators follows the open blocks, so it knows which of these cases there are.
-/

namespace CuWasm

open Wasm Exit

namespace Lower

/-- What the scan sees of an open block. -/
def scope (c : Ctrl) : Scope := ⟨c.kind, c.hasElse, !c.patches.isEmpty⟩

/-- The jump at `q` will be patched: it is in `X`, or an open block remembers it. -/
def Waits (X : List Nat) (ctrl : List Ctrl) (q : Nat) : Prop :=
  q ∈ X ∨ ∃ c ∈ ctrl, q ∈ c.patches ∨ c.elseBr = some q ∨ c.brIfNot = some q ∧ c.hasElse = false

/-- A jump stands at `p`. -/
def JumpAt (code : List CuOp) (p : Nat) : Prop := opAt code p = some .br ∨ opAt code p = some .brIfNot

/-- The jump `i` at `q` has its target, in code from `n` to `len`; only if `e` it is the end. -/
structure Leads (n : Nat) (H : Nat → Prop) (e : Bool) (len q : Nat) (i : CuOp) : Prop where
  low : n ≤ i.b
  high : i.b < len ∨ e = true ∧ i.b = len
  back : q < i.b ∨ i.op = .br ∧ H i.b

/-- What the books say about an open block fits its kind. -/
structure Booked (n : Nat) (H : Nat → Prop) (len : Nat) (c : Ctrl) : Prop where
  elseBr : c.hasElse = true ↔ c.elseBr.isSome
  brIfNot : c.kind = .if_ → c.brIfNot.isSome
  alien : c.kind ≠ .if_ → c.elseBr = none
  start : c.kind = .loop → n ≤ c.start ∧ c.start ≤ len ∧ H c.start

/-- The invariant of a pass whose code starts at `n`: `H` holds at the starts of its loops, `F` of the
jumps it has forgotten, `x` is the scan so far, and the jumps in `X` are about to be patched. -/
structure JumpInv (n : Nat) (H F : Nat → Prop) (x : Scan) (X : List Nat) (s : LState) : Prop where
  low : n ≤ s.code.length
  held : ∀ p ∈ X, n ≤ p ∧ JumpAt s.code p
  scopes : s.ctrl.map scope = x.scopes
  frames : ∀ c ∈ s.ctrl, FrameOk n s.code c
  booked : ∀ c ∈ s.ctrl, Booked n H s.code.length c
  jumps : ∀ q i, n ≤ q → s.code[q]? = some i → i.IsJump →
    Waits X s.ctrl q ∨ F q ∨ Leads n H x.atEnd s.code.length q i
  ends : x.atEnd = true → ∃ q i, n ≤ q ∧ s.code[q]? = some i ∧ i.IsJump ∧ i.b = s.code.length
  drops : x.repeated = true → ∃ q, n ≤ q ∧ opAt s.code q = some .br ∧ F q

section

variable {n : Nat} {H F : Nat → Prop} {x : Scan} {X : List Nat} {s : LState}

theorem Waits.mono {Y : List Nat} {ctrl : List Ctrl} {q : Nat} (h : Waits X ctrl q) (hX : X ⊆ Y) :
    Waits Y ctrl q := h.imp_left fun hq => hX hq

theorem Booked.grow {len len' : Nat} {c : Ctrl} (h : Booked n H len c) (hle : len ≤ len') :
    Booked n H len' c where
  elseBr := h.elseBr
  brIfNot := h.brIfNot
  alien := h.alien
  start hk := by
    obtain ⟨h1, h2, h3⟩ := h.start hk
    exact ⟨h1, h2.trans hle, h3⟩

theorem JumpAt.append {code : List CuOp} {p : Nat} (h : JumpAt code p) (l : List CuOp) :
    JumpAt (code ++ l) p := h.imp (opAt_append · l) (opAt_append · l)

theorem JumpAt.patchB {code : List CuOp} {p : Nat} (h : JumpAt code p) (q t : Nat) :
    JumpAt (patchB code q t) p := by
  unfold JumpAt
  rwa [opAt_patchB]

theorem JumpAt.lt {code : List CuOp} {p : Nat} (h : JumpAt code p) : p < code.length := by
  rcases h with h | h
  · exact opAt_lt h
  · exact opAt_lt h

theorem JumpAt.get {code : List CuOp} {p : Nat} (h : JumpAt code p) :
    ∃ i, code[p]? = some i ∧ i.IsJump := by
  unfold JumpAt opAt at h
  rcases h with h | h
  · obtain ⟨i, hi, hop⟩ := Option.map_eq_some_iff.mp h
    exact ⟨i, hi, .inl hop⟩
  · obtain ⟨i, hi, hop⟩ := Option.map_eq_some_iff.mp h
    exact ⟨i, hi, .inr hop⟩

/-- Appending an instruction: a jump has its target already, or joins `X`. -/
theorem JumpInv.emit (h : JumpInv n H F x X s) (i : CuOp) {Y : List Nat} (hXY : X ⊆ Y)
    (hY : ∀ p ∈ Y, p ∈ X ∨ p = s.code.length ∧ i.IsJump)
    (hi : i.IsJump → s.code.length ∈ Y ∨ Leads n H false (s.code.length + 1) s.code.length i) :
    JumpInv n H F x.emit Y { s with code := s.code ++ [i] } where
  low := by
    rw [List.length_append]
    exact Nat.le_add_right_of_le h.low
  held p hp := by
    rcases hY p hp with hp | ⟨rfl, hjump⟩
    · exact (h.held p hp).imp_right (·.append _)
    · refine ⟨h.low, ?_⟩
      unfold JumpAt opAt
      rw [List.getElem?_concat_length]
      exact hjump.imp (congrArg some) (congrArg some)
  scopes := h.scopes
  frames c hc := (h.frames c hc).append _
  booked c hc := (h.booked c hc).grow (by rw [List.length_append]; exact Nat.le_add_right _ _)
  jumps q j hq hj hjump := by
    rw [List.length_append, List.length_singleton]
    rcases Nat.lt_or_ge q s.code.length with hlt | hge
    · rw [List.getElem?_append_left hlt] at hj
      rcases h.jumps q j hq hj hjump with hw | hF | hl
      · exact .inl (hw.mono hXY)
      · exact .inr (.inl hF)
      · refine .inr (.inr ⟨hl.low, .inl ?_, hl.back⟩)
        rcases hl.high with hb | ⟨-, hb⟩
        · omega
        · omega
    · have hlen : q = s.code.length := by
        have := (List.getElem?_eq_some_iff.mp hj).1
        simp only [List.length_append, List.length_singleton] at this
        omega
      subst hlen
      rw [List.getElem?_concat_length] at hj
      cases hj
      rcases hi hjump with hmem | hl
      · exact .inl (.inl hmem)
      · exact .inr (.inr hl)
  ends he := by cases he
  drops hr := by
    obtain ⟨q, h1, h2, h3⟩ := h.drops hr
    exact ⟨q, h1, opAt_append h2 _, h3⟩

/-- Patching the first jump of `X`. -/
theorem JumpInv.patch {p t : Nat} {e : Bool} (h : JumpInv n H F x (p :: X) s) (hfwd : p < t)
    (ht : t < s.code.length ∧ e = false ∧ x.atEnd = false ∨ t = s.code.length ∧ e = true) :
    JumpInv n H F { x with atEnd := e } X { s with code := patchB s.code p t } where
  low := by
    rw [patchB_length]
    exact h.low
  held q hq := (h.held q (.tail _ hq)).imp_right (·.patchB p t)
  scopes := h.scopes
  frames c hc := (h.frames c hc).patchB p t
  booked c hc := (h.booked c hc).grow (patchB_length ..).ge
  jumps q j hq hj hqj := by
    rw [patchB_length]
    rw [patchB_get] at hj
    by_cases hpq : p = q
    · subst hpq
      rw [if_pos rfl] at hj
      obtain ⟨i, -, rfl⟩ := Option.map_eq_some_iff.mp hj
      refine .inr (.inr ⟨hq.trans hfwd.le, ?_, .inl hfwd⟩)
      rcases ht with ⟨h1, -, -⟩ | ⟨h1, h2⟩
      · exact .inl h1
      · exact .inr ⟨h2, h1⟩
    · rw [if_neg hpq] at hj
      rcases h.jumps q j hq hj hqj with hw | hF | hl
      · refine .inl (hw.imp_left fun hmem => ?_)
        exact (List.mem_cons.mp hmem).resolve_left (Ne.symm hpq)
      · exact .inr (.inl hF)
      · refine .inr (.inr ⟨hl.low, ?_, hl.back⟩)
        rcases ht with ⟨-, -, h3⟩ | ⟨-, h2⟩
        · rcases hl.high with hb | ⟨he, -⟩
          · exact .inl hb
          · rw [h3] at he
            cases he
        · exact hl.high.imp_right fun hb => ⟨h2, hb.2⟩
  ends he := by
    obtain ⟨hp, hjump⟩ := h.held p (.head _)
    obtain ⟨i, hi, hij⟩ := hjump.get
    rcases ht with ⟨-, h2, -⟩ | ⟨h1, -⟩
    · rw [h2] at he
      cases he
    · refine ⟨p, { i with b := t }, hp, ?_, hij, ?_⟩
      · rw [patchB_get, if_pos rfl, hi]
        rfl
      · rw [patchB_length]
        exact h1
  drops hr := by
    obtain ⟨q, h1, h2, h3⟩ := h.drops hr
    exact ⟨q, h1, by rw [opAt_patchB]; exact h2, h3⟩

/-- Changing what the pass tracks besides code and blocks. -/
theorem JumpInv.track (h : JumpInv n H F x X s) (consts : List Slot) (k : Nat) (dead : Bool) :
    JumpInv n H F x X { s with consts := consts, h := k, dead := dead } :=
  ⟨h.1, h.2, h.3, h.4, h.5, h.6, h.7, h.8⟩

/-- Changing the open blocks: what waits goes on waiting, or is forgotten. -/
theorem JumpInv.ctrl (h : JumpInv n H F x X s) {Y : List Nat} {ctrl : List Ctrl}
    {scopes : List Scope} (hs : ctrl.map scope = scopes)
    (hf : ∀ c ∈ ctrl, FrameOk n s.code c ∧ Booked n H s.code.length c)
    (hY : ∀ p ∈ Y, n ≤ p ∧ JumpAt s.code p) (hw : ∀ q, Waits X s.ctrl q → Waits Y ctrl q ∨ F q) :
    JumpInv n H F { x with scopes := scopes } Y { s with ctrl := ctrl } where
  low := h.low
  held := hY
  scopes := hs
  frames c hc := (hf c hc).1
  booked c hc := (hf c hc).2
  jumps q i hq hi hjump := by
    rcases h.jumps q i hq hi hjump with h1 | h1 | h1
    · exact (hw q h1).imp_right .inl
    · exact .inr (.inl h1)
    · exact .inr (.inr h1)
  ends := h.ends
  drops := h.drops

/-- Forgetting a jump. -/
theorem JumpInv.drop (h : JumpInv n H F x X s) {r : Bool}
    (hr : r = true → x.repeated = true ∨ ∃ q, n ≤ q ∧ opAt s.code q = some .br ∧ F q) :
    JumpInv n H F { x with repeated := r } X s :=
  ⟨h.1, h.2, h.3, h.4, h.5, h.6, h.7, fun hx => (hr hx).elim h.drops id⟩

end

/-! ## The operations of the pass -/

section

variable (n : Nat) (H F : Nat → Prop) (X : List Nat)

/-- If the computation succeeds, the scan has gone from `x` to `y`. -/
def Scans {α : Type} (x : Scan) (m : Lower α) (y : Scan) : Prop :=
  Spec (JumpInv n H F x X) m (fun _ => JumpInv n H F y X) fun _ _ => True

variable {n H F X} {x y z : Scan}

theorem Scans.bind {α β : Type} {m : Lower α} {g : α → Lower β} (h : Scans n H F X x m y)
    (hg : ∀ a, Scans n H F X y (g a) z) : Scans n H F X x (m >>= g) z := Spec.bind h hg

theorem Scans.pure {α : Type} (a : α) : Scans n H F X x (pure a : Lower α) x := Spec.pure fun _ h => h

theorem Scans.throw {α : Type} (e : String) : Scans n H F X x (throw e : Lower α) y :=
  Spec.throw fun _ _ => trivial

theorem Scans.guard {c : Prop} [Decidable c] {α : Type} {e : String} {k : PUnit → Lower α}
    (hk : Scans n H F X x (k ⟨⟩) y) :
    Scans n H F X x (if c then Bind.bind (MonadExcept.throw e) k else k ⟨⟩) y :=
  Spec.guard (fun _ _ _ => trivial) fun _ => hk

theorem ofExcept_scans {α : Type} (r : Except String α) : Scans n H F X x (ofExcept r) x := by
  cases r with
  | ok a => exact Scans.pure a
  | error e => exact Scans.throw e

theorem emit_scans (op : Opcode) (a b : Nat) (hop : op ≠ .br ∧ op ≠ .brIfNot) :
    Scans n H F X x (emit op a b) x.emit := by
  intro s hs
  refine ⟨fun p t h => ?_, fun _ _ _ => trivial⟩
  cases h
  refine hs.emit _ (List.Subset.refl X) (fun p hp => .inl hp) fun hjump => ?_
  rcases hjump with hj | hj
  · exact absurd hj hop.1
  · exact absurd hj hop.2

/-- A jump without a target joins `X`. -/
theorem hold_scans (op : Opcode) (hop : op = .br ∨ op = .brIfNot) :
    Spec (JumpInv n H F x X) (emit op 0 0)
      (fun p s => JumpInv n H F x.emit (p :: X) s ∧ opAt s.code p = some op) fun _ _ => True := by
  intro s hs
  refine ⟨fun p t h => ?_, fun _ _ _ => trivial⟩
  cases h
  refine ⟨hs.emit _ (List.subset_cons_self ..) (fun q hq => ?_) fun _ => .inl (.head _), ?_⟩
  · rcases List.mem_cons.mp hq with rfl | hq
    · exact .inr ⟨rfl, hop⟩
    · exact .inl hq
  · unfold opAt
    rw [List.getElem?_concat_length]
    rfl

/-- Patching the first jump of `X` with the end of the code. -/
theorem patchHere_scans (p : Nat) :
    Spec (JumpInv n H F x (p :: X)) (do patch p (← get).code.length)
      (fun _ => JumpInv n H F x.patch X) fun _ _ => True := by
  refine Spec.get_bind fun s hs => ?_
  rintro _ rfl
  refine ⟨fun _ t h => ?_, fun _ _ _ => trivial⟩
  cases h
  exact hs.patch (hs.held p (.head _)).2.lt (.inr ⟨rfl, rfl⟩)

theorem intern_scans (v : Slot) : Scans n H F X x (intern v) x := by
  intro s hs
  rw [Structured.intern_apply]
  refine ⟨fun _ t h => ?_, fun _ _ _ => trivial⟩
  cases h
  exact hs.track _ _ _

theorem consume_scans (pops pushes : Nat) : Scans n H F X x (consume pops pushes) x := by
  intro s hs
  rw [Structured.consume_apply]
  refine ⟨fun _ t h => ?_, fun _ _ _ => trivial⟩
  split_ifs at h
  · cases h
    exact hs
  · cases h
    exact hs.track _ _ _

theorem plain_scans (op : Opcode) (a b pops pushes : Nat) (hop : op ≠ .br ∧ op ≠ .brIfNot) :
    Scans n H F X x (plain op a b pops pushes) x.emit :=
  (emit_scans op a b hop).bind fun _ => consume_scans pops pushes

theorem markDead_scans : Scans n H F X x markDead x := Spec.modify fun s hs => hs.track s.consts s.h true

/-! ### Branches -/

theorem scope_record {c : Ctrl} (hk : c.kind ≠ .loop) (p : Nat) :
    scope { c with patches := c.patches ++ [p] } =
      { scope c with jumped := (scope c).jumped || (scope c).kind != .loop } := by
  have hne : (c.kind != .loop) = true := bne_iff_ne.mpr hk
  unfold scope
  simp only [hne, Bool.or_true, Scope.mk.injEq, true_and]
  cases c.patches <;> rfl

theorem scope_loop {c : Ctrl} (hk : c.kind = .loop) :
    { scope c with jumped := (scope c).jumped || (scope c).kind != .loop } = scope c := by
  have hne : (c.kind != .loop) = false := by rw [hk]; rfl
  unfold scope
  simp only [hne, Bool.or_false]

/-- Recording a jump in the block `idx` levels out. -/
theorem scopes_record {ctrl : List Ctrl} {idx p : Nat} {c : Ctrl} (hc : ctrl[idx]? = some c)
    (hk : c.kind ≠ .loop) (hx : ctrl.map scope = x.scopes) :
    (ctrl.modify idx fun c => { c with patches := c.patches ++ [p] }).map scope =
      (x.jump idx).scopes := by
  unfold Scan.jump
  rw [← hx]
  refine List.ext_getElem? fun k => ?_
  simp only [List.getElem?_map, List.getElem?_modify]
  by_cases hik : idx = k
  · subst hik
    simp only [hc, if_true, Option.map_eq_map, Option.map_some]
    rw [scope_record hk]
  · cases ctrl[k]? with
    | none => rfl
    | some d => simp only [hik, if_false, Option.map_eq_map, Option.map_some]

/-- A jump back to a loop leaves the blocks as they are. -/
theorem scopes_loop {ctrl : List Ctrl} {idx : Nat} {c : Ctrl} (hc : ctrl[idx]? = some c)
    (hk : c.kind = .loop) (hx : ctrl.map scope = x.scopes) :
    ctrl.map scope = (x.jump idx).scopes := by
  unfold Scan.jump
  rw [← hx]
  refine List.ext_getElem? fun k => ?_
  simp only [List.getElem?_map, List.getElem?_modify]
  by_cases hik : idx = k
  · subst hik
    simp only [hc, if_true, Option.map_eq_map, Option.map_some]
    rw [scope_loop hk]
  · cases ctrl[k]? with
    | none => rfl
    | some d => simp only [hik, if_false, Option.map_eq_map, Option.map_some]

theorem waits_record {ctrl : List Ctrl} {idx p q : Nat} {c : Ctrl} (hc : ctrl[idx]? = some c)
    (h : Waits (p :: X) ctrl q) :
    Waits X (ctrl.modify idx fun c => { c with patches := c.patches ++ [p] }) q := by
  have hmem {k : Nat} {d : Ctrl} (hd : ctrl[k]? = some d) :
      (if idx = k then { d with patches := d.patches ++ [p] } else d) ∈
        ctrl.modify idx fun c => { c with patches := c.patches ++ [p] } := by
    refine List.mem_iff_getElem?.mpr ⟨k, ?_⟩
    rw [List.getElem?_modify, hd]
    rfl
  rcases h with hq | ⟨d, hd, hq⟩
  · rcases List.mem_cons.mp hq with rfl | hq
    · refine .inr ⟨_, hmem hc, .inl ?_⟩
      rw [if_pos rfl]
      exact List.mem_append_right _ (.head _)
    · exact .inl hq
  · obtain ⟨k, hk⟩ := List.mem_iff_getElem?.mp hd
    refine .inr ⟨_, hmem hk, ?_⟩
    split_ifs
    · exact hq.imp_left fun h => List.mem_append_left _ h
    · exact hq

theorem emitJump_scans (idx : Nat) (c : Ctrl) :
    Spec (fun s => JumpInv n H F x X s ∧ s.ctrl[idx]? = some c) (emitJump idx c)
      (fun _ => JumpInv n H F (x.jump idx) X) fun _ _ => True := by
  intro s hs
  obtain ⟨hs, hc⟩ := hs
  have hmem := List.mem_of_getElem? hc
  unfold emitJump
  simp only [ite_run, bind_apply, Structured.emit_apply, modify_apply]
  refine ⟨fun _ t h => ?_, fun _ _ _ => trivial⟩
  split_ifs at h with hk
  · cases h
    obtain ⟨h1, h2, h3⟩ := (hs.booked c hmem).start hk
    have hjump := hs.emit ⟨.br, 0, c.start⟩ (List.Subset.refl X) (fun p hp => .inl hp)
      fun _ => .inr ⟨h1, .inl (Nat.lt_succ_of_le h2), .inr ⟨rfl, h3⟩⟩
    exact hjump.ctrl (scopes_loop hc hk hs.scopes)
      (fun d hd => ⟨hjump.frames d hd, hjump.booked d hd⟩) hjump.held fun q hq => .inl hq
  · cases h
    have hhold := hs.emit ⟨.br, 0, 0⟩ (List.subset_cons_self s.code.length X)
      (fun q hq => (List.mem_cons.mp hq).symm.imp_right fun h => ⟨h, .inl rfl⟩)
      fun _ => .inl (.head _)
    refine hhold.ctrl (scopes_record hc hk hs.scopes) (fun d hd => ?_)
      (fun q hq => hhold.held q (.tail _ hq)) fun q hq => .inl (waits_record hc hq)
    rcases mem_record hd with hd | ⟨d', hd', rfl⟩
    · exact ⟨hhold.frames d hd, hhold.booked d hd⟩
    · have hf := hhold.frames d' hd'
      have hb := hhold.booked d' hd'
      refine ⟨⟨fun q hq => ?_, hf.elseBr, hf.brIfNot, hf.kind⟩,
        ⟨hb.elseBr, hb.brIfNot, hb.alien, hb.start⟩⟩
      rcases List.mem_append.mp hq with hq | hq
      · exact hf.patches q hq
      · cases List.mem_singleton.mp hq
        refine ⟨hs.low, ?_⟩
        unfold opAt
        rw [List.getElem?_concat_length]
        rfl

theorem emitUnwind_scans (env : LowerEnv) (idx : Nat) (c : Ctrl) :
    Spec (fun s => JumpInv n H F x X s ∧ s.ctrl[idx]? = some c)
      (do emitUnwind env c; emitJump idx c)
      (fun _ => JumpInv n H F (x.jump idx) X) fun _ _ => True := by
  intro s hs
  rw [bind_apply, Structured.emitUnwind_apply]
  split_ifs
  · exact ⟨fun _ _ h => (by cases h), fun _ _ _ => trivial⟩
  · have hemit := hs.1.emit
      ⟨.unwind, labelArity c, env.nParams + env.nLocals + (c.base + labelArity c)⟩
      (List.Subset.refl X) (fun p hp => .inl hp) fun h => by rcases h with h | h <;> cases h
    exact emitJump_scans (x := x.emit) idx c _ ⟨hemit, hs.2⟩
  · exact emitJump_scans idx c s hs

theorem branch_scans (env : LowerEnv) (depth : Nat) :
    Scans n H F X x (branch env depth) (x.jump depth) := by
  refine Spec.bind (Q := fun c s => JumpInv n H F x X s ∧ s.ctrl[depth]? = some c) ?_ fun c => ?_
  · refine Spec.get_bind fun s hs => ?_
    split
    · exact Spec.throw fun _ _ => trivial
    · rename_i c hc
      exact Spec.pure fun t ht => by rw [ht]; exact ⟨hs, hc⟩
  · refine Spec.get_bind fun s hs => ?_
    refine Spec.ite (fun _ => ?_) fun _ => ?_
    · exact (emitUnwind_scans env depth c).mono (fun _ h => h ▸ hs) (fun _ _ h => h) fun _ _ h => h
    · exact (emitJump_scans depth c).mono (fun _ h => h ▸ hs) (fun _ _ h => h) fun _ _ h => h

/-- A branch behind a `BR_IF_NOT` that skips it. -/
theorem skip_scans (env : LowerEnv) (depth : Nat) :
    Scans n H F X x (do
      let skip ← emit .brIfNot 0 0
      branch env depth
      patch skip (← get).code.length) (x.jump depth).patch := by
  refine Spec.bind (hold_scans .brIfNot (.inr rfl)) fun p => ?_
  refine Spec.bind (Q := fun _ => JumpInv n H F (x.jump depth) (p :: X)) ?_
    fun _ => patchHere_scans p
  exact (branch_scans (x := x.emit) env depth).mono (fun _ h => h.1) (fun _ _ h => h) fun _ _ h => h

/-- A jump does not ask what the jumps before it have left at the end of the code. -/
theorem foldl_jump (targets : List Nat) (x : Scan) (e e' : Bool) :
    { targets.foldl Scan.jump { x with atEnd := e } with atEnd := e' } =
      { targets.foldl Scan.jump x with atEnd := e' } := by
  cases targets <;> rfl

/-- The comparisons of a `br_table`. -/
theorem brTableArms_scans (env : LowerEnv) (scratch i : Nat) (targets : List Nat) :
    Spec (JumpInv n H F x X) (brTableArms env scratch i targets)
      (fun _ s => ∃ e, JumpInv n H F { targets.foldl Scan.jump x with atEnd := e } X s)
      fun _ _ => True := by
  induction targets generalizing x i with
  | nil => exact Spec.pure fun _ h => ⟨x.atEnd, h⟩
  | cons depth depths ih =>
    refine Spec.bind (intern_scans _) fun idxc => ?_
    refine Spec.bind (plain_scans _ _ _ _ _ (by decide)) fun _ => ?_
    refine Spec.bind (plain_scans _ _ _ _ _ (by decide)) fun _ => ?_
    refine Spec.bind (plain_scans _ _ _ _ _ (by decide)) fun _ => ?_
    refine Spec.bind (consume_scans 1 0) fun _ => ?_
    refine Spec.bind (hold_scans .brIfNot (.inr rfl)) fun p => ?_
    refine Spec.bind (Q := fun _ => JumpInv n H F (x.jump depth) (p :: X)) ?_ fun _ => ?_
    · exact (branch_scans (x := x.emit) env depth).mono (fun _ h => h.1) (fun _ _ h => h)
        fun _ _ h => h
    · refine Spec.get_bind fun s hs => ?_
      refine Spec.bind (Q := fun _ => JumpInv n H F (x.jump depth).patch X) ?_ fun _ => ?_
      · rintro t rfl
        exact patchHere_scans p t hs
      · refine (ih (i + 1)).mono (fun _ h => h) (fun _ t ht => ?_) fun _ _ h => h
        obtain ⟨e, he⟩ := ht
        refine ⟨e, ?_⟩
        have hfold := foldl_jump depths (x.jump depth) true e
        rw [List.foldl_cons, ← hfold]
        exact he

theorem brTableArm_scans (env : LowerEnv) (targets : List Nat) (default : Nat) :
    Scans n H F X x (brTableArm env targets default) ((targets.foldl Scan.jump x).jump default) := by
  unfold brTableArm
  split
  · exact Scans.throw _
  · refine (plain_scans _ _ _ _ _ (by decide)).bind fun _ => ?_
    refine Spec.bind (brTableArms_scans env _ 0 targets) fun _ => ?_
    refine Spec.bind (Q := fun _ => JumpInv n H F ((targets.foldl Scan.jump x).jump default) X) ?_
      fun _ => markDead_scans
    rintro s ⟨e, hs⟩
    have hfold := foldl_jump targets x false e
    have hs' : JumpInv n H F { targets.foldl Scan.jump x with atEnd := e } X s := by
      rw [← hfold]
      exact hs
    exact branch_scans (x := { targets.foldl Scan.jump x with atEnd := e }) env default s hs'

/-! ### Blocks -/

/-- A block opens; the `BR_IF_NOT` of an `if` goes over to the block. -/
theorem pushCtrl_scans (kind : CtrlKind) (np nr : Nat) (pc : Option Nat)
    (hk : kind = .if_ ↔ pc.isSome = true) :
    Spec (fun s => JumpInv n H F x (pc.toList ++ X) s ∧ (kind = .loop → H s.code.length) ∧
        ∀ p, pc = some p → opAt s.code p = some .brIfNot)
      (pushCtrl kind np nr pc) (fun _ => JumpInv n H F (x.enter kind) X) fun _ _ => True := by
  intro s hs
  obtain ⟨hs, hloop, hop⟩ := hs
  rw [Structured.pushCtrl_apply]
  refine ⟨fun _ t h => ?_, fun _ _ _ => trivial⟩
  split at h
  · cases h
  rename_i base _
  cases h
  show JumpInv n H F { x with scopes := { kind := kind } :: x.scopes } X _
  refine hs.ctrl ?_ (fun c hc => ?_)
    (fun p hp => hs.held p (List.mem_append_right _ hp)) fun q hq => .inl ?_
  · rw [List.map_cons, hs.scopes]
    rfl
  · rcases List.mem_cons.mp hc with rfl | hc
    · constructor
      · refine ⟨fun _ h => (by cases h), fun _ h => (by cases h), fun p hp => ⟨?_, hop p hp⟩,
          fun hne => ?_⟩
        · exact (hs.held p (List.mem_append_left _ (Option.mem_toList.mpr hp))).1
        · exact Option.not_isSome_iff_eq_none.mp (mt hk.mpr hne)
      · exact ⟨by simp, fun h => hk.mp h, fun _ => rfl, fun h => ⟨hs.low, le_rfl, hloop h⟩⟩
    · exact ⟨hs.frames c hc, hs.booked c hc⟩
  · rcases hq with hq | ⟨c, hc, hq⟩
    · rcases List.mem_append.mp hq with hq | hq
      · exact .inr ⟨_, .head _, .inr (.inr ⟨Option.mem_toList.mp hq, rfl⟩)⟩
      · exact .inl hq
    · exact .inr ⟨c, .tail _ hc, hq⟩

theorem scope_scans (env : LowerEnv) (ty : BlockType) (kind : CtrlKind) (hk : kind ≠ .if_) :
    Spec (fun s => JumpInv n H F x X s ∧ (kind = .loop → H s.code.length))
      (do
        let (np, nr) ← ofExcept (blockArity ty env.funcTypes)
        pushCtrl kind np nr)
      (fun _ => JumpInv n H F (x.enter kind) X) fun _ _ => True := by
  intro s hs
  rw [bind_apply, Structured.ofExcept_apply]
  cases blockArity ty env.funcTypes with
  | error e => exact ⟨fun _ _ h => (by cases h), fun _ _ _ => trivial⟩
  | ok a =>
    refine pushCtrl_scans kind a.1 a.2 none ?_ s ⟨hs.1, hs.2, fun _ h => by cases h⟩
    simp [hk]

theorem ifArm_scans (env : LowerEnv) (ty : BlockType) :
    Scans n H F X x (ifArm env ty) (x.emit.enter .if_) := by
  refine Spec.bind (ofExcept_scans _) fun a => ?_
  refine Spec.bind (consume_scans 1 0) fun _ => ?_
  refine Spec.bind (hold_scans .brIfNot (.inr rfl)) fun p => ?_
  refine (pushCtrl_scans .if_ a.1 a.2 (some p) (by simp)).mono (fun s hs => ?_) (fun _ _ h => h)
    fun _ _ h => h
  refine ⟨hs.1, fun h => (by cases h), fun q hq => ?_⟩
  cases hq
  exact hs.2

/-- The state behind an `else`, up to the height. -/
theorem else_scans {s : LState} {c : Ctrl} {rest : List Ctrl} {pc : Nat} (hs : JumpInv n H F x X s)
    (hctrl : s.ctrl = c :: rest) (hk : c.kind = .if_) (hpc : c.brIfNot = some pc)
    (hF : ∀ q, c.elseBr = some q → F q) :
    JumpInv n H F x.alternative X { s with
      code := patchB (s.code ++ [⟨.br, 0, 0⟩]) pc (s.code.length + 1)
      ctrl := { c with elseBr := some s.code.length, hasElse := true } :: rest } := by
  have hc : c ∈ s.ctrl := by rw [hctrl]; exact .head _
  have hrest : ∀ d ∈ rest, d ∈ s.ctrl := fun d hd => by rw [hctrl]; exact .tail _ hd
  have hif := (hs.frames c hc).brIfNot pc hpc
  have hscopes : scope c :: rest.map scope = x.scopes := by
    rw [← hs.scopes, hctrl]
    rfl
  -- the jump over the else arm
  have hemit := hs.emit ⟨.br, 0, 0⟩ (List.subset_cons_self s.code.length X)
    (fun q hq => (List.mem_cons.mp hq).symm.imp_right fun h => ⟨h, .inl rfl⟩) fun _ => .inl (.head _)
  have hopen : ({ c with elseBr := some s.code.length, hasElse := true } :: rest).map scope =
      { scope c with hasElse := true } :: rest.map scope := rfl
  have hblock := hemit.ctrl (Y := pc :: X) hopen ?_ ?_ ?_
  · -- the `if` leads behind it
    have hpatch := hblock.patch (t := s.code.length + 1) (e := true)
      (Nat.lt_succ_of_lt (opAt_lt hif.2)) (.inr ⟨by rw [List.length_append]; rfl, rfl⟩)
    have hdrop := hpatch.drop (r := x.repeated || c.hasElse) fun hr => ?_
    · unfold Scan.alternative
      rw [← hscopes]
      exact hdrop
    · rcases Bool.or_eq_true_iff.mp hr with hr | hr
      · exact .inl hr
      · obtain ⟨q, hq⟩ := Option.isSome_iff_exists.mp ((hs.booked c hc).elseBr.mp hr)
        have hbr := (hs.frames c hc).elseBr q hq
        refine .inr ⟨q, hbr.1, ?_, hF q hq⟩
        rw [opAt_patchB]
        exact opAt_append hbr.2 _
  · intro d hd
    rcases List.mem_cons.mp hd with rfl | hd
    · have hf := hemit.frames c hc
      have hb := hemit.booked c hc
      refine ⟨⟨hf.patches, fun q hq => ?_, hf.brIfNot, hf.kind⟩,
        ⟨by simp, hb.brIfNot, fun hne => absurd hk hne, hb.start⟩⟩
      cases hq
      refine ⟨hs.low, ?_⟩
      unfold opAt
      rw [List.getElem?_concat_length]
      rfl
    · exact ⟨hemit.frames d (hrest d hd), hemit.booked d (hrest d hd)⟩
  · intro q hq
    rcases List.mem_cons.mp hq with rfl | hq
    · exact ⟨hif.1, .inr (opAt_append hif.2 _)⟩
    · exact hemit.held q (.tail _ hq)
  · intro q hq
    rcases hq with hq | ⟨d, hd, hq⟩
    · rcases List.mem_cons.mp hq with rfl | hq
      · exact .inl (.inr ⟨_, .head _, .inr (.inl rfl)⟩)
      · exact .inl (.inl (.tail _ hq))
    · have hd' : d ∈ c :: rest := by rw [← hctrl]; exact hd
      rcases List.mem_cons.mp hd' with rfl | hd'
      · rcases hq with hq | hq | ⟨hq, -⟩
        · exact .inl (.inr ⟨_, .head _, .inl hq⟩)
        · exact .inr (hF q hq)
        · rw [hpc] at hq
          cases hq
          exact .inl (.inl (.head _))
      · exact .inl (.inr ⟨d, .tail _ hd', hq⟩)

/-- An `else`; the jump of an earlier `else` of the same `if` is forgotten. -/
theorem elseArm_scans :
    Spec (fun s => JumpInv n H F x X s ∧
        ∀ c rest q, s.ctrl = c :: rest → c.kind = .if_ → c.elseBr = some q → F q)
      elseArm (fun _ => JumpInv n H F x.alternative X) fun _ _ => True := by
  intro s hs
  obtain ⟨hs, hF⟩ := hs
  refine ⟨fun _ t h => ?_, fun _ _ _ => trivial⟩
  unfold elseArm at h
  cases hctrl : s.ctrl with
  | nil =>
    simp only [bind_apply, get_apply, hctrl] at h
    cases h
  | cons c rest =>
    by_cases hk : c.kind = .if_
    · obtain ⟨pc, hpc⟩ := Option.isSome_iff_exists.mp
        ((hs.booked c (by rw [hctrl]; exact .head _)).brIfNot hk)
      have happly := Structured.elseArm_apply s hctrl hk hpc
      unfold elseArm at happly
      rw [happly] at h
      cases h
      exact (else_scans hs hctrl hk hpc fun q => hF c rest q hctrl hk).track _ _ _
    · simp only [bind_apply, get_apply, hctrl, ite_run, if_pos hk] at h
      cases h

/-- The jumps that the end of a block patches. -/
def due (c : Ctrl) : List Nat :=
  (if c.kind = .if_ then if c.hasElse then c.elseBr.toList else c.brIfNot.toList else []) ++ c.patches

theorem endPatches_eq (c : Ctrl) (joinPc : Nat) :
    endPatches c joinPc = (due c).forM fun p => patch p joinPc := by
  have hcons (p : Nat) (ps : List Nat) : ((p :: ps).forM fun p => patch p joinPc) =
      (patch p joinPc >>= fun _ => ps.forM fun p => patch p joinPc) := rfl
  unfold endPatches due
  split_ifs
  · cases c.elseBr with
    | none => rfl
    | some br => exact (hcons br c.patches).symm
  · cases c.brIfNot with
    | none => rfl
    | some br => exact (hcons br c.patches).symm
  · rfl

/-- Leaving a block: its jumps are about to be patched. -/
theorem JumpInv.pop {s : LState} {c : Ctrl} {rest : List Ctrl} (hs : JumpInv n H F x X s)
    (hctrl : s.ctrl = c :: rest) :
    JumpInv n H F { x with scopes := rest.map scope } (due c ++ X) { s with ctrl := rest } := by
  have hc : c ∈ s.ctrl := by rw [hctrl]; exact .head _
  have hrest : ∀ d ∈ rest, d ∈ s.ctrl := fun d hd => by rw [hctrl]; exact .tail _ hd
  have hf := hs.frames c hc
  have hb := hs.booked c hc
  refine hs.ctrl rfl (fun d hd => ⟨hs.frames d (hrest d hd), hs.booked d (hrest d hd)⟩)
    (fun p hp => ?_) fun q hq => .inl ?_
  · rcases List.mem_append.mp hp with hp | hp
    · rcases List.mem_append.mp hp with hp | hp
      · split_ifs at hp
        · exact (hf.elseBr p (Option.mem_toList.mp hp)).imp_right .inl
        · exact (hf.brIfNot p (Option.mem_toList.mp hp)).imp_right .inr
        · cases hp
      · exact (hf.patches p hp).imp_right .inl
    · exact hs.held p hp
  · rcases hq with hq | ⟨d, hd, hq⟩
    · exact .inl (List.mem_append_right _ hq)
    · rw [hctrl] at hd
      rcases List.mem_cons.mp hd with rfl | hd
      · refine .inl (List.mem_append_left _ ?_)
        rcases hq with hq | hq | ⟨hq, helse⟩
        · exact List.mem_append_right _ hq
        · have hk : d.kind = .if_ := by
            by_contra hk
            rw [hb.alien hk] at hq
            cases hq
          have helse : d.hasElse = true := hb.elseBr.mpr (by rw [hq]; rfl)
          refine List.mem_append_left _ ?_
          rw [if_pos hk, if_pos helse]
          exact Option.mem_toList.mpr hq
        · have hk : d.kind = .if_ := by
            by_contra hk
            rw [hf.kind hk] at hq
            cases hq
          refine List.mem_append_left _ ?_
          rw [if_pos hk, if_neg (by rw [helse]; decide)]
          exact Option.mem_toList.mpr hq
      · exact .inr ⟨d, hd, hq⟩

/-- Patching the jumps `ps` with `t`, which is the end of the code if `e`. -/
theorem dues_scans (ps : List Nat) (t : Nat) (e : Bool) (hx : e = false → x.atEnd = false) :
    Spec (fun s => JumpInv n H F x (ps ++ X) s ∧ (∀ p ∈ ps, p < t) ∧
        (t < s.code.length ∧ e = false ∨ t = s.code.length ∧ e = true))
      (ps.forM fun p => patch p t)
      (fun _ => JumpInv n H F { x with atEnd := x.atEnd || (e && !ps.isEmpty) } X)
      fun _ _ => True := by
  induction ps generalizing x with
  | nil =>
    refine Spec.pure fun s hs => ?_
    have hsame : { x with atEnd := x.atEnd || (e && !([] : List Nat).isEmpty) } = x := by
      simp
    rw [hsame]
    exact hs.1
  | cons p ps ih =>
    refine Spec.bind (Q := fun _ s => JumpInv n H F { x with atEnd := e } (ps ++ X) s ∧
      (∀ p ∈ ps, p < t) ∧ (t < s.code.length ∧ e = false ∨ t = s.code.length ∧ e = true)) ?_
      fun _ => ?_
    · refine Spec.modify fun s hs => ?_
      obtain ⟨hs, hlt, ht⟩ := hs
      refine ⟨hs.patch (hlt p (.head _)) (ht.imp_left fun h => ⟨h.1, h.2, hx h.2⟩),
        fun q hq => hlt q (.tail _ hq), ?_⟩
      rw [patchB_length]
      exact ht
    · refine (ih fun h => h).mono (fun _ h => h) (fun _ s hs => ?_) fun _ _ h => h
      have hsame : { x with atEnd := x.atEnd || (e && !(p :: ps).isEmpty) } =
          { x with atEnd := e || (e && !ps.isEmpty) } := by
        cases e with
        | true => simp
        | false => simp [hx rfl]
      rw [hsame]
      exact hs

/-- The patches of an `end` and what it does to the height. -/
theorem close_scans (c : Ctrl) (t : Nat) (e : Bool) (hx : e = false → x.atEnd = false) :
    Spec (fun s => JumpInv n H F x (due c ++ X) s ∧ (∀ p ∈ due c, p < t) ∧
        (t < s.code.length ∧ e = false ∨ t = s.code.length ∧ e = true))
      (do
        endPatches c t
        modify fun s => { s with h := c.base + c.nResults, dead := c.deadOnEntry })
      (fun _ => JumpInv n H F { x with atEnd := x.atEnd || (e && !(due c).isEmpty) } X)
      fun _ _ => True := by
  rw [endPatches_eq]
  exact Spec.bind (dues_scans (due c) t e hx) fun _ => Spec.modify fun s hs => hs.track _ _ _

theorem due_isEmpty {len : Nat} {c : Ctrl} (h : Booked n H len c) :
    (!(due c).isEmpty) = (c.kind == .if_ || !c.patches.isEmpty) := by
  unfold due
  by_cases hk : c.kind = .if_
  · obtain ⟨pc, hpc⟩ := Option.isSome_iff_exists.mp (h.brIfNot hk)
    have hne : ∃ p ps, (if c.hasElse then c.elseBr.toList else c.brIfNot.toList) = p :: ps := by
      split_ifs with helse
      · obtain ⟨br, hbr⟩ := Option.isSome_iff_exists.mp (h.elseBr.mp helse)
        exact ⟨br, [], by rw [hbr]; rfl⟩
      · exact ⟨pc, [], by rw [hpc]; rfl⟩
    obtain ⟨p, ps, heq⟩ := hne
    rw [if_pos hk, heq, beq_iff_eq.mpr hk]
    rfl
  · rw [if_neg hk, beq_eq_false_iff_ne.mpr hk]
    rfl

theorem endArm_scans (env : LowerEnv) : Scans n H F X x (endArm env) x.leave := by
  intro s hs
  refine ⟨fun _ t h => ?_, fun _ _ _ => trivial⟩
  unfold endArm at h
  cases hctrl : s.ctrl with
  | nil =>
    simp only [bind_apply, get_apply, hctrl] at h
    cases h
  | cons c rest =>
    have hpop := hs.pop hctrl
    have hb := hs.booked c (by rw [hctrl]; exact .head _)
    have hlt : ∀ p ∈ due c, p < s.code.length := fun p hp =>
      (hpop.held p (List.mem_append_left _ hp)).2.lt
    have hscopes : scope c :: rest.map scope = x.scopes := by
      rw [← hs.scopes, hctrl]
      rfl
    have hleave : x.leave = { x with
        scopes := rest.map scope
        atEnd := c.kind != .func && (x.atEnd || (c.kind == .if_ || !c.patches.isEmpty)) } := by
      unfold Scan.leave
      rw [← hscopes, ← Bool.or_assoc]
      rfl
    rw [hleave, ← due_isEmpty hb]
    by_cases hk : c.kind = .func
    · -- the jumps lead to the `OP_END_FUNC` that is emitted here
      simp only [bind_apply, get_apply, hctrl, modify_apply, if_pos hk, Structured.emit_apply] at h
      have hemit := hpop.emit ⟨.endFunc, env.nResults, 0⟩ (List.Subset.refl _) (fun p hp => .inl hp)
        fun hj => by rcases hj with hj | hj <;> cases hj
      have hclose := close_scans c s.code.length false (fun _ => rfl) _ ⟨hemit, hlt, .inl ⟨by
        rw [List.length_append]
        exact Nat.lt_succ_self _, rfl⟩⟩
      have hne : (c.kind != .func) = false := by rw [hk]; rfl
      rw [hne]
      exact hclose.1 () t h
    · simp only [bind_apply, get_apply, hctrl, modify_apply, if_neg hk, pure_apply] at h
      have hclose := close_scans c s.code.length true (fun h => by cases h) _
        ⟨hpop, hlt, .inr ⟨rfl, rfl⟩⟩
      rw [bne_iff_ne.mpr hk]
      exact hclose.1 () t h

/-! ### Operators -/

theorem NumOp.lower_no_jump (o : NumOp) : (NumOp.lower o).1 ≠ .br ∧ (NumOp.lower o).1 ≠ .brIfNot := by
  cases o <;> decide

theorem memArm_scans (mem : Nat) (op : Opcode) (a pops pushes : Nat) (hop : op ≠ .br ∧ op ≠ .brIfNot) :
    Scans n H F X x (memArm mem op a pops pushes) x.emit := by
  unfold memArm
  exact Scans.guard (plain_scans _ _ _ _ _ hop)

theorem callArm_scans (env : LowerEnv) (functionIndex : Nat) :
    Scans n H F X x (callArm env functionIndex) x.emit := by
  refine (ofExcept_scans _).bind fun a => ?_
  refine Spec.ite (fun _ => ?_) fun _ => plain_scans _ _ _ _ _ (by decide)
  split
  · exact Scans.throw _
  · exact plain_scans _ _ _ _ _ (by decide)

theorem callIndirectArm_scans (env : LowerEnv) (typeIndex tableIndex : Nat) :
    Scans n H F X x (callIndirectArm env typeIndex tableIndex) x.emit := by
  unfold callIndirectArm
  refine Scans.guard ?_
  split
  · exact Scans.throw _
  · exact plain_scans _ _ _ _ _ (by decide)

/-- An instruction behind which the code is dead. -/
theorem emitDead_scans (op : Opcode) (a b : Nat) (hop : op ≠ .br ∧ op ≠ .brIfNot) :
    Scans n H F X x (do
      let _ ← emit op a b
      markDead) x.emit := (emit_scans op a b hop).bind fun _ => markDead_scans

/-- An operator other than `loop` and `else`. -/
theorem operator_scans (env : LowerEnv) (o : Operator) (hloop : ∀ ty, o ≠ .loop ty)
    (helse : o ≠ .else_) : Scans n H F X x (operator env o) (x.step o) := by
  have hplain (op : Opcode) (a b pops pushes : Nat) (hop : op ≠ .br ∧ op ≠ .brIfNot) :=
    plain_scans (n := n) (H := H) (F := F) (X := X) (x := x) op a b pops pushes hop
  have hdead (op : Opcode) (a b : Nat) (hop : op ≠ .br ∧ op ≠ .brIfNot) :=
    emitDead_scans (n := n) (H := H) (F := F) (X := X) (x := x) op a b hop
  cases o with
  | nop => exact Scans.pure _
  | unreachable => exact hdead _ _ _ (by decide)
  | const c => exact (intern_scans _).bind fun _ => hplain _ _ _ _ _ (by decide)
  | drop => exact hplain _ _ _ _ _ (by decide)
  | select => exact hplain _ _ _ _ _ (by decide)
  | typedSelect t => exact hplain _ _ _ _ _ (by decide)
  | num o => exact hplain _ _ _ _ _ (NumOp.lower_no_jump o)
  | globalGet i => exact hplain _ _ _ _ _ (by decide)
  | globalSet i => exact hplain _ _ _ _ _ (by decide)
  | localGet i => exact hplain _ _ _ _ _ (by decide)
  | localSet i => exact hplain _ _ _ _ _ (by decide)
  | localTee i =>
    exact (emit_scans _ _ _ (by decide)).bind fun _ =>
      (emit_scans (x := x.emit) _ _ _ (by decide)).bind fun _ => Scans.pure _
  | block ty =>
    exact (scope_scans env ty .block (by decide)).mono (fun _ h => ⟨h, fun h => by cases h⟩)
      (fun _ _ h => h) fun _ _ h => h
  | loop ty => exact absurd rfl (hloop ty)
  | if_ ty => exact ifArm_scans env ty
  | else_ => exact absurd rfl helse
  | end_ => exact endArm_scans env
  | br depth => exact (branch_scans env depth).bind fun _ => markDead_scans
  | brIf depth => exact (consume_scans 1 0).bind fun _ => skip_scans env depth
  | brTable targets default => exact brTableArm_scans env targets default
  | return_ => exact hdead _ _ _ (by decide)
  | call fi => exact callArm_scans env fi
  | returnCall fi =>
    unfold operator
    exact Scans.guard (hdead _ _ _ (by decide))
  | callIndirect ti tab => exact callIndirectArm_scans env ti tab
  | load o ma => exact (ofExcept_scans _).bind fun _ => hplain _ _ _ _ _ (by decide)
  | store o ma => exact (ofExcept_scans _).bind fun _ => hplain _ _ _ _ _ (by decide)
  | memorySize mem => exact memArm_scans mem _ _ _ _ (by decide)
  | memoryGrow mem => exact memArm_scans mem _ _ _ _ (by decide)
  | memoryCopy dst src =>
    unfold operator
    exact Scans.guard (hplain _ _ _ _ _ (by decide))
  | memoryFill mem => exact memArm_scans mem _ _ _ _ (by decide)
  | memoryInit di mem => exact memArm_scans mem _ _ _ _ (by decide)
  | dataDrop di => exact (emit_scans _ _ _ (by decide)).bind fun _ => Scans.pure _
  | reinterpret r => exact consume_scans 1 1
  | refFunc i => exact Scans.throw _
  | refNull => exact Scans.throw _
  | other t => exact Scans.throw _

end

/-! ## Runs of the pass -/

section

variable {env : LowerEnv} {ops : List Operator} {init : LState} {n : Nat}

/-- The invariant, with the loops and the forgotten jumps of the pass over `ops`. -/
abbrev PassJumps (env : LowerEnv) (ops : List Operator) (init : LState) (n : Nat) (x : Scan)
    (s : LState) : Prop :=
  JumpInv n (LoopHeader env ops init) (Forgotten env ops init) x [] s

theorem comesTo_jumps {o : Operator} {x : Scan} {s t : LState} (hcomes : ComesTo env ops init o s)
    (hs : PassJumps env ops init n x s) (h : operator env o s = .ok () t) :
    PassJumps env ops init n (x.step o) t := by
  by_cases hloop : ∃ ty, o = .loop ty
  · obtain ⟨ty, rfl⟩ := hloop
    exact (scope_scans env ty .loop (by decide) s ⟨hs, fun _ => ⟨ty, s, hcomes, rfl⟩⟩).1 () t h
  by_cases helse : o = .else_
  · subst helse
    refine (elseArm_scans s ⟨hs, fun c rest q hctrl hk hq => ?_⟩).1 () t h
    exact ⟨s, c, rest, hcomes, hctrl, hk, hq⟩
  · exact (operator_scans env o (fun ty h => hloop ⟨ty, h⟩) helse s hs).1 () t h

/-- The invariant holds in front of every operator. -/
theorem operators_jumps {x : Scan} (hinit : PassJumps env ops init n x init) {pre : List Operator} :
    ∀ {post : List Operator} {s : LState}, ops = pre ++ post → operators env pre init = .ok () s →
      PassJumps env ops init n (pre.foldl Scan.step x) s := by
  induction pre using List.reverseRecOn with
  | nil =>
    intro post s _ h
    cases h
    exact hinit
  | append_singleton pre o ih =>
    intro post s hops h
    rw [Structured.operators_append] at h
    obtain ⟨⟨⟩, t, hpre, ho⟩ := bind_eq_ok h
    obtain ⟨⟨⟩, u, ho, hu⟩ := bind_eq_ok ho
    cases hu
    rw [List.append_assoc] at hops
    rw [List.foldl_append]
    exact comesTo_jumps ⟨pre, post, hops, hpre⟩ (ih hops hpre) ho

end

end Lower

end CuWasm
