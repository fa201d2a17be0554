import CuWasm.Proofs.SimulationProofs

/-!
# Translated code means what the module says

The operators in sequence, the blocks around them and the functions around those: the machine follows the
semantics through every body and every call.
-/

namespace CuWasm

open Exit Run Wasm Structured

/-! ## Blocks -/

section Blocks

variable {H : Type} {M : Module} {segs : List (List Byte)} {m : HostModule} {e : FuncMeta}
  {host : HostFn H} {env : LowerEnv} {L : List Label} {T : Nat → Nat} {ghost : Bool}
  {st st' stb : State} {is : Items} {A : Activation} {n nr t : Nat} {l : Label}
  {xs lo low ls ys : List Nat} {s : Wasm.Store H} {x y : Flat H} {o : Wasm.Outcome H}

theorem drop_base {b : Nat} (h : b ≤ lo.length) (low : List Nat) :
    (low ++ lo).drop ((low ++ lo).length - b) = lo.drop (lo.length - b) := by
  rw [List.length_append, List.drop_append, List.drop_eq_nil_of_le (by omega), List.nil_append]
  congr 1
  omega

/-- What leaves a block with the label `l`, seen from the sequence around it. The block ends at `stb.pc`,
from where the machine gets to its label at `t`. A branch to `l` leaves the block unless `l` is that of
a loop. -/
theorem arrives_leave (hlabel : (∃ zs ls s, o = .br 0 zs ls s) → l = ⟨none, (low ++ lo).length, nr⟩)
    (hbases : ∀ l ∈ L, l.base ≤ lo.length)
    (hend : ∀ ys ls s z, InFrame m A stb.pc ys ls s z →
      Eventually (hosted m e host) (InFrame m A t ys ls s) (fun r _ => Exhausted r) z)
    (hlive : st'.dead = false) (hpc : st'.pc = t) (hh : st'.h = (low ++ lo).length + nr)
    (h : Arrives m A (l :: L) (ends t T) stb (low ++ lo) o y) :
    FollowsBody m e host n (Arrives m A L T st' lo) (some (o.leave nr low)) y := by
  have hnext : ∀ (zs ls : List Nat) (s : Wasm.Store H) z, zs.length = nr →
      InFrame m A t (zs ++ (low ++ lo)) ls s z →
      Arrives m A L T st' lo (.next (zs ++ low) ls s) z := by
    intro zs ls s z hlen hz
    refine ⟨hlive, ?_, ?_⟩
    · rw [hh, List.append_assoc, @List.length_append _ zs, hlen, Nat.add_comm]
    · rwa [hpc, List.append_assoc]
  cases o with
  | next zs ls s =>
    obtain ⟨-, -, hz⟩ := h
    simp only [Wasm.Outcome.leave]
    split_ifs with hlen
    · exact (hend _ _ _ _ hz).mono (fun z hz => hnext zs ls s z hlen hz) fun _ _ hr => .inl hr
    · trivial
  | br k zs ls s =>
    obtain ⟨l', pc, hk, hz⟩ := h
    cases k with
    | zero =>
      cases hk
      obtain rfl := hlabel ⟨zs, ls, s, rfl⟩
      simp only [Wasm.Outcome.leave]
      split_ifs with hle
      · obtain ⟨hi, hin⟩ := hz hle
        rw [Nat.sub_self, List.drop_zero] at hin
        refine (hin.br (fun _ _ hr => .inl hr) hi).mono (fun z hz => ?_) fun _ _ hr => hr
        exact hnext _ ls s z (List.length_take_of_le hle) hz
      · trivial
    | succ k =>
      refine .now ⟨l', pc, hk, fun hle => ?_⟩
      obtain ⟨hi, hin⟩ := hz hle
      rw [drop_base (hbases l' (List.mem_of_getElem? hk))] at hin
      exact ⟨hi, hin⟩
  | ret zs s =>
    obtain ⟨pc, lo', ls, i, hi, hop, hin⟩ := h
    exact .now ⟨pc, lo', ls, i, hi, hop, hin⟩
  | tail fi zs s =>
    obtain ⟨hfi, pc, lo', ls, hi, hin⟩ := h
    exact .now ⟨hfi, pc, lo', ls, hi, hin⟩
  | trap | refused | wrong => exact h.elim

/-- What leaves a sequence, seen from the sequence around it. -/
theorem arrives_above (hbases : ∀ l ∈ L, l.base ≤ lo.length)
    (h : Arrives m A L T st' (low ++ lo) o y) : Arrives m A L T st' lo (o.above low) y := by
  cases o with
  | next zs ls s =>
    obtain ⟨hlive, hh, hin⟩ := h
    rw [← List.append_assoc] at hh hin
    exact ⟨hlive, hh, hin⟩
  | br k zs ls s =>
    obtain ⟨l, pc, hk, hz⟩ := h
    refine ⟨l, pc, hk, fun hle => ?_⟩
    obtain ⟨hi, hin⟩ := hz hle
    rw [drop_base (hbases l (List.mem_of_getElem? hk))] at hin
    exact ⟨hi, hin⟩
  | ret zs s => exact h
  | tail fi zs s => exact h
  | trap | refused | wrong => exact h.elim

end Blocks

/-! ## Bodies -/

section Bodies

variable {H : Type} {M : Module} {segs : List (List Byte)} {m : HostModule} {e : FuncMeta}
  {host : HostFn H} {env : LowerEnv} {L : List Label} {T : Nat → Nat} {ghost : Bool}
  {st st1 st' stb : State} {is is1 is2 : Items} {A : Activation} {n nr np t base c : Nat} {l : Label}
  {xs lo low ls ys : List Nat} {s : Wasm.Store H} {x y : Flat H} {o : Wasm.Outcome H}

/-- Two sequences one after the other. -/
theorem sequence_follows {o : Option (Wasm.Outcome H)}
    {f : List Nat → List Nat → Wasm.Store H → Option (Wasm.Outcome H)}
    (h : Before m A L T st (is1 ++ is2) st' lo xs ls s x) (hpc : st1.pc = st.pc + is1.length)
    (hgrow : st1.consts <+: st'.consts)
    (hfirst : Before m A L T st is1 st1 lo xs ls s x →
      FollowsBody m e host n (Arrives m A L T st1 lo) o x)
    (hrest : ∀ ys ls s y, Before m A L T st1 is2 st' lo ys ls s y →
      FollowsBody m e host n (Arrives m A L T st' lo) (f ys ls s) y) :
    FollowsBody m e host n (Arrives m A L T st' lo) (Wasm.Outcome.andThen o f) x := by
  obtain ⟨hcode1, hcode2⟩ := codeAt_append.mp h.code
  refine (hfirst { h with code := hcode1, pool := hgrow.trans h.pool }).andThen ?_ ?_
  · rintro ys ls s y ⟨hlive, hh, hin⟩
    exact hrest ys ls s y ⟨hlive, hh, h.bases, hpc ▸ hcode2, h.pool, h.nested, hin⟩
  · intro o y hne hy
    cases o with
    | next ys ls s => exact absurd rfl (hne ys ls s)
    | _ => exact hy

/-- The operands of a block and those below it. -/
theorem inBlock_follows {P : Wasm.Outcome H → Flat H → Prop} (hS : Setting M m segs env A)
    {bt : BlockType} {a : Nat × Nat}
    (ha : blockArity bt env.funcTypes = .ok a)
    {run : (np nr : Nat) → (args low : List Nat) → Option (Wasm.Outcome H)}
    (h : a.1 ≤ xs.length →
      FollowsBody m e host n P (run a.1 a.2 (xs.take a.1) (xs.drop a.1)) x) :
    FollowsBody m e host n P ((M.toInstance m segs host).inBlock bt xs run) x := by
  unfold Wasm.Instance.inBlock
  cases hbt : bt.expand (M.toInstance m segs host).types with
  | none => trivial
  | some ft =>
    simp only
    split_ifs with hlen
    · trivial
    · rw [hS.describes.blockArity hbt ha] at h
      exact h (Nat.le_of_not_lt hlen)

/-- The machine before a block, seen from inside. -/
theorem Before.inside (h : Before m A L T st (close t is) st' lo xs ls s x)
    (he : enter np st = some l.base) (hle : np ≤ xs.length) (hpool : stb.consts <+: st'.consts) :
    l.base = (xs.drop np ++ lo).length ∧
      Before m A (l :: L) (ends t T) st is stb (xs.drop np ++ lo) (xs.take np) ls s x := by
  have hbase : l.base = (xs.drop np ++ lo).length := by
    rw [enter_live h.live he, h.height, List.length_append, List.length_append, List.length_drop]
    omega
  have hsplit : xs.take np ++ (xs.drop np ++ lo) = xs ++ lo := by
    rw [← List.append_assoc, List.take_append_drop]
  refine ⟨hbase, h.live, by rw [hsplit]; exact h.height, ?_, codeAt_close.mp h.code, hpool.trans h.pool,
    h.nested, by rw [hsplit]; exact h.frame⟩
  intro l' hl'
  obtain rfl | hl' := List.mem_cons.mp hl'
  · exact hbase.le
  · rw [List.length_append]
    exact (h.bases l' hl').trans (Nat.le_add_left _ _)

/-- The machine in the arm of an `if` that is taken. -/
theorem Before.taken {st0 : State} {i : Item × Int} (h : Before m A L T st (i :: is) st' lo (c :: xs) ls s x)
    (hc : consume 1 0 st = some st0) (hin : InFrame m A (st.pc + 1) (xs ++ lo) ls s y) :
    Before m A L T { st0 with pc := st.pc + 1 } is st' lo xs ls s y := by
  rw [(consume_one h.live hc).1]
  refine ⟨h.live, ?_, h.bases, h.code.2, h.pool, h.nested, hin⟩
  have hh := h.height
  rw [List.cons_append, List.length_cons] at hh
  exact Nat.sub_eq_of_eq_add hh

/-- The height below the operands of an `if`. -/
theorem Before.enter_if {st0 : State} (h : Before m A L T st is st' lo (c :: xs) ls s x)
    (hc : consume 1 0 st = some st0) (he : enter np st0 = some base) (hle : np ≤ xs.length) :
    base = (xs.drop np ++ lo).length := by
  obtain ⟨-, hh0⟩ := consume_live h.live hc
  rw [enter_live ((consume_dead hc).1.trans h.live) he, hh0, h.height]
  simp only [List.length_append, List.length_cons, List.length_drop]
  omega

/-- A block whose label is its end. -/
theorem leave_follows {o : Option (Wasm.Outcome H)} (hl : l = ⟨none, (low ++ lo).length, nr⟩)
    (hbases : ∀ l ∈ L, l.base ≤ lo.length)
    (hend : ∀ ys ls s z, InFrame m A stb.pc ys ls s z →
      Eventually (hosted m e host) (InFrame m A t ys ls s) (fun r _ => Exhausted r) z)
    (hlive : st'.dead = false) (hpc : st'.pc = t) (hh : st'.h = l.base + nr)
    (h : FollowsBody m e host n (Arrives m A (l :: L) (ends t T) stb (low ++ lo)) o x) :
    FollowsBody m e host n (Arrives m A L T st' lo) (o.map (Wasm.Outcome.leave nr low)) x := by
  rw [hl] at hh
  exact h.map rfl (fun _ _ => rfl) (fun _ => rfl) fun o y _ hy =>
    arrives_leave (fun _ => hl) hbases hend hlive hpc hh hy

/-- A loop starts again with the next smaller budget. -/
theorem loop_follows {b : Body} {bt : BlockType} {isb : Items} (hS : Setting M m segs env A)
    (hbodies : BodiesFollow M m segs e host n)
    (hloop : Structured.body env L ghost st (.loop bt b .nil) = some (close stb.pc isb, st'))
    (h : Before m A L T st (close stb.pc isb) st' lo xs ls s x) (hle : np ≤ xs.length)
    (hl : l = ⟨some st.pc, (xs.drop np ++ lo).length, np⟩)
    (hlive : st'.dead = false) (hpc : st'.pc = stb.pc) (hh : st'.h = l.base + nr)
    (o : Option (Wasm.Outcome H)) :
    FollowsBody m e host n (Arrives m A (l :: L) (ends stb.pc T) stb (xs.drop np ++ lo)) o x →
    FollowsBody m e host n (Arrives m A L T st' lo)
      (match o with
        | some (.br 0 ys ls s) =>
          if np ≤ ys.length then
            (((M.toInstance m segs host).eval n).body (.loop bt b .nil) (ys.take np) ls s).map
              (Wasm.Outcome.above (xs.drop np))
          else some .wrong
        | o => o.map (Wasm.Outcome.leave nr (xs.drop np))) x := by
  intro ho
  have hleave : (∀ ys ls s, o ≠ some (.br 0 ys ls s)) →
      FollowsBody m e host n (Arrives m A L T st' lo)
        (o.map (Wasm.Outcome.leave nr (xs.drop np))) x := by
    intro hne
    refine ho.map rfl (fun _ _ => rfl) (fun _ => rfl) fun w y hw hy => ?_
    have hbase : l.base = (xs.drop np ++ lo).length := by rw [hl]
    rw [hbase] at hh
    refine arrives_leave (fun hbr => ?_) h.bases (fun _ _ _ _ hz => .now hz) hlive hpc hh hy
    obtain ⟨ys, ls, s, rfl⟩ := hbr
    exact absurd hw (hne ys ls s)
  match o with
  | some (.br 0 ys ls s) =>
    simp only
    split_ifs with hys
    · refine FollowsBody.map (Q := Arrives m A L T st' (xs.drop np ++ lo)) ?_ rfl (fun _ _ => rfl)
        (fun _ => rfl) fun w y _ hy => ?_
      · refine FollowsBody.after (ho.mono (fun _ hy => hy) fun _ _ hr => hr.resolve_right id)
          fun y hy => ?_
        obtain ⟨l', pc, hk, hz⟩ := hy
        cases hk
        subst hl
        obtain ⟨hi, hin⟩ := hz hys
        rw [Nat.sub_self, List.drop_zero] at hin
        obtain ⟨r, hr, hlim⟩ | ⟨z, hz, hin'⟩ := hin.br_cases hi
        · exact FollowsBody.limit hr hlim
        · refine .step hz (hbodies hS hloop ⟨h.live, ?_, ?_, h.code, h.pool, h.nested, hin'⟩)
          · have := h.height
            simp only [List.length_append, List.length_drop, List.length_take] at this ⊢
            omega
          · intro l' hl'
            rw [List.length_append]
            exact (h.bases l' hl').trans (Nat.le_add_left _ _)
      · cases w with
        | wrong => trivial
        | trap t s | refused s => exact hy.elim
        | _ => exact .now (arrives_above h.bases hy)
    · trivial
  | none => exact hleave nofun
  | some (.next ..) => exact hleave nofun
  | some (.br (k + 1) ..) => exact hleave nofun
  | some (.ret ..) => exact hleave nofun
  | some (.tail ..) => exact hleave nofun
  | some (.trap ..) => exact hleave nofun
  | some (.refused _) => exact hleave nofun
  | some .wrong => exact hleave nofun

/-- The machine follows a body whose loops and calls it follows within the next smaller budget. -/
theorem body_follows (hM : Compiled M m segs) (hoff : KeepsOff m host) (hS : Setting M m segs env A)
    (hcalls : CallsFollow M m segs e host n) (hbodies : BodiesFollow M m segs e host n) (b : Body) :
    ∀ {L T ghost st is st' lo xs ls s x}, Structured.body env L ghost st b = some (is, st') →
      Before m A L T st is st' lo xs ls s x →
      FollowsBody m e host n (Arrives m A L T st' lo)
        ((M.toInstance m segs host).body ((M.toInstance m segs host).eval n) b xs ls s) x := by
  induction b with
  | nil =>
    intro L T ghost st is st' lo xs ls s x hb h
    cases hb
    exact .now ⟨h.live, h.height, h.frame⟩
  | op o rest ih =>
    intro L T ghost st is st' lo xs ls s x hb h
    obtain ⟨is1, st1, is2, h1, h2, rfl⟩ := andThen_eq_some.mp hb
    exact sequence_follows h (counts_operator o is1 st1 h1) (grows_body rest is2 st' h2)
      (fun h => operator_follows hM hoff hS hcalls h1 h) fun _ _ _ _ h => ih h2 h
  | block bt b rest ihb ihr =>
    intro L T ghost st is st' lo xs ls s x hb h
    obtain ⟨a, ha, base, he, isb, stb, isr, h1, h2, rfl⟩ := body_block_some.mp hb
    have hpc : (st.leave base a.2 stb).pc = st.pc + (close stb.pc isb).length := by
      rw [close_length]
      exact counts_body b isb stb h1
    refine sequence_follows h hpc (grows_body rest isr st' h2) (fun h => ?_) fun _ _ _ _ h => ihr h2 h
    refine inBlock_follows hS ha fun hle => ?_
    obtain ⟨hbase, hin⟩ := h.inside (l := ⟨none, base, a.2⟩) he hle
      (show stb.consts <+: _ from List.prefix_rfl)
    exact leave_follows (congrArg (Label.mk none · a.2) hbase) h.bases
      (fun _ _ _ _ (hz : InFrame m A stb.pc _ _ _ _) => .now hz) h.live rfl rfl (ihb h1 hin)
  | loop bt b rest ihb ihr =>
    intro L T ghost st is st' lo xs ls s x hb h
    obtain ⟨a, ha, base, he, isb, stb, isr, h1, h2, rfl⟩ := body_loop_some.mp hb
    have hpc : (st.leave base a.2 stb).pc = st.pc + (close stb.pc isb).length := by
      rw [close_length]
      exact counts_body b isb stb h1
    refine sequence_follows h hpc (grows_body rest isr st' h2) (fun h => ?_) fun _ _ _ _ h => ihr h2 h
    refine inBlock_follows hS ha fun hle => ?_
    obtain ⟨hbase, hin⟩ := h.inside (l := ⟨some st.pc, base, a.1⟩) he hle
      (show stb.consts <+: _ from List.prefix_rfl)
    have hloop : Structured.body env L ghost st (.loop bt b .nil) =
        some (close stb.pc isb, st.leave base a.2 stb) :=
      body_loop_some.mpr ⟨a, ha, base, he, isb, stb, [], h1, rfl, (List.append_nil _).symm⟩
    exact loop_follows hS hbodies hloop h hle (congrArg (Label.mk (some st.pc) · a.1) hbase) h.live rfl rfl _
      (ihb h1 hin)
  | ifThen bt b rest ihb ihr =>
    intro L T ghost st is st' lo xs ls s x hb h
    obtain ⟨a, ha, st0, hc, base, he, isb, stb, isr, h1, h2, rfl⟩ := body_ifThen_some.mp hb
    have hpc : (st.leave base a.2 stb).pc = st.pc +
        ((.code ⟨.brIfNot, 0, stb.pc⟩, st.mark ghost st.h) :: close stb.pc isb : Items).length := by
      have := counts_body b isb stb h1
      rw [List.length_cons, close_length, State.leave]
      simp only at this ⊢
      omega
    cases xs with
    | nil => trivial
    | cons c xs =>
      refine sequence_follows h hpc (grows_body rest isr st' h2) (fun h => ?_) fun _ _ _ _ h => ihr h2 h
      refine inBlock_follows hS ha fun hle => ?_
      refine FollowsBody.after (h.frame.brIfNot h.code.1) fun y hy => ?_
      split_ifs at hy ⊢ with htest
      · obtain ⟨hbase, hin⟩ := (h.taken hc hy).inside (l := ⟨none, base, a.2⟩) he hle
          (show stb.consts <+: _ from List.prefix_rfl)
        exact leave_follows (congrArg (Label.mk none · a.2) hbase) h.bases
          (fun _ _ _ _ (hz : InFrame m A stb.pc _ _ _ _) => .now hz) h.live rfl rfl (ihb h1 hin)
      · simp only [Option.map_some, Wasm.Outcome.leave]
        split_ifs with hlen
        · refine .now ⟨h.live, ?_, ?_⟩
          · show base + a.2 = _
            rw [h.enter_if hc he hle, ← hlen]
            simp only [List.length_append]
            omega
          · rw [List.take_append_drop]
            exact hy
        · trivial
  | ifElse bt b els rest ihb ihe ihr =>
    intro L T ghost st is st' lo xs ls s x hb h
    obtain ⟨a, ha, st0, hc, base, he, isb, stb, ise, ste, isr, h1, h2, h3, rfl⟩ := body_ifElse_some.mp hb
    have hpc1 := counts_body b isb stb h1
    have hpc2 := counts_body els ise ste h2
    have hgrow := grows_body els ise ste h2
    simp only at hpc1 hpc2 hgrow
    cases xs with
    | nil => trivial
    | cons c xs =>
      refine sequence_follows h ?_ (grows_body rest isr st' h3) (fun h => ?_) fun _ _ _ _ h => ihr h3 h
      · simp only [List.length_cons, List.length_append, close_length, State.leave]
        omega
      refine inBlock_follows hS ha fun hle => ?_
      obtain ⟨hif, hcode⟩ := h.code
      obtain ⟨hcode1, hcode2⟩ := codeAt_append.mp hcode
      rw [close_length, ← hpc1] at hcode2
      obtain ⟨hjump, hcode2⟩ := hcode2
      have hbase := h.enter_if hc he hle
      refine FollowsBody.after (h.frame.brIfNot hif) fun y hy => ?_
      split_ifs at hy ⊢ with htest
      · have hthen : Before m A L T { st0 with pc := st.pc + 1 } (close ste.pc isb)
            (st.leave base a.2 ste) lo xs ls s y :=
          { h.taken hc hy with code := hcode1 }
        obtain ⟨-, hin⟩ := hthen.inside (l := ⟨none, base, a.2⟩) he hle hgrow
        exact leave_follows (congrArg (Label.mk none · a.2) hbase) h.bases
          (fun _ _ _ _ hz => hz.br (fun _ _ hr => hr) hjump) h.live rfl rfl (ihb h1 hin)
      · have helse : Before m A L T { stb with pc := stb.pc + 1, h := base + a.1, dead := false }
            (close ste.pc ise) (st.leave base a.2 ste) lo xs ls s y := by
          refine ⟨rfl, ?_, h.bases, hcode2, h.pool, h.nested, hy⟩
          show base + a.1 = _
          rw [hbase]
          simp only [List.length_append, List.length_drop]
          omega
        have hent : Structured.enter a.1 { stb with pc := stb.pc + 1, h := base + a.1, dead := false } =
            some base := by
          simp [Structured.enter]
        obtain ⟨-, hin⟩ := helse.inside (l := ⟨none, base, a.2⟩) hent hle
          (show ste.consts <+: _ from List.prefix_rfl)
        exact leave_follows (congrArg (Label.mk none · a.2) hbase) h.bases
          (fun _ _ _ _ (hz : InFrame m A ste.pc _ _ _ _) => .now hz) h.live rfl rfl (ihe h2 hin)

end Bodies

/-! ## Functions -/

section Functions

variable {H : Type} {M : Module} {segs : List (List Byte)} {m : HostModule} {e : FuncMeta}
  {host : HostFn H} {env : LowerEnv} {A : Activation} {n fi pc nr : Nat} {ft : FuncType} {c : Func}
  {g : FuncMeta} {xs ys low ls args : List Nat} {s : Wasm.Store H} {x : Flat H}

/-- The operands on top are what is returned. -/
theorem InFrame.atReturn (h : InFrame m A pc (ys ++ low) ls s x) {i : CuOp} (hi : m.code[pc]? = some i)
    (hop : i.op = .ret ∨ i.op = .endFunc) (hcsp : 0 < A.csp)
    (hres : (A.frames (A.csp - 1)).nResults = ys.length) : AtReturn m A ys.reverse s x := by
  have hsp := h.sp
  rw [List.length_append] at hsp
  refine ⟨⟨i, h.pc ▸ hi, hop⟩, h.csp, ?_, ?_, h.fits, fun j a hj => ?_, h.below,
    fun k hk => h.frames k (by omega), h.store⟩
  · rw [h.frames _ (by omega), List.length_reverse, ← hres]
  · rw [List.length_reverse]
    omega
  · have hlt := (List.getElem?_eq_some_iff.mp hj).1
    rw [List.length_reverse] at hlt
    rw [List.getElem?_reverse hlt] at hj
    rw [List.length_reverse, ← h.operands (ys.length - 1 - j) a (by
      rw [List.getElem?_append_left (by omega), hj])]
    congr 1
    omega

/-- A tail call: what the callee does is done in the place of the caller. -/
theorem tail_follows (hM : Compiled M m segs) (hcalls : CallsFollow M m segs e host n)
    (hfi : M.imports.length ≤ fi) (hft : M.funcType fi = some ft) (hcsp : 0 < A.csp)
    (hle : ft.1.length ≤ xs.length) (hi : m.code[pc]? = some ⟨.returnCall, 0, fi⟩)
    (h : InFrame m A pc (xs ++ low) ls s x) :
    FollowsCall m e host n A
      (((M.toInstance m segs host).eval n).call fi (xs.take ft.1.length).reverse s) x := by
  obtain ⟨c, g, env, hc, hg, hF⟩ := hM.func fi ft hfi hft
  have hu : (xs.take ft.1.length).length = g.nParams := by
    rw [List.length_take, hF.params]
    omega
  rw [← List.take_append_drop ft.1.length xs, List.append_assoc] at h
  obtain ⟨r, hr, hlim⟩ | ⟨y, B, hy, hB, hin⟩ := h.returnCall (e := e) hcsp hi hg hu hF.locals
  · exact FollowsCall.after (P := fun _ => False) (.exit hr hlim) fun _ hf => hf.elim
  have hentry : AtEntry m B c g (xs.take ft.1.length).reverse s y :=
    ⟨hB.slots, hB.nLocals, by rw [hB.csp]; exact hcsp, by rw [hB.csp, hB.frame], hin⟩
  have hfollow := hcalls hfi hft hc hF hentry
  cases hres : ((M.toInstance m segs host).eval n).call fi (xs.take ft.1.length).reverse s with
  | none =>
    rw [hres] at hfollow
    exact Lasts.step hy hfollow
  | some res =>
    rw [hres] at hfollow
    cases res with
    | wrong => trivial
    | values ys s' =>
      exact .step hy (Eventually.mono hfollow (fun z hz => hB.atReturn hz) fun _ _ hr => hr)
    | trap t s' | refused s' => exact .step hy hfollow

/-- The machine follows a function whose loops and calls it follows within the next smaller budget. -/
theorem function_follows (hM : Compiled M m segs) (hoff : KeepsOff m host)
    (hcalls : CallsFollow M m segs e host n) (hbodies : BodiesFollow M m segs e host n)
    (hF : FuncAt M m ft c g env) (h : AtEntry m A c g args s x) :
    FollowsCall m e host n A
      (((M.toInstance m segs host).body ((M.toInstance m segs host).eval n) c.body []
          (Instance.locals c args) s).bind
        ((M.toInstance m segs host).finish ((M.toInstance m segs host).eval n).call ft.2.length)) x := by
  obtain ⟨consts, is, st, hb, hpool, hcode, i, hend, hop⟩ := hF.body
  have hS : Setting M m segs env A :=
    { types := hF.types, typeidx := hF.typeidx, imports := hF.imports, hostIds := hF.hostIds
      small := hM.small, short := hM.short, hostCount := hM.hostCount, segments := hM.segments
      fewSegs := hM.fewSegs, memMax := hM.memMax, slots := h.slots.trans hF.slots.symm
      fewSlots := h.slots ▸ hF.fewSlots
      scratch := fun k hk => by
        rw [h.slots, h.nLocals]
        exact hF.scratch k hk }
  have hbefore : Before m A [⟨none, 0, ft.2.length⟩] (ends st.pc fun _ => 0) ⟨g.codeOff, consts, 0, false⟩
      is st [] [] (Instance.locals c args) s x :=
    ⟨rfl, rfl, fun l hl => by rw [List.mem_singleton.mp hl]; exact Nat.le_refl 0, hcode, hpool, h.nested,
      h.frame⟩
  refine (body_follows hM hoff hS hcalls hbodies c.body hb hbefore).finish rfl (fun _ _ => rfl)
    (fun _ => rfl) fun w y hy => ?_
  have hreturn : ∀ {pc : Nat} {ys low ls : List Nat} {s : Wasm.Store H} {z : Flat H} {i : CuOp},
      InFrame m A pc (ys ++ low) ls s z → m.code[pc]? = some i →
      i.op = .ret ∨ i.op = .endFunc → ys.length = ft.2.length → AtReturn m A ys.reverse s z :=
    fun hz hi hop hlen => hz.atReturn hi hop h.nested (by rw [h.results, hF.results, hlen])
  cases w with
  | next zs ls s =>
    obtain ⟨-, -, hz⟩ := hy
    simp only [Wasm.Instance.finish]
    split_ifs with hlen
    · exact .now (hreturn hz hend (.inr hop) hlen)
    · trivial
  | br k zs ls s =>
    obtain ⟨l, pc, hk, hz⟩ := hy
    cases k with
    | zero =>
      cases hk
      simp only [Wasm.Instance.finish]
      split_ifs with hle
      · obtain ⟨hi, hin⟩ := hz hle
        refine (hin.br (fun _ _ hr => hr) hi).mono (fun z hz => ?_) fun _ _ hr => hr
        exact hreturn hz hend (.inr hop) (List.length_take_of_le hle)
      · trivial
    | succ k => cases hk
  | ret zs s =>
    obtain ⟨pc, low, ls, i, hi, hop, hin⟩ := hy
    simp only [Wasm.Instance.finish]
    split_ifs with hle
    · rw [← List.take_append_drop ft.2.length zs, List.append_assoc] at hin
      exact .now (hreturn hin hi (.inl hop) (List.length_take_of_le hle))
    · trivial
  | tail fi zs s =>
    obtain ⟨hfi, pc, low, ls, hi, hin⟩ := hy
    rw [hM.hostCount] at hfi
    simp only [Wasm.Instance.finish]
    cases hft' : (M.toInstance m segs host).funcType fi with
    | none => trivial
    | some ft' =>
      simp only
      split_ifs with hbad
      · trivial
      · exact tail_follows hM hcalls hfi hft' h.nested (by omega) hi hin
  | trap | refused | wrong => exact hy.elim

/-- The machine follows the semantics within every budget. -/
theorem follows (hM : Compiled M m segs) (hoff : KeepsOff m host) (n : Nat) :
    BodiesFollow M m segs e host n ∧ CallsFollow M m segs e host n := by
  induction n with
  | zero =>
    constructor
    · intro env A L T ghost b st is st' lo xs ls s x _ _ _
      exact .inl ⟨x, .zero x⟩
    · intro fi ft c g env A args s x _ _ _ _ _
      exact .inl ⟨x, .zero x⟩
  | succ n ih =>
    obtain ⟨hbodies, hcalls⟩ := ih
    refine ⟨fun env A L T ghost b st is st' lo xs ls s x hS hb h =>
      body_follows hM hoff hS hcalls hbodies b hb h, ?_⟩
    intro fi ft c g env A args s x hfi hft hc hF h
    have hft' : (M.toInstance m segs host).funcType fi = some ft := hft
    have hfi' : ¬ fi < (M.toInstance m segs host).nImports := Nat.not_lt_of_le hfi
    have hc' : (M.toInstance m segs host).code[fi - (M.toInstance m segs host).nImports]? = some c := hc
    simp only [Wasm.Instance.eval, Wasm.Instance.call, hft', if_neg hfi', hc']
    split_ifs with hargs
    · trivial
    · exact function_follows hM hoff hcalls hbodies hF h

end Functions

end CuWasm
