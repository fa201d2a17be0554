import CuWasm.Proofs.LayoutProofs
import CuWasm.Proofs.OperatorProofs

/-!
# Branches

A branch drops the operands between those it carries and the height of its label, and jumps. A loop
label is an address; the other labels are the ends of blocks, which are known once the block has been
closed.
-/

namespace CuWasm

open Exit Run Wasm Structured BlockMove

section Jumps

variable {H : Type} {m : HostModule} {e : FuncMeta} {host : HostFn H} {A : Activation} {pc a b c : Nat}
  {xs ls : List Nat} {s : Wasm.Store H} {x : Flat H} {P : Flat H → Prop}
  {Q : Outgoing H → Flat H → Prop}

/-- The topmost `a` operands move down to the height `b`. -/
theorem InFrame.unwind (h : InFrame m A pc xs ls s x)
    (hi : m.code[pc]? = some ⟨.unwind, a, A.slots + (b + a)⟩) (hle : b + a ≤ xs.length) :
    Eventually (hosted m e host) (InFrame m A (pc + 1) (xs.take a ++ xs.drop (xs.length - b)) ls s)
      Q x := by
  have hsp := h.sp
  have hfit := h.fits
  have hcap : STACK_CAP < 2 ^ 32 := by decide
  have hdest : ((fetched x.mach).fp + (A.slots + (b + a))) % 2 ^ 32 = A.fp + A.slots + b + a := by
    have hfp : (fetched x.mach).fp = A.fp := h.fp
    rw [hfp, Nat.mod_eq_of_lt (by omega)]
    omega
  have hsp' : (fetched x.mach).sp = x.mach.sp := rfl
  have he := unwind_apply m.cpuViews a (A.slots + (b + a)) (fetched x.mach)
  rw [hdest, if_neg (by omega)] at he
  simp only [cpuViews_stack_idx, hsp'] at he
  have hexec : Run.exec m.cpuViews m.dev ⟨.unwind, a, A.slots + (b + a)⟩ (fetched x.mach) =
      Run.unwind m.cpuViews a (A.slots + (b + a)) (fetched x.mach) := rfl
  refine eventually_of_exec (h.pc ▸ hi) (hexec.trans he)
    (by show A.fp + A.slots + b + a ≤ _; omega) ?_
  refine h.move (congrArg (· + 1) h.pc) rfl rfl rfl ?_ (by show A.fp + A.slots + b + a ≤ _; omega)
    (fun j hj => ?_) (fun j v hj => ?_) (h.store.congr rfl rfl rfl rfl rfl)
  · show A.fp + A.slots + b + a = _
    rw [List.length_append, List.length_take, List.length_drop]
    omega
  · exact blockMove_of_not_mem _ (.inl (by omega))
  · show blockMove x.mach.stack _ _ _ (A.fp + A.slots + b + a - (j + 1)) = _
    have hlen : (xs.take a).length = a := by rw [List.length_take]; omega
    by_cases hja : j < a
    · rw [List.getElem?_append_left (by omega), List.getElem?_take_of_lt hja] at hj
      rw [← h.operands j v hj, show A.fp + A.slots + b + a - (j + 1) =
        A.fp + A.slots + b + a - a + (a - (j + 1)) by omega,
        blockMove_of_mem _ (show a - (j + 1) < a by omega)]
      congr 1
      omega
    · rw [List.getElem?_append_right (by omega), hlen, List.getElem?_drop] at hj
      have hlt := (List.getElem?_eq_some_iff.mp hj).1
      rw [← h.operands _ v hj, blockMove_of_not_mem _ (.inl (by omega))]
      congr 1
      omega

/-- A jump either meets the end of the fuel or goes to its target. -/
theorem InFrame.br_cases (h : InFrame m A pc xs ls s x) (hi : m.code[pc]? = some ⟨.br, 0, b⟩) :
    (∃ r, hosted m e host x = .error r x ∧ Exhausted r) ∨
      ∃ y, hosted m e host x = .ok () y ∧ InFrame m A b xs ls s y := by
  have he := br_apply b (fetched x.mach)
  have hexec : Run.exec m.cpuViews m.dev ⟨.br, 0, b⟩ (fetched x.mach) = Run.br b (fetched x.mach) := rfl
  split_ifs at he with hback hfuel
  · exact .inl ⟨_, hosted_exit (step_of_exec_error (h.pc ▸ hi) (hexec.trans he)) nofun, rfl⟩
  all_goals
    exact .inr ⟨_, hosted_ok (step_of_exec (h.pc ▸ hi) (hexec.trans he) h.fits),
      h.move rfl rfl rfl rfl h.sp h.fits (fun _ _ => rfl) h.operands
        (h.store.congr rfl rfl rfl rfl rfl)⟩

theorem InFrame.br (h : InFrame m A pc xs ls s x) (hQ : ∀ r y, Exhausted r → Q r y)
    (hi : m.code[pc]? = some ⟨.br, 0, b⟩) : Eventually (hosted m e host) (InFrame m A b xs ls s) Q x := by
  obtain ⟨r, hr, hex⟩ | ⟨y, hy, hin⟩ := h.br_cases hi
  · exact .exit hr (hQ r x hex)
  · exact .step hy (.now hin)

/-- A conditional jump pops the condition. -/
theorem InFrame.brIfNot (h : InFrame m A pc (a :: xs) ls s x)
    (hi : m.code[pc]? = some ⟨.brIfNot, 0, b⟩) :
    Eventually (hosted m e host)
      (InFrame m A (if a % 2 ^ 32 ≠ 0 then pc + 1 else b) xs ls s) Q x := by
  obtain ⟨t, et, pt, ht⟩ := h.pop
  have hz : u32 (BitVec.ofNat 64 a) = 0 ↔ a % 2 ^ 32 = 0 := by
    rw [toNat_eq_zero, ← operand_i32, operand_i32_ofNat]
  have hexec : Run.exec m.cpuViews m.dev ⟨.brIfNot, 0, b⟩ (fetched x.mach) =
      (if u32 (BitVec.ofNat 64 a) = 0 then modify fun s => { s with pc := b } else pure () : Run Unit)
        t := by
    simp only [Run.exec]
    rw [bind_ok et]
  by_cases hc : a % 2 ^ 32 = 0
  · rw [if_pos (hz.mpr hc)] at hexec
    rw [if_neg (not_not_intro hc)]
    exact eventually_of_exec (h.pc ▸ hi) hexec ht.fits
      (ht.move rfl rfl rfl rfl ht.sp ht.fits (fun _ _ => rfl) ht.operands
        (ht.store.congr rfl rfl rfl rfl rfl))
  · rw [if_neg (mt hz.mp hc)] at hexec
    rw [if_pos hc]
    exact eventually_of_exec (h.pc ▸ hi) hexec ht.fits ht

end Jumps

/-! ## Branches -/

section Branches

variable {H : Type} {M : Module} {segs : List (List Byte)} {m : HostModule} {e : FuncMeta}
  {host : HostFn H} {env : LowerEnv} {L : List Label} {T : Nat → Nat} {ghost : Bool}
  {st st' : State} {is : Items} {A : Activation} {k n pc c : Nat} {l : Label}
  {xs lo ls vs : List Nat} {s : Wasm.Store H} {x : Flat H} {Q : Outgoing H → Flat H → Prop}

theorem simple_follows (hS : Setting M m segs env A) {o : Operator}
    (hop : Structured.operator env L ghost o st = some (is, st')) (hdead : st.dead = false)
    (hh : st.h = (xs ++ lo).length) (hcode : CodeAt m T st.pc is) (hpool : st'.consts <+: m.consts)
    (h : InFrame m A st.pc (xs ++ lo) ls s x) :
    FollowsBody m e host n (Arrives m A L T st' lo)
      (some ((M.toInstance m segs host).simple o xs ls s)) x := by
  by_cases hw : (M.toInstance m segs host).simple o xs ls s = .wrong
  · rw [hw]
    trivial
  · have hp : Performs m e host A st'.pc _ x := simple_performs hS hop hdead hcode hpool h
    have habove := simple_above hw lo
    cases hr : (M.toInstance m segs host).simple o xs ls s with
    | next ys ls' s' =>
      rw [hr] at habove
      rw [habove] at hp
      obtain ⟨hlive, hheight⟩ := operator_live (M.ctx ([], []) ⟨[], .nil⟩) hop hdead hh habove
      exact Eventually.mono hp (fun y hy => ⟨hlive, hheight, hy⟩) fun _ _ hq => hq
    | wrong => exact absurd hr hw
    | _ =>
      rw [hr] at habove
      rw [habove] at hp
      exact Eventually.mono hp (fun _ hf => hf.elim) fun _ _ hq => hq

theorem branch_inv (hb : branch env L ghost k st = some (is, st')) (hdead : st.dead = false) :
    ∃ l, L[k]? = some l ∧ l.base + l.arity ≤ st.h ∧ is = branchItems env ghost l k st ∧
      st' = { st with pc := st.pc + is.length } := by
  cases hk : L[k]? with
  | none =>
    unfold branch at hb
    rw [hk] at hb
    cases hb
  | some l =>
    by_cases hf : l.Fits st
    · rw [branch_some env L ghost st hk hf] at hb
      cases hb
      exact ⟨l, rfl, hf hdead, rfl, rfl⟩
    · rw [branch_none env L ghost st hk hf] at hb
      cases hb

theorem jumpItem_render : (jumpItem l k).render T = ⟨.br, 0, l.start.getD (T k)⟩ := by
  unfold jumpItem
  cases l.start <;> rfl

/-- An unconditional branch gets to its jump with the operands it carries. -/
theorem branch_follows (hslots : A.slots = env.nParams + env.nLocals) (hk : L[k]? = some l)
    (hf : l.base + l.arity ≤ st.h) (hdead : st.dead = false) (hh : st.h = (xs ++ lo).length)
    (hbase : l.base ≤ lo.length) (hcode : CodeAt m T pc (branchItems env ghost l k st))
    (h : InFrame m A pc (xs ++ lo) ls s x) :
    Eventually (hosted m e host) (Arrives m A L T st' lo (.br k xs ls s)) Q x := by
  rw [List.length_append] at hh
  by_cases hle : l.arity ≤ xs.length
  · have hkeep : (xs ++ lo).take l.arity = xs.take l.arity := List.take_append_of_le_length hle
    have hdrop : (xs ++ lo).drop ((xs ++ lo).length - l.base) = lo.drop (lo.length - l.base) := by
      rw [List.length_append, List.drop_append, List.drop_eq_nil_of_le (by omega), List.nil_append]
      congr 1
      omega
    unfold branchItems at hcode
    by_cases hgt : st.h > l.base + l.arity
    · rw [if_pos ⟨by rw [hdead]; exact Bool.false_ne_true, hgt⟩] at hcode
      obtain ⟨hun, hjump, -⟩ := hcode
      simp only [Item.render] at hun
      rw [← hslots] at hun
      refine (h.unwind hun (by rw [List.length_append]; omega)).mono (fun y hy => ?_) fun _ _ hq => hq
      rw [hkeep, hdrop] at hy
      exact ⟨l, pc + 1, hk, fun _ => ⟨by rw [hjump, jumpItem_render], hy⟩⟩
    · rw [if_neg fun hn => hgt hn.2, List.nil_append] at hcode
      refine .now ⟨l, pc, hk, fun _ => ⟨by rw [hcode.1, jumpItem_render], ?_⟩⟩
      rw [List.take_of_length_le (by omega), show lo.length - l.base = 0 by omega]
      exact h
  · exact .now ⟨l, pc, hk, fun hn => absurd hn hle⟩

theorem branchIf_inv (hb : branchIf env L ghost k st = some (is, st')) (hdead : st.dead = false) :
    ∃ l, L[k]? = some l ∧ 1 ≤ st.h ∧ l.base + l.arity ≤ st.h - 1 ∧
      is = branchIfItems env ghost l k st ∧ st' = { st.taken with pc := st.pc + is.length } := by
  have hh : st.taken.h = st.h - 1 := by simp [State.taken, State.after, hdead]
  unfold branchIf at hb
  obtain ⟨st0, hc, hb⟩ := Option.bind_eq_some_iff.mp hb
  obtain ⟨h1, hh0⟩ := consume_live hdead hc
  obtain ⟨p, hp, -⟩ := Option.map_eq_some_iff.mp hb
  obtain ⟨l, hk, hf, -, -⟩ := branch_inv hp ((consume_dead hc).1.trans hdead)
  have hf' : l.base + l.arity ≤ st.h - 1 := by
    have : l.base + l.arity ≤ st0.h := hf
    omega
  have heq := branchIf_some env L ghost st hk (fun _ => h1) (fun _ => hh ▸ hf')
  have hb' : branchIf env L ghost k st = some (is, st') := by
    unfold branchIf
    rw [hc, Option.bind_some]
    exact hb
  rw [heq] at hb'
  cases hb'
  exact ⟨l, hk, h1, hf', rfl, rfl⟩

theorem branchIf_state (hb : branchIf env L ghost k st = some (is, st')) (hdead : st.dead = false)
    (hh : st.h = n + 1) :
    st'.dead = false ∧ st'.h = n ∧ st'.consts = st.consts ∧ st'.pc = st.pc + is.length := by
  obtain ⟨l, -, -, -, rfl, rfl⟩ := branchIf_inv hb hdead
  refine ⟨hdead, ?_, rfl, rfl⟩
  simp only [State.taken, State.after, hdead, Bool.false_eq_true, if_false]
  omega

/-- A conditional branch goes to its jump or behind it. -/
theorem branchIf_follows (hslots : A.slots = env.nParams + env.nLocals)
    (hb : branchIf env L ghost k st = some (is, st')) (hdead : st.dead = false)
    (hh : st.h = (xs ++ lo).length + 1) (hbase : ∀ l ∈ L, l.base ≤ lo.length)
    (hcode : CodeAt m T st.pc is) (h : InFrame m A st.pc (c :: (xs ++ lo)) ls s x) :
    Eventually (hosted m e host)
      (fun y => if c % 2 ^ 32 ≠ 0 then Arrives m A L T st' lo (.br k xs ls s) y
        else InFrame m A st'.pc (xs ++ lo) ls s y) Q x := by
  obtain ⟨-, hh', -⟩ := branchIf_state hb hdead hh
  obtain ⟨l, hk, h1, hf, rfl, rfl⟩ := branchIf_inv hb hdead
  obtain ⟨hif, hbranch⟩ := hcode
  refine (h.brIfNot hif).bind fun y hy => ?_
  by_cases hc : c % 2 ^ 32 = 0
  · rw [if_neg (not_not_intro hc)] at hy
    refine .now ?_
    rw [if_neg (not_not_intro hc)]
    simp only [branchIfItems, List.length_cons]
    rw [show st.pc + ((branchItems env ghost l k st.taken).length + 1) =
      st.pc + 1 + (branchItems env ghost l k st.taken).length by omega]
    exact hy
  · rw [if_pos hc] at hy
    have hdead' : st.taken.dead = false := hdead
    have hfit : l.base + l.arity ≤ st.taken.h := by
      have : st.taken.h = (xs ++ lo).length := hh'
      omega
    simp only [if_pos hc]
    exact branch_follows hslots hk hfit hdead' hh' (hbase l (List.mem_of_getElem? hk)) hbranch hy

end Branches

/-! ## Branch tables -/

section Tables

variable {H : Type} {M : Module} {segs : List (List Byte)} {m : HostModule} {e : FuncMeta}
  {host : HostFn H} {env : LowerEnv} {L : List Label} {T : Nat → Nat} {ghost : Bool}
  {st st' : State} {is : Items} {A : Activation} {k i n pc c scratch : Nat} {ks : List Nat}
  {xs lo ls vs : List Nat} {s : Wasm.Store H} {x : Flat H} {Q : Outgoing H → Flat H → Prop}

/-- The activation with every slot below the operands taken for a local. -/
def Activation.wide (A : Activation) : Activation := { A with nLocals := A.slots }

theorem InFrame.widen (h : InFrame m A pc xs ls s x) :
    ∃ vs, InFrame m A.wide pc xs (ls ++ vs) s x := by
  have hcount := h.count
  have hroom := h.room
  refine ⟨(List.range (A.slots - A.nLocals)).map fun j => (x.mach.stack (A.fp + A.nLocals + j)).toNat,
    h.pc, h.fp, h.csp, h.sp, h.fits, ?_, le_rfl, fun j a hj => ?_, h.operands, h.below, h.frames,
    h.store⟩
  · rw [List.length_append, List.length_map, List.length_range]
    show _ = A.slots
    omega
  · by_cases hz : j < ls.length
    · rw [List.getElem?_append_left hz] at hj
      exact h.locals j a hj
    · rw [List.getElem?_append_right (by omega), List.getElem?_map, Option.map_eq_some_iff] at hj
      obtain ⟨i, hi, rfl⟩ := hj
      obtain ⟨hlt, hget⟩ := List.getElem?_eq_some_iff.mp hi
      rw [List.getElem_range] at hget
      subst hget
      rw [BitVec.ofNat_toNat, BitVec.setWidth_eq]
      show x.mach.stack (A.fp + j) = _
      congr 1
      omega

theorem InFrame.narrow (h : InFrame m A.wide pc xs (ls ++ vs) s x) (hcount : ls.length = A.nLocals) :
    InFrame m A pc xs ls s x := by
  have hwide := h.count
  rw [List.length_append] at hwide
  refine ⟨h.pc, h.fp, h.csp, h.sp, h.fits, hcount, ?_, fun j a hj => ?_, h.operands, h.below,
    h.frames, h.store⟩
  · have : A.wide.nLocals = A.slots := rfl
    omega
  · refine h.locals j a ?_
    rw [List.getElem?_append_left (List.getElem?_eq_some_iff.mp hj).1, hj]

theorem arrives_narrow {y : Flat H} (hcount : ls.length = A.nLocals)
    (h : Arrives m A.wide L T st lo (.br k xs (ls ++ vs) s) y) :
    Arrives m A L T st lo (.br k xs ls s) y := by
  obtain ⟨l, pc, hk, hl⟩ := h
  exact ⟨l, pc, hk, fun hle => ⟨(hl hle).1, (hl hle).2.narrow hcount⟩⟩

theorem tableArm_inv (harm : tableArm env L ghost scratch i k st = some (is, st'))
    (hdead : st.dead = false) :
    let consts := (intern (BitVec.ofNat 64 (i % 2 ^ 32)) st.consts).2
    ∃ js h1 h2 h3, branchIf env L ghost k (st.compared consts) = some (js, st') ∧
      is = (.code ⟨.localGet, scratch, 0⟩, h1) ::
        (.code ⟨.i64Const, 0, (intern (BitVec.ofNat 64 (i % 2 ^ 32)) st.consts).1⟩, h2) ::
          (.code ⟨.bin .i32Eq, 0, 0⟩, h3) :: js ∧
      (st.compared consts).dead = false ∧ (st.compared consts).h = st.h + 1 := by
  intro consts
  rw [tableArm_eq] at harm
  obtain ⟨⟨js, st2⟩, hb, heq⟩ := Option.map_eq_some_iff.mp harm
  cases heq
  refine ⟨js, _, _, _, hb, rfl, hdead, ?_⟩
  simp only [State.compared, State.after, hdead, Bool.false_eq_true, if_false]
  omega

theorem tableArm_state (harm : tableArm env L ghost scratch i k st = some (is, st'))
    (hdead : st.dead = false) :
    st'.dead = false ∧ st'.h = st.h ∧ st'.pc = st.pc + is.length := by
  obtain ⟨js, -, -, -, hb, rfl, hdead', hh⟩ := tableArm_inv harm hdead
  obtain ⟨h1, h2, -, hpc⟩ := branchIf_state hb hdead' hh
  refine ⟨h1, h2, hpc.trans ?_⟩
  simp only [State.compared, List.length_cons]
  omega

/-- One comparison of a branch table: `c` is the index that the scratch local holds. -/
theorem tableArm_follows (hslots : A.slots = env.nParams + env.nLocals)
    (harm : tableArm env L ghost scratch i k st = some (is, st')) (hdead : st.dead = false)
    (hh : st.h = (xs ++ lo).length) (hbase : ∀ l ∈ L, l.base ≤ lo.length)
    (hcode : CodeAt m T st.pc is) (hpool : st'.consts <+: m.consts)
    (hc : (ls ++ vs)[scratch]? = some c) (hi : i ≤ c % 2 ^ 32) (hcount : ls.length = A.nLocals)
    (hQ : ∀ r y, Exhausted r → Q r y)
    (h : InFrame m A.wide st.pc (xs ++ lo) (ls ++ vs) s x) :
    Eventually (hosted m e host)
      (fun y => if c % 2 ^ 32 = i then Arrives m A L T st' lo (.br k xs ls s) y
        else InFrame m A.wide st'.pc (xs ++ lo) (ls ++ vs) s y) Q x := by
  obtain ⟨js, h1, h2, h3, hb, rfl, hdead', hh'⟩ := tableArm_inv harm hdead
  obtain ⟨hget, hconst, heq, hrest⟩ := hcode
  have hi32 : i % 2 ^ 32 = i := Nat.mod_eq_of_lt (by omega)
  -- The three instructions leave the truth value of the comparison.
  have hcompare : Eventually (hosted m e host)
      (InFrame m A.wide (st.pc + 3) (Numeric.bool (c % 2 ^ 32 = i) :: (xs ++ lo)) (ls ++ vs) s) Q x := by
    have hconsts : st'.consts = (intern (BitVec.ofNat 64 (i % 2 ^ 32)) st.consts).2 :=
      (branchIf_state hb hdead' hh').2.2.1
    refine (h.localGet hQ hget hc).bind fun y hy => ?_
    refine (hy.const (v := i) hQ hconst ?_).bind fun z hz => ?_
    · obtain ⟨l, hl⟩ := hpool
      have hin := intern_get (BitVec.ofNat 64 (i % 2 ^ 32)) st.consts
      rw [← hl, hconsts, List.getElem?_append_left (List.getElem?_eq_some_iff.mp hin).1, hin, hi32]
    · have hr : NumOp.apply .i32Eq ([i, c].reverse.map (· % 2 ^ 32)) =
          .ok [Numeric.bool (c % 2 ^ 32 = i % 2 ^ 32)] := rfl
      rw [hi32] at hr
      exact InFrame.num (o := .i32Eq) (u := [i, c]) hz heq rfl hr (Nat.le_succ 1)
  have hbool : Numeric.bool (c % 2 ^ 32 = i) % 2 ^ 32 ≠ 0 ↔ c % 2 ^ 32 = i := by
    unfold Numeric.bool
    split_ifs with hci
    · exact ⟨fun _ => hci, fun _ => by decide⟩
    · exact ⟨fun hn => absurd rfl hn, fun h => absurd h hci⟩
  have hh1 := hh'.trans (congrArg (· + 1) hh)
  have hslots' : A.wide.slots = env.nParams + env.nLocals := hslots
  refine hcompare.bind fun y hy => ?_
  refine (branchIf_follows hslots' hb hdead' hh1 hbase hrest hy).mono (fun z hz => ?_)
    fun _ _ hq => hq
  by_cases hci : c % 2 ^ 32 = i
  · rw [if_pos (hbool.mpr hci)] at hz
    rw [if_pos hci]
    exact arrives_narrow hcount hz
  · rw [if_neg (mt hbool.mp hci)] at hz
    rwa [if_neg hci]

theorem tableArms_state {i : Nat} (harms : tableArms env L ghost scratch i ks st = some (is, st'))
    (hdead : st.dead = false) :
    st'.dead = false ∧ st'.h = st.h ∧ st'.pc = st.pc + is.length := by
  induction ks generalizing i st is with
  | nil =>
    cases harms
    exact ⟨hdead, rfl, rfl⟩
  | cons k ks ih =>
    obtain ⟨is1, st1, is2, harm, hrest, rfl⟩ := andThen_eq_some.mp harms
    obtain ⟨hdead1, hh1, hpc1⟩ := tableArm_state harm hdead
    obtain ⟨hdead2, hh2, hpc2⟩ := ih hrest hdead1
    refine ⟨hdead2, hh2.trans hh1, hpc2.trans ?_⟩
    rw [hpc1, List.length_append]
    omega

/-- The comparisons of a branch table from the index `i` on find the target of the index. -/
theorem tableArms_follows (hslots : A.slots = env.nParams + env.nLocals)
    (hbase : ∀ l ∈ L, l.base ≤ lo.length) (hc : (ls ++ vs)[scratch]? = some c)
    (hcount : ls.length = A.nLocals) (hQ : ∀ r y, Exhausted r → Q r y)
    (harms : tableArms env L ghost scratch i ks st = some (is, st')) (hdead : st.dead = false)
    (hh : st.h = (xs ++ lo).length) (hcode : CodeAt m T st.pc is) (hpool : st'.consts <+: m.consts)
    (hi : i ≤ c % 2 ^ 32) (h : InFrame m A.wide st.pc (xs ++ lo) (ls ++ vs) s x) :
    Eventually (hosted m e host)
      (fun y => match ks[c % 2 ^ 32 - i]? with
        | some k => Arrives m A L T st' lo (.br k xs ls s) y
        | none => InFrame m A.wide st'.pc (xs ++ lo) (ls ++ vs) s y) Q x := by
  induction ks generalizing i st is x with
  | nil =>
    cases harms
    exact .now h
  | cons k ks ih =>
    obtain ⟨is1, st1, is2, harm, hrest, rfl⟩ := andThen_eq_some.mp harms
    obtain ⟨hcode1, hcode2⟩ := codeAt_append.mp hcode
    obtain ⟨hdead1, hh1, hpc1⟩ := tableArm_state harm hdead
    have hpool1 := (grows_tableArms scratch ks (i + 1) is2 st' hrest).trans hpool
    refine (tableArm_follows hslots harm hdead hh hbase hcode1 hpool1 hc hi hcount hQ h).bind
      fun y hy => ?_
    by_cases hci : c % 2 ^ 32 = i
    · rw [if_pos hci] at hy
      rw [hci, Nat.sub_self]
      exact .now hy
    · rw [if_neg hci] at hy
      rw [show c % 2 ^ 32 - i = c % 2 ^ 32 - (i + 1) + 1 by omega]
      rw [← hpc1] at hcode2
      exact ih hrest hdead1 (hh1.trans hh) hcode2 (by omega) hy

/-- A branch table branches to the target of the index on top. -/
theorem table_follows (hS : Setting M m segs env A) (hbase : ∀ l ∈ L, l.base ≤ lo.length)
    (hQ : ∀ r y, Exhausted r → Q r y) (ht : table env L ghost ks k st = some (is, st'))
    (hdead : st.dead = false) (hh : st.h = (xs ++ lo).length + 1) (hcode : CodeAt m T st.pc is)
    (hpool : st'.consts <+: m.consts) (h : InFrame m A st.pc (c :: (xs ++ lo)) ls s x) :
    Eventually (hosted m e host)
      (Arrives m A L T st' lo (.br (ks.getD (c % 2 ^ 32) k) xs ls s)) Q x := by
  unfold table at ht
  cases hscr : env.scratch with
  | none =>
    rw [hscr] at ht
    cases ht
  | some scratch =>
    rw [hscr] at ht
    obtain ⟨is1, st1, is2, hset, ht', rfl⟩ := andThen_eq_some.mp ht
    obtain ⟨is3, st3, is4, harms, hlast, rfl⟩ := andThen_eq_some.mp ht'
    obtain ⟨⟨is5, st5⟩, hbranch, heq⟩ := Option.map_eq_some_iff.mp hlast
    cases heq
    obtain ⟨hcode1, hcode2⟩ := codeAt_append.mp hcode
    obtain ⟨hcode3, hcode4⟩ := codeAt_append.mp hcode2
    obtain ⟨-, rfl, rfl⟩ := plain_live hset hdead
    obtain ⟨hdead3, hh3, hpc3⟩ := tableArms_state harms rfl
    obtain ⟨l, hk, hf, rfl, rfl⟩ := branch_inv hbranch hdead3
    have hh1 : st.h - 1 + 0 = (xs ++ lo).length := by omega
    have hh3' : st3.h = (xs ++ lo).length := hh3.trans hh1
    have hcount := h.count
    obtain ⟨hge, hlt⟩ := hS.scratch scratch hscr
    obtain ⟨vs, hw⟩ := h.widen
    have hwide : (ls ++ vs).length = A.slots := hw.count
    have hset' : (ls ++ vs).set scratch c = ls ++ vs.set (scratch - ls.length) c :=
      List.set_append_right _ _ (by omega)
    have hc : (ls ++ vs.set (scratch - ls.length) c)[scratch]? = some c := by
      rw [← hset', List.getElem?_set_self (by omega)]
    refine (hw.localSet hcode1.1 (by omega)).bind fun y hy => ?_
    rw [hset'] at hy
    refine (tableArms_follows hS.slots hbase hc hcount hQ harms rfl hh1 hcode3 hpool (Nat.zero_le _)
      hy).bind fun z hz => ?_
    rw [Nat.sub_zero] at hz
    rw [List.getD_eq_getElem?_getD]
    cases hks : ks[c % 2 ^ 32]? with
    | some k' =>
      rw [hks] at hz
      exact .now hz
    | none =>
      rw [hks] at hz
      have hcode5 : CodeAt m T st3.pc (branchItems env ghost l k st3) := hpc3 ▸ hcode4
      exact branch_follows hS.slots hk hf hdead3 hh3' (hbase l (List.mem_of_getElem? hk)) hcode5
        (hz.narrow hcount)

end Tables

end CuWasm
