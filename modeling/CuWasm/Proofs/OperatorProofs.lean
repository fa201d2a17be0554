import CuWasm.Proofs.EmitProofs
import CuWasm.Proofs.InstructionProofs
import CuWasm.Proofs.WidthProofs

/-!
# Operators

What the lowering emits for an operator does to the machine what the structured semantics says of it.
-/

namespace CuWasm

open Exit Run Wasm Structured

/-! ## Operators without control flow -/

section Simple

variable {H : Type} {I : Wasm.Instance H} {o : Operator} {xs ys lo ls ls' : List Nat}
  {s s' : Wasm.Store H}

theorem above_write (oob : Bool) (dst n : Nat) (g : Nat → Nat) :
    s.write oob dst n g (xs ++ lo) ls = (s.write oob dst n g xs ls).above lo := by
  unfold Wasm.Store.write
  split_ifs <;> rfl

/-- An operator that finds its operands does not look below them. -/
theorem simple_above (h : I.simple o xs ls s ≠ .wrong) (lo : List Nat) :
    I.simple o (xs ++ lo) ls s = (I.simple o xs ls s).above lo := by
  cases o with
  | nop | unreachable | const => rfl
  | num o =>
    simp only [Wasm.Instance.simple] at h ⊢
    by_cases hn : xs.length < o.type.1.1
    · rw [if_pos hn] at h
      exact absurd rfl h
    · rw [if_neg hn, if_neg (by rw [List.length_append]; omega),
        List.take_append_of_le_length (Nat.le_of_not_lt hn),
        List.drop_append_of_le_length (Nat.le_of_not_lt hn)]
      cases o.apply _ with
      | ok zs => simp only [Wasm.Outcome.above, List.append_assoc]
      | error t => rfl
  | globalGet i =>
    simp only [Wasm.Instance.simple]
    cases s.globals[i]? <;> rfl
  | localGet i =>
    simp only [Wasm.Instance.simple]
    cases ls[i]? <;> rfl
  | dataDrop d =>
    simp only [Wasm.Instance.simple]
    split_ifs <;> rfl
  | memorySize mem => rfl
  | drop | reinterpret r =>
    obtain _ | ⟨a, xs⟩ := xs
    · exact absurd rfl h
    · rfl
  | globalSet i | localSet i | localTee i | load o ma | memoryGrow mem =>
    obtain _ | ⟨a, xs⟩ := xs
    · exact absurd rfl h
    · simp only [Wasm.Instance.simple, List.cons_append]
      split_ifs <;> rfl
  | store o ma =>
    obtain _ | ⟨a, _ | ⟨b, xs⟩⟩ := xs
    · exact absurd rfl h
    · exact absurd rfl h
    · exact above_write ..
  | select | typedSelect t | memoryCopy dst src | memoryFill mem =>
    obtain _ | ⟨a, _ | ⟨b, _ | ⟨c, xs⟩⟩⟩ := xs
    · exact absurd rfl h
    · exact absurd rfl h
    · exact absurd rfl h
    · first | rfl | exact above_write ..
  | memoryInit d mem =>
    obtain _ | ⟨a, _ | ⟨b, _ | ⟨c, xs⟩⟩⟩ := xs
    · exact absurd rfl h
    · exact absurd rfl h
    · exact absurd rfl h
    · simp only [Wasm.Instance.simple, List.cons_append]
      by_cases hd : d < I.datas.length
      · rw [if_pos hd, if_pos hd]
        exact above_write ..
      · rw [if_neg hd, if_neg hd]
        rfl
  | _ => exact absurd rfl h

theorem write_next {oob : Bool} {dst n : Nat} {g : Nat → Nat}
    (h : s.write oob dst n g xs ls = .next ys ls' s') : ys = xs := by
  unfold Wasm.Store.write at h
  split_ifs at h
  cases h
  rfl

theorem single_length {x : Except Trap Nat} {zs : List Nat} (h : x.map ([·]) = .ok zs) :
    zs.length = 1 := by
  cases x with
  | error t => cases h
  | ok a =>
    cases h
    rfl

theorem apply_length {o : NumOp} {zs : List Nat} (h : o.apply xs = .ok zs) :
    zs.length = o.type.2.1 := by
  cases o
  case i32DivS | i32DivU | i64DivU | i32RemS | i32RemU | i64RemU | i64DivS | i64RemS =>
    exact single_length h
  all_goals
    cases h
    rfl

theorem type_results_le (o : NumOp) : o.type.2.1 ≤ o.type.1.1 := by
  cases o <;> decide

/-- What an operator without control flow takes and leaves. -/
theorem simple_next (C : Ctx) (h : I.simple o xs ls s = .next ys ls' s') :
    o.transfers = false ∧ (o.arity C).1 ≤ xs.length ∧
      ys.length = xs.length - (o.arity C).1 + (o.arity C).2 := by
  cases o with
  | nop | const =>
    cases h
    exact ⟨rfl, Nat.zero_le _, rfl⟩
  | num o =>
    simp only [Wasm.Instance.simple] at h
    split_ifs at h with hn
    cases hr : o.apply ((xs.take o.type.1.1).reverse.map (· % 2 ^ o.type.1.2.width)) with
    | error t =>
      rw [hr] at h
      cases h
    | ok zs =>
      rw [hr] at h
      cases h
      have hlen := apply_length hr
      refine ⟨rfl, Nat.le_of_not_lt hn, ?_⟩
      simp only [List.length_append, List.length_reverse, List.length_drop, Operator.arity, hlen]
      omega
  | globalGet i | localGet i =>
    simp only [Wasm.Instance.simple] at h
    split at h <;> cases h
    exact ⟨rfl, Nat.zero_le _, rfl⟩
  | memorySize mem =>
    cases h
    exact ⟨rfl, Nat.zero_le _, rfl⟩
  | dataDrop d =>
    simp only [Wasm.Instance.simple] at h
    split_ifs at h
    cases h
    exact ⟨rfl, Nat.zero_le _, rfl⟩
  | drop | reinterpret r =>
    obtain _ | ⟨a, xs⟩ := xs <;> cases h
    exact ⟨rfl, Nat.succ_le_succ (Nat.zero_le _), rfl⟩
  | globalSet i | localSet i | localTee i | load o ma | memoryGrow mem =>
    obtain _ | ⟨a, xs⟩ := xs
    · cases h
    · simp only [Wasm.Instance.simple] at h
      split_ifs at h
      all_goals
        cases h
        exact ⟨rfl, Nat.succ_le_succ (Nat.zero_le _), rfl⟩
  | store o ma =>
    obtain _ | ⟨a, _ | ⟨b, xs⟩⟩ := xs
    · cases h
    · cases h
    · rw [write_next h]
      exact ⟨rfl, Nat.succ_le_succ (Nat.succ_le_succ (Nat.zero_le _)), rfl⟩
  | select | typedSelect t =>
    obtain _ | ⟨a, _ | ⟨b, _ | ⟨c, xs⟩⟩⟩ := xs <;> cases h
    exact ⟨rfl, by simp [Operator.arity], by simp [Operator.arity]⟩
  | memoryCopy dst src | memoryFill mem | memoryInit d mem =>
    obtain _ | ⟨a, _ | ⟨b, _ | ⟨c, xs⟩⟩⟩ := xs
    · cases h
    · cases h
    · cases h
    · have hys : ys = xs := by
        simp only [Wasm.Instance.simple] at h
        try split_ifs at h
        all_goals exact write_next h
      rw [hys]
      exact ⟨rfl, by simp [Operator.arity], by simp [Operator.arity]⟩
  | _ => cases h

end Simple

section Emission

variable {env : LowerEnv} {L : List Label} {ghost : Bool} {st st' : State} {is : Items}

/-- One instruction in code that is reached. -/
theorem plain_live {op : Opcode} {a b pops pushes : Nat} {consts : List Slot}
    (hp : plain ghost op a b pops pushes { st with consts := consts } = some (is, st'))
    (hdead : st.dead = false) : pops ≤ st.h ∧
      is = [(.code ⟨op, a, b⟩, st.mark ghost st.h)] ∧
      st' = ⟨st.pc + 1, consts, st.h - pops + pushes, false⟩ := by
  obtain ⟨st2, hc, heq⟩ := Option.map_eq_some_iff.mp hp
  cases heq
  have hlive : (emit ghost ⟨op, a, b⟩ { st with consts := consts }).2.dead = false := hdead
  obtain ⟨h1, h2⟩ := consume_live hlive hc
  obtain ⟨h3, h4, h5⟩ := consume_dead hc
  obtain ⟨pc, pool, h, dead⟩ := st'
  cases h2
  cases h4
  cases h5
  cases h3.trans hdead
  exact ⟨h1, rfl, rfl⟩

/-- The state behind an operator without control flow. -/
theorem operator_live (C : Ctx) {o : Operator} {H : Type} {I : Wasm.Instance H} {xs ys ls ls' : List Nat}
    {s s' : Wasm.Store H} (hop : Structured.operator env L ghost o st = some (is, st'))
    (hdead : st.dead = false) (hh : st.h = xs.length) (hn : I.simple o xs ls s = .next ys ls' s') :
    st'.dead = false ∧ st'.h = ys.length := by
  obtain ⟨ht, hle, hlen⟩ := simple_next C hn
  have hplain : ∀ {op a b pops pushes consts},
      plain ghost op a b pops pushes { st with consts := consts } = some (is, st') →
      (pops, pushes) = o.arity C → st'.dead = false ∧ st'.h = ys.length := by
    intro op a b pops pushes consts hp ha
    obtain ⟨-, -, rfl⟩ := plain_live hp hdead
    rw [← ha] at hlen
    exact ⟨rfl, by rw [hh, hlen]⟩
  cases o with
  | nop =>
    cases hop
    exact ⟨hdead, hh.trans hlen.symm⟩
  | const c => exact hplain hop rfl
  | drop | select | typedSelect | globalGet | globalSet | localGet | localSet => exact hplain hop rfl
  | num o => exact hplain hop (Prod.ext (NumOp.lower_arity o).1 (NumOp.lower_arity o).2)
  | localTee i =>
    cases hop
    refine ⟨hdead, ?_⟩
    simp only [Operator.arity] at hle hlen
    show st.h = ys.length
    omega
  | load o ma | store o ma =>
    simp only [Structured.operator] at hop
    split at hop
    · cases hop
    · exact hplain hop rfl
  | memorySize | memoryGrow | memoryCopy | memoryFill | memoryInit =>
    simp only [Structured.operator] at hop
    split_ifs at hop
    exact hplain hop rfl
  | dataDrop =>
    cases hop
    exact ⟨hdead, hh.trans hlen.symm⟩
  | reinterpret r =>
    obtain ⟨st1, hc, heq⟩ := Option.map_eq_some_iff.mp hop
    cases heq
    obtain ⟨-, h2⟩ := consume_live hdead hc
    refine ⟨(consume_dead hc).1.trans hdead, ?_⟩
    rw [h2, hlen, hh]
    rfl
  | _ => cases hn

variable {m : HostModule} {T : Nat → Nat}

theorem plain_code {op : Opcode} {a b pops pushes : Nat} {consts : List Slot}
    (hp : plain ghost op a b pops pushes { st with consts := consts } = some (is, st'))
    (hdead : st.dead = false) (hcode : CodeAt m T st.pc is) :
    m.code[st.pc]? = some ⟨op, a, b⟩ ∧ st'.pc = st.pc + 1 ∧ st'.consts = consts := by
  obtain ⟨-, rfl, rfl⟩ := plain_live hp hdead
  exact ⟨hcode.1, rfl, rfl⟩

theorem constOp_slot (c : ConstOp) : ConstOp.slot c = BitVec.ofNat 64 c.value := by
  cases c with
  | i32 x | f32 x =>
    refine BitVec.eq_of_toNat_eq ?_
    have := x.isLt
    simp only [ConstOp.slot, ConstOp.value, slot32, BitVec.toNat_setWidth, BitVec.toNat_ofNat]
  | i64 x | f64 x =>
    simp only [ConstOp.slot, ConstOp.value, BitVec.ofNat_toNat, BitVec.setWidth_eq]

variable {H : Type} {M : Module} {segs : List (List Byte)} {e : FuncMeta} {host : HostFn H}
  {A : Activation} {xs ls : List Nat} {s : Wasm.Store H} {x : Flat H}

theorem num_performs {pc : Nat} {I : Wasm.Instance H} {o : NumOp} (h : InFrame m A pc xs ls s x)
    (hi : m.code[pc]? = some ⟨(NumOp.lower o).1, (NumOp.lower o).2.1, 0⟩) :
    Performs m e host A (pc + 1) (I.simple (.num o) xs ls s) x := by
  simp only [Wasm.Instance.simple]
  by_cases hn : xs.length < o.type.1.1
  · rw [if_pos hn]
    trivial
  · rw [if_neg hn]
    have hlen : (xs.take o.type.1.1).length = o.type.1.1 := by rw [List.length_take]; omega
    rw [← List.take_append_drop o.type.1.1 xs] at h
    cases hr : o.apply ((xs.take o.type.1.1).reverse.map (· % 2 ^ o.type.1.2.width)) with
    | ok zs =>
      refine h.num hi hlen hr ?_
      rw [apply_length hr, hlen]
      exact type_results_le o
    | error t => exact performs_trap (h.num_trap hi hlen hr fun _ _ hm => .inr hm)

/-- What is emitted for an operator without control flow does what the semantics says. -/
theorem simple_performs (hS : Setting M m segs env A) {o : Operator}
    (hop : Structured.operator env L ghost o st = some (is, st')) (hdead : st.dead = false)
    (hcode : CodeAt m T st.pc is) (hpool : st'.consts <+: m.consts)
    (h : InFrame m A st.pc xs ls s x) :
    Performs m e host A st'.pc ((M.toInstance m segs host).simple o xs ls s) x := by
  have hroom := h.room
  have hfew := hS.fewSlots
  have hcount := h.count
  cases o with
  | nop =>
    cases hop
    exact .now h
  | unreachable =>
    cases hop
    exact performs_trap (h.traps (f := .unreachable) hcode.1 rfl rfl fun r _ hr => .inr hr)
  | const c =>
    obtain ⟨hi, hpc, hconsts⟩ := plain_code hop hdead hcode
    rw [hpc]
    refine h.const (fun _ _ hr => .inl hr) hi ?_
    have hget := intern_get (ConstOp.slot c) st.consts
    obtain ⟨l, hl⟩ := hpool
    rw [hconsts] at hl
    rw [← constOp_slot, ← hl, List.getElem?_append_left (List.getElem?_eq_some_iff.mp hget).1, hget]
  | drop =>
    obtain ⟨hi, hpc, -⟩ := plain_code hop hdead hcode
    obtain _ | ⟨a, xs⟩ := xs
    · trivial
    · rw [hpc]
      exact h.drop hi
  | select | typedSelect t =>
    obtain ⟨hi, hpc, -⟩ := plain_code hop hdead hcode
    obtain _ | ⟨a, _ | ⟨b, _ | ⟨c, xs⟩⟩⟩ := xs
    · trivial
    · trivial
    · trivial
    · rw [hpc]
      exact h.select hi
  | num o =>
    obtain ⟨hi, hpc, -⟩ := plain_code (a := (NumOp.lower o).2.1) hop hdead hcode
    rw [hpc]
    exact num_performs h hi
  | globalGet i =>
    obtain ⟨hi, hpc, -⟩ := plain_code hop hdead hcode
    simp only [Wasm.Instance.simple]
    cases ha : s.globals[i]? with
    | none => trivial
    | some a =>
      rw [hpc]
      exact h.globalGet (fun _ _ hr => .inl hr) hi ha
  | globalSet i =>
    obtain ⟨hi, hpc, -⟩ := plain_code hop hdead hcode
    obtain _ | ⟨a, xs⟩ := xs
    · trivial
    · simp only [Wasm.Instance.simple]
      by_cases hi' : i < s.globals.length
      · rw [if_pos hi', hpc]
        exact h.globalSet hi hi'
      · rw [if_neg hi']
        trivial
  | localGet i =>
    obtain ⟨hi, hpc, -⟩ := plain_code hop hdead hcode
    simp only [Wasm.Instance.simple]
    cases ha : ls[i]? with
    | none => trivial
    | some a =>
      have hlt := (List.getElem?_eq_some_iff.mp ha).1
      rw [Nat.mod_eq_of_lt (by omega)] at hi
      rw [hpc]
      exact h.localGet (fun _ _ hr => .inl hr) hi ha
  | localSet i =>
    obtain ⟨hi, hpc, -⟩ := plain_code hop hdead hcode
    obtain _ | ⟨a, xs⟩ := xs
    · trivial
    · simp only [Wasm.Instance.simple]
      by_cases hi' : i < ls.length
      · rw [Nat.mod_eq_of_lt (by omega)] at hi
        rw [if_pos hi', hpc]
        exact h.localSet hi hi'
      · rw [if_neg hi']
        trivial
  | localTee i =>
    cases hop
    obtain _ | ⟨a, xs⟩ := xs
    · trivial
    · simp only [Wasm.Instance.simple]
      by_cases hi' : i < ls.length
      · obtain ⟨hset, hget, -⟩ := hcode
        simp only [Item.render] at hset hget
        rw [Nat.mod_eq_of_lt (by omega)] at hset hget
        rw [if_pos hi']
        refine Eventually.bind (h.localSet hset hi') fun y hy => ?_
        exact hy.localGet (fun _ _ hr => .inl hr) hget (List.getElem?_set_self hi')
      · rw [if_neg hi']
        trivial
  | load o ma =>
    simp only [Structured.operator] at hop
    cases hma : checkMemarg ma with
    | error t =>
      rw [hma] at hop
      cases hop
    | ok off =>
      rw [hma] at hop
      obtain ⟨hi, hpc, -⟩ := plain_code hop hdead hcode
      obtain _ | ⟨a, xs⟩ := xs
      · trivial
      · rw [Lower.checkMemarg_ok hma] at hi
        rw [hpc]
        exact h.load hi
  | store o ma =>
    simp only [Structured.operator] at hop
    cases hma : checkMemarg ma with
    | error t =>
      rw [hma] at hop
      cases hop
    | ok off =>
      rw [hma] at hop
      obtain ⟨hi, hpc, -⟩ := plain_code hop hdead hcode
      obtain _ | ⟨a, _ | ⟨b, xs⟩⟩ := xs
      · trivial
      · trivial
      · rw [Lower.checkMemarg_ok hma] at hi
        rw [hpc]
        exact h.store_ hi
  | memorySize mem =>
    simp only [Structured.operator] at hop
    split_ifs at hop
    obtain ⟨hi, hpc, -⟩ := plain_code hop hdead hcode
    rw [hpc]
    exact h.memorySize hi
  | memoryGrow mem =>
    simp only [Structured.operator] at hop
    split_ifs at hop
    obtain ⟨hi, hpc, -⟩ := plain_code hop hdead hcode
    obtain _ | ⟨a, xs⟩ := xs
    · trivial
    · rw [hpc]
      exact h.memoryGrow hS.memMax hi
  | memoryCopy dst src =>
    simp only [Structured.operator] at hop
    split_ifs at hop
    obtain ⟨hi, hpc, -⟩ := plain_code hop hdead hcode
    obtain _ | ⟨a, _ | ⟨b, _ | ⟨c, xs⟩⟩⟩ := xs
    · trivial
    · trivial
    · trivial
    · rw [hpc]
      exact h.memoryCopy hi
  | memoryFill mem =>
    simp only [Structured.operator] at hop
    split_ifs at hop
    obtain ⟨hi, hpc, -⟩ := plain_code hop hdead hcode
    obtain _ | ⟨a, _ | ⟨b, _ | ⟨c, xs⟩⟩⟩ := xs
    · trivial
    · trivial
    · trivial
    · rw [hpc]
      exact h.memoryFill hi
  | memoryInit d mem =>
    simp only [Structured.operator] at hop
    split_ifs at hop
    obtain ⟨hi, hpc, -⟩ := plain_code hop hdead hcode
    obtain _ | ⟨a, _ | ⟨b, _ | ⟨c, xs⟩⟩⟩ := xs
    · trivial
    · trivial
    · trivial
    · simp only [Wasm.Instance.simple]
      have hlen : (M.toInstance m segs host).datas.length = segs.length := List.length_map ..
      have hseg := hS.fewSegs
      by_cases hd : d < (M.toInstance m segs host).datas.length
      · rw [if_pos hd, hpc]
        rw [Nat.mod_eq_of_lt (by omega)] at hi
        exact h.memoryInit hS.segments (hlen ▸ hd) hi
      · rw [if_neg hd]
        trivial
  | dataDrop d =>
    cases hop
    simp only [Wasm.Instance.simple]
    have hlen : (M.toInstance m segs host).datas.length = segs.length := List.length_map ..
    have hseg := hS.fewSegs
    by_cases hd : d < (M.toInstance m segs host).datas.length
    · have hi : m.code[st.pc]? = some ⟨.dataDrop, d % 2 ^ 16, 0⟩ := hcode.1
      rw [Nat.mod_eq_of_lt (by omega)] at hi
      rw [if_pos hd]
      exact h.dataDrop (hS.segments.count.trans_gt (hlen ▸ hd)) hi
    · rw [if_neg hd]
      trivial
  | reinterpret r =>
    obtain ⟨st1, hc, heq⟩ := Option.map_eq_some_iff.mp hop
    cases heq
    obtain _ | ⟨a, xs⟩ := xs
    · trivial
    · rw [(consume_dead hc).2.1]
      exact .now h
  | _ => trivial

end Emission

end CuWasm
