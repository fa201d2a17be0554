import CuWasm.Proofs.AlikeProofs
import CuWasm.Proofs.MemSizeProofs
import CuWasm.Proofs.TargetProofs
import CuWasm.Traps

/-!
# Unreachable traps and stubs

Every `OP_UNREACHABLE` of a translated module comes from an `unreachable` of the source or is the
first instruction of a stub, and a run never leaves the code. So a run that ends with an unreachable
trap has executed one of the two, and a stub is executed exactly when a function that could not be
lowered is entered.
-/

namespace CuWasm

open Wasm Exit Translate

namespace Wasm.Module

variable {M : Module}

/-! ## The translator between two code entries -/

/-- The sections of a module up to the end of its code are read. -/
structure Read (M : Module) (s0 sN : TState) : Prop where
  header : each "parse" payload M.header {} = .ok s0
  headed : Headed M s0
  before : M.before M.code.length = .ok sN

theorem loaded_read {ps : List (Parsed Payload)} {m : HostModule} (he : Encodes M ps)
    (h : loadWasm ps = .ok m) :
    ∃ s0 sN, Read M s0 sN ∧ m.code = sN.code ∧ m.hostFnId = sN.hostFnIds := by
  unfold loadWasm translateWasm at h
  rw [each_encodes he] at h
  obtain ⟨m0, hm0, h⟩ := Verify.bind_eq_ok h
  obtain ⟨s, hs, hfin⟩ := Verify.bind_eq_ok hm0
  cases h
  obtain ⟨-, hcode, -, -, -, -, hids, -⟩ := finish_ok hfin
  unfold Module.payloads at hs
  rw [each_append] at hs
  obtain ⟨sN, hN, hs⟩ := Verify.bind_eq_ok hs
  obtain ⟨s3, hs3, hs⟩ := Verify.bind_eq_ok hs
  cases hs
  have hdata : SameFuncs sN s := each_sameFuncs (fun _ _ _ => addData_same) hs3
  obtain ⟨s0, hs0, -⟩ := Verify.bind_eq_ok (each_append (M.header) _ _ ▸ hN)
  refine ⟨s0, sN, ⟨hs0, header_ok hs0, ?_⟩, hcode.trans hdata.code, hids.trans hdata.hostFnIds⟩
  unfold Module.before
  rw [List.take_length]
  exact hN

section Read

variable {s0 sN : TState} (hr : Read M s0 sN)

include hr

/-- The code entries up to the end are read one after the other. -/
theorem Read.before_le {k : Nat} : ∃ s, M.before k = .ok s ∧
    Coded (M.code.take k) s0 s ∧ s.code <+: sN.code := by
  have hN := hr.before
  unfold Module.before at hN ⊢
  rw [List.take_length, ← List.take_append_drop k M.code, List.map_append, ← List.append_assoc,
    each_append] at hN
  obtain ⟨s, hs, hrest⟩ := Verify.bind_eq_ok hN
  have hs' := hs
  rw [each_append, hr.header] at hs'
  exact ⟨s, hs, code_ok hs', (code_ok hrest).code⟩

omit hr in
theorem before_grows {j k : Nat} {a b : TState} (hjk : j ≤ k) (ha : M.before j = .ok a)
    (hb : M.before k = .ok b) : a.code <+: b.code := by
  unfold Module.before at ha hb
  rw [← List.take_append_drop j (M.code.take k), List.take_take, Nat.min_eq_left hjk, List.map_append,
    ← List.append_assoc, each_append, ha] at hb
  exact (code_ok hb).code

/-- One code entry: its type is known and its body is lowered. -/
theorem Read.entry {k : Nat} {c : Func} (hc : M.code[k]? = some c) : ∃ ft s, M.EntryAt k c ft s ∧
    M.before (k + 1) = .ok (lowerBody s ft (c.locals.map (·.1)).sum c.body.function) := by
  have hk := (List.getElem?_eq_some_iff.mp hc).1
  obtain ⟨s, hs, hcoded, -⟩ := hr.before_le
  obtain ⟨s', hs', -, -⟩ := hr.before_le
  have hstep : each "parse" payload [Module.codeEntry c] s = .ok s' := by
    unfold Module.before at hs hs'
    have htake : M.code.take (k + 1) = M.code.take k ++ [c] := by
      rw [List.take_add_one, hc]
      rfl
    rw [htake, List.map_append, ← List.append_assoc, each_append, hs] at hs'
    exact hs'
  obtain ⟨tidx, ft, htidx, hft, -, rfl⟩ := addCode_ok hstep
  refine ⟨ft, s, ⟨hc, ?_, hs⟩, hs'⟩
  obtain ⟨fs, hfs, hlen⟩ := hcoded.funcs
  have hcount : s.funcs.length = (M.imports.filterMap importType).length + k := by
    rw [hfs, List.length_append, hr.headed.length, hr.headed.imports, hlen, List.length_take]
    omega
  rw [hcoded.funcTypeidx, hr.headed.funcTypeidx, hcount, Module.funcTypeidx,
    List.getElem?_append_right (Nat.le_add_right _ _), Nat.add_sub_cancel_left] at htidx
  rw [hcoded.funcTypes, hr.headed.funcTypes] at hft
  unfold Module.codeType
  rw [htidx]
  exact hft

end Read

/-! ## The code of a function -/

/-- The places where a trap instruction may stand: it is one of the source or begins a stub. -/
def TrapPos (M : Module) (p : Nat) : Prop :=
  M.FromSource p ∨ ∃ k code, M.FailsWith k code ∧ p = code.length

/-- Every branch stays inside the code, its last instruction leaves the function, and the trap
instructions are accounted for. -/
structure ClosedCode (M : Module) (code : List CuOp) : Prop where
  targets : ∀ (p : Nat) (i : CuOp), code[p]? = some i → i.op = .br ∨ i.op = .brIfNot →
    i.b < code.length
  last : ∀ p, code.length = p + 1 → Lower.opAt code p = some .endFunc
  traps : ∀ p, Lower.opAt code p = some .unreachable → M.TrapPos p

section Entry

variable {k : Nat} {c : Func} {ft : FuncType} {s : TState}

theorem EntryAt.within (ft : FuncType) (hs : ClosedCode M s.code) :
    Lower.Within M.TrapPos s.code.length (entryStart s ft) where
  bounded :=
    { le := le_rfl
      targets p i hi hop := (hs.targets p i hi hop).le
      starts c hc := by
        cases List.mem_singleton.mp hc
        exact le_rfl
      traps := hs.traps }
  low := le_rfl

theorem EntryAt.source (h : M.EntryAt k c ft s) (pre post : List Operator) (st : LState)
    (hops : c.body.function = pre ++ .unreachable :: post)
    (hpre : Lower.operators (entryEnv s ft c) pre (entryStart s ft) = .ok () st) :
    M.TrapPos st.code.length := .inl ⟨k, c, ft, s, pre, post, st, h, hops, hpre, rfl⟩

theorem EntryAt.closed (h : M.EntryAt k c ft s) (hplain : c.body.Plain)
    (hs : ClosedCode M s.code) :
    ClosedCode M (lowerBody s ft (c.locals.map (·.1)).sum c.body.function).code := by
  have hin := EntryAt.within ft hs
  obtain ⟨f, code', consts', heq, hplaced⟩ :=
    lowerBody_placed s ft (c.locals.map (·.1)).sum c.body.function
  rw [heq]
  cases hplaced with
  | lowered hlow =>
    have hcode := (lowerOperators_final hlow).1
    obtain ⟨t, ht, -⟩ := lowerOperators_ok hlow
    rw [ht] at hcode
    obtain ⟨n, hb, hlen, hlast⟩ := Lower.function_bounded _ hplain rfl rfl hin h.source ht
    cases hcode
    refine ⟨fun p i hi hop => ?_, fun p hp => ?_, hb.traps⟩
    · have := hb.targets p i hi hop
      simp only [final_ok]
      omega
    · have hpn : p = n := Nat.succ.inj (hp.symm.trans hlen)
      subst hpn
      exact hlast
  | stub hlow hf hc =>
    rename_i e code1
    obtain ⟨hcode, -⟩ := lowerOperators_final hlow
    have hw := Lower.operators_within (entryEnv s ft c) c.body.function hin h.source
    have hfail : M.FailsWith k code1 := ⟨c, ft, s, e, consts', h, hlow⟩
    have hcode1 : (final (Lower.operators (entryEnv s ft c) c.body.function (entryStart s ft))).code =
      code1 := hcode.symm
    have htraps := hw.bounded.traps
    have htargets := hw.bounded.targets
    rw [hcode1] at htraps htargets
    rw [hc]
    refine ⟨?_, ?_, ?_⟩
    · intro p i hi hop
      simp only [List.length_append, List.length_cons, List.length_nil]
      rcases Nat.lt_or_ge p code1.length with hlt | hge
      · rw [List.getElem?_append_left hlt] at hi
        have := htargets p i hi hop
        omega
      · rw [List.getElem?_append_right hge] at hi
        rcases List.mem_cons.mp (List.mem_of_getElem? hi) with rfl | hi
        · rcases hop with hop | hop <;> cases hop
        · cases List.mem_singleton.mp hi
          rcases hop with hop | hop <;> cases hop
    · intro p hp
      simp only [List.length_append, List.length_cons, List.length_nil] at hp
      have hp1 : p = code1.length + 1 := by omega
      subst hp1
      unfold Lower.opAt
      rw [List.getElem?_append_right (Nat.le_add_right _ _), Nat.add_sub_cancel_left]
      rfl
    · intro p hp
      rcases Nat.lt_trichotomy p code1.length with hlt | rfl | hgt
      · refine htraps p ?_
        unfold Lower.opAt at hp ⊢
        rwa [List.getElem?_append_left hlt] at hp
      · exact .inr ⟨k, code1, hfail, rfl⟩
      · unfold Lower.opAt at hp
        rw [List.getElem?_append_right hgt.le] at hp
        obtain ⟨j, hj⟩ : ∃ j, p - code1.length = j + 1 := ⟨p - code1.length - 1, by omega⟩
        rw [hj] at hp
        cases j with
        | zero => cases hp
        | succ j => cases hp

/-- The code that the pass over the entry leaves. -/
def passCode (s : TState) (ft : FuncType) (c : Func) : List CuOp :=
  (final (Lower.operators (entryEnv s ft c) c.body.function (entryStart s ft))).code

theorem passCode_le (s : TState) (ft : FuncType) (c : Func) : s.code.length ≤ (passCode s ft c).length ∧
    (passCode s ft c).length ≤ (lowerBody s ft (c.locals.map (·.1)).sum c.body.function).code.length := by
  obtain ⟨f, code', consts', heq, hplaced⟩ :=
    lowerBody_placed s ft (c.locals.map (·.1)).sum c.body.function
  rw [heq]
  cases hplaced with
  | lowered hlow =>
    have hcode : code' = passCode s ft c := (lowerOperators_final hlow).1
    exact ⟨hcode ▸ (lowerOperators_grows hlow).1.length_le, by rw [← hcode]⟩
  | stub hlow hf hc =>
    rename_i e code1
    have hcode : code1 = passCode s ft c := (lowerOperators_final hlow).1
    refine ⟨hcode ▸ (lowerOperators_grows hlow).1.length_le, ?_⟩
    rw [← hcode, hc, List.length_append]
    exact Nat.le_add_right _ _

/-- An `unreachable` of the entry leaves its instruction between the code before and behind the
pass. -/
theorem EntryAt.source_range (hs : ClosedCode M s.code) {pre post : List Operator} {st : LState}
    (hops : c.body.function = pre ++ .unreachable :: post)
    (hpre : Lower.operators (entryEnv s ft c) pre (entryStart s ft) = .ok () st) :
    s.code.length ≤ st.code.length ∧ st.code.length < (passCode s ft c).length := by
  have hin := EntryAt.within ft hs
  have htrue : Lower.Within (fun _ => True) s.code.length (entryStart s ft) :=
    ⟨⟨le_rfl, hin.bounded.targets, hin.bounded.starts, fun _ _ => trivial⟩, le_rfl⟩
  have hst := Lower.operators_within (entryEnv s ft c) pre htrue fun _ _ _ _ _ => trivial
  rw [hpre] at hst
  refine ⟨hst.low, ?_⟩
  have hun := Lower.unreachable_within (entryEnv s ft c) hst trivial
  have hlen := Lower.operators_length (entryEnv s ft c) post hun
  unfold passCode
  rw [hops, Structured.operators_append, bind_ok hpre]
  show st.code.length < (final ((Lower.operator (entryEnv s ft c) .unreachable >>= fun _ =>
    Lower.operators (entryEnv s ft c) post) st)).code.length
  rw [bind_ok (Lower.unreachable_apply _ _)]
  rw [Lower.unreachable_apply] at hlen
  refine Nat.lt_of_lt_of_le ?_ hlen
  simp only [final_ok, List.length_append, List.length_singleton]
  exact Nat.lt_succ_self _

/-- The stub stands behind what the failed pass has left. -/
theorem FailsWith.range {code : List CuOp} (h : M.FailsWith k code) : ∃ c ft s, M.EntryAt k c ft s ∧
    code = passCode s ft c ∧
    code.length < (lowerBody s ft (c.locals.map (·.1)).sum c.body.function).code.length := by
  obtain ⟨c, ft, s, e, consts, hat, hlow⟩ := h
  refine ⟨c, ft, s, hat, (lowerOperators_final hlow).1, ?_⟩
  unfold lowerBody
  simp only [hlow, List.length_append, List.length_cons, List.length_nil]
  omega

end Entry

theorem EntryAt.unique {k : Nat} {c c' : Func} {ft ft' : FuncType} {s s' : TState}
    (h : M.EntryAt k c ft s) (h' : M.EntryAt k c' ft' s') : c' = c ∧ ft' = ft ∧ s' = s := by
  have h1 := h.code.symm.trans h'.code
  have h2 := h.type.symm.trans h'.type
  have h3 := h.before.symm.trans h'.before
  cases h1
  cases h2
  cases h3
  exact ⟨rfl, rfl, rfl⟩

section Read

variable {s0 sN : TState} (hr : Read M s0 sN) (hplain : ∀ c ∈ M.code, c.body.Plain)

include hr hplain

theorem Read.closed {k : Nat} {s : TState} (hk : k ≤ M.code.length) (hs : M.before k = .ok s) :
    ClosedCode M s.code := by
  induction k generalizing s with
  | zero =>
    have hhead : s = s0 := by
      unfold Module.before at hs
      rw [List.take_zero, List.map_nil, List.append_nil, hr.header] at hs
      cases hs
      rfl
    rw [hhead, hr.headed.code]
    exact ⟨fun p i hi => by simp at hi, fun p hp => by simp at hp,
      fun p hp => by simp [Lower.opAt] at hp⟩
  | succ k ih =>
    have hc := List.getElem?_eq_getElem (Nat.lt_of_succ_le hk)
    obtain ⟨ft, t, hat, hnext⟩ := hr.entry hc
    rw [hs] at hnext
    cases hnext
    exact hat.closed (hplain _ (List.mem_of_getElem? hc)) (ih (Nat.le_of_succ_le hk) hat.before)

/-- No instruction of the source stands where a stub begins. -/
theorem Read.disjoint {p k : Nat} {code : List CuOp} (hsrc : M.FromSource p)
    (hfail : M.FailsWith k code) : p ≠ code.length := by
  rintro rfl
  obtain ⟨k', c', ft', s', pre, post, st, hat', hops, hpre, hp⟩ := hsrc
  obtain ⟨c, ft, s, hat, hcode, hlt⟩ := hfail.range
  have hk := (List.getElem?_eq_some_iff.mp hat.code).1
  have hk' := (List.getElem?_eq_some_iff.mp hat'.code).1
  obtain ⟨hlow, hhigh⟩ := EntryAt.source_range (hr.closed hplain hk'.le hat'.before) hops hpre
  rcases Nat.lt_trichotomy k' k with hkk | rfl | hkk
  · obtain ⟨ft1, s1, hat1, hnext⟩ := hr.entry hat'.code
    obtain ⟨-, rfl, rfl⟩ := hat'.unique hat1
    have h1 := (before_grows hkk hnext hat.before).length_le
    have h2 := (passCode_le s1 ft1 c').2
    have h3 := (passCode_le s ft c).1
    rw [hcode] at hp
    omega
  · obtain ⟨rfl, rfl, rfl⟩ := hat'.unique hat
    rw [hcode] at hp
    omega
  · obtain ⟨ft1, s1, hat1, hnext⟩ := hr.entry hat.code
    obtain ⟨-, rfl, rfl⟩ := hat.unique hat1
    have h1 := (before_grows hkk hnext hat'.before).length_le
    omega

end Read

end Wasm.Module

/-! ## The program counter -/

/-- Code that a run cannot leave: branches and function entries stay inside, and the last instruction
returns. -/
structure Runnable (m : DevModule) : Prop where
  targets : ∀ (p : Nat) (i : CuOp), m.code[p]? = some i → i.op = .br ∨ i.op = .brIfNot →
    i.b < m.code.length
  last : ∀ (p : Nat) (i : CuOp), m.code[p]? = some i → i.op ≠ .endFunc → p + 1 < m.code.length
  funcs : ∀ f ∈ m.funcs, f.codeOff < m.code.length

/-- The machine stands at an instruction, and so does every caller it returns to. -/
structure InCode (v : Views) (m : DevModule) (s : Mach) : Prop where
  pc : s.pc < m.code.length
  csp : 0 < s.csp
  ret : ∀ j, 0 < j → j < s.csp → (s.frames (v.frames.idx j)).retPc < m.code.length

namespace InCode

variable {v : Views} {m : DevModule} {s t : Mach} {i : CuOp}

theorem of_control (h : InCode v m s) (hpc : t.pc < m.code.length) (hcsp : t.csp = s.csp)
    (hframes : t.frames = s.frames) : InCode v m t where
  pc := hpc
  csp := by rw [hcsp]; exact h.csp
  ret j h0 hj := by
    rw [hframes]
    exact h.ret j h0 (hcsp ▸ hj)

theorem enter {f : FuncMeta} (h : InCode v m s) (hf : f.codeOff < m.code.length)
    (hx : Run.enter v f s = .ok () t) : InCode v m t := by
  rw [Run.enter_apply, Run.pushZeros_apply] at hx
  split_ifs at hx
  cases hx
  refine ⟨hf, Nat.succ_pos _, fun j h0 hj => ?_⟩
  show (Function.update s.frames (v.frames.idx s.csp) (Run.callFrame f s) (v.frames.idx j)).retPc < _
  by_cases hjc : j = s.csp
  · subst hjc
    rw [Function.update_self]
    exact h.pc
  · rw [Function.update_of_ne (by rw [ne_eq, AoSView.idx_inj]; exact hjc)]
    exact h.ret j h0 (by have : j < s.csp + 1 := hj; omega)

/-- Returning needs no instruction behind the current one. -/
theorem leave (hcsp : 0 < s.csp)
    (hret : ∀ j, 0 < j → j < s.csp → (s.frames (v.frames.idx j)).retPc < m.code.length)
    (hx : Run.leave v s = .ok () t) : InCode v m t := by
  rw [Run.leave_apply] at hx
  simp only at hx
  split_ifs at hx with h0 h1 h2
  cases hx
  refine ⟨hret _ (by omega) (by omega), ?_, fun j hj0 hj => ?_⟩
  · show 0 < s.csp - 1
    omega
  · have hj' : j < s.csp - 1 := hj
    exact hret j hj0 (by omega)

theorem returnCall {f : FuncMeta} (h : InCode v m s) (hf : f.codeOff < m.code.length)
    (hx : Run.returnCall v f s = .ok () t) : InCode v m t := by
  rw [Run.returnCall_apply, Run.pushZeros_apply] at hx
  split_ifs at hx
  cases hx
  unfold Run.retargeted
  rw [if_pos h.csp]
  refine ⟨hf, h.csp, fun j h0 hj => ?_⟩
  show (Function.update s.frames (v.frames.idx (s.csp - 1))
    { s.frames (v.frames.idx (s.csp - 1)) with nResults := f.nResults } (v.frames.idx j)).retPc < _
  by_cases hjc : j = s.csp - 1
  · subst hjc
    rw [Function.update_self]
    exact h.ret _ h0 hj
  · rw [Function.update_of_ne (by rw [ne_eq, AoSView.idx_inj]; exact hjc)]
    exact h.ret j h0 hj

theorem fetch (hm : Runnable m) (h : InCode v m s) (hi : m.code[s.pc]? = some i)
    (hop : i.op ≠ .endFunc) : InCode v m (Run.fetched s) :=
  h.of_control (hm.last s.pc i hi hop) rfl rfl

/-- A transfer of control keeps the machine inside the code. -/
theorem transfer (hm : Runnable m) (h : InCode v m s) (hi : m.code[s.pc]? = some i)
    (hend : i.op ≠ .endFunc) (hop : Run.transfers i.op = true)
    (hx : Run.exec v m i (Run.fetched s) = .ok () t) : InCode v m t := by
  have hf := h.fetch hm hi hend
  have hcallee {j : Nat} {f : FuncMeta} (hj : m.funcs[j]? = some f) : f.codeOff < m.code.length :=
    hm.funcs f (List.mem_of_getElem? hj)
  have hcases : i.op = .br ∨ i.op = .brIfNot ∨ i.op = .call ∨ i.op = .returnCall ∨ i.op = .ret ∨
      i.op = .callIndirect := by
    cases hk : i.op <;> rw [hk] at hop hend <;> simp_all [Run.transfers]
  rcases hcases with hk | hk | hk | hk | hk | hk
  · have hb := hm.targets _ i hi (.inl hk)
    simp only [Run.exec, hk, Run.br_apply] at hx
    split_ifs at hx
    · cases hx
      exact hf.of_control hb rfl rfl
    · cases hx
      exact hf.of_control hb rfl rfl
  · have hb := hm.targets _ i hi (.inr hk)
    simp only [Run.exec, hk, bind_apply, Run.pop_apply, ite_run, modify_apply, pure_apply] at hx
    split_ifs at hx
    · cases hx
      exact hf.of_control hb rfl rfl
    · cases hx
      exact hf.of_control hf.pc rfl rfl
  · simp only [Run.exec, hk] at hx
    cases hj : m.funcs[i.b]? with
    | none =>
      rw [hj] at hx
      cases hx
    | some f =>
      rw [hj] at hx
      exact hf.enter (hcallee hj) hx
  · simp only [Run.exec, hk] at hx
    cases hj : m.funcs[i.b]? with
    | none =>
      rw [hj] at hx
      cases hx
    | some f =>
      rw [hj] at hx
      exact hf.returnCall (hcallee hj) hx
  · simp only [Run.exec, hk] at hx
    exact leave hf.csp hf.ret hx
  · simp only [Run.exec, hk, bind_apply, Run.pop_apply, Run.indirectCallee_apply] at hx
    cases hg : Run.indirectTarget m i.b
        (u32 ((Run.fetched s).stack (v.stack.idx (dec32 (Run.fetched s).sp)))).toNat with
    | none =>
      rw [hg] at hx
      cases hx
    | some f =>
      rw [hg] at hx
      refine enter ?_ (hm.funcs f (Run.indirectTarget_mem hg)) hx
      exact hf.of_control hf.pc rfl rfl

/-- One instruction keeps the machine inside the code. -/
theorem exec (hm : Runnable m) (h : InCode v m s) (hi : m.code[s.pc]? = some i)
    (hx : Run.exec v m i (Run.fetched s) = .ok () t) : InCode v m t := by
  by_cases hend : i.op = .endFunc
  · simp only [Run.exec, hend] at hx
    exact leave (s := Run.fetched s) h.csp h.ret hx
  · by_cases hop : Run.transfers i.op = true
    · exact h.transfer hm hi hend hop hx
    · have hf := h.fetch hm hi hend
      have hkeep := (Run.exec_keeps_control v m (Bool.eq_false_iff.mpr hop)).ok hx
      unfold Run.control at hkeep
      simp only [Prod.mk.injEq] at hkeep
      exact hf.of_control (by rw [hkeep.1]; exact hf.pc) hkeep.2.2.1 hkeep.2.2.2

theorem step (hm : Runnable m) (h : InCode v m s) (hs : Run.step v m s = .ok () t) :
    InCode v m t := by
  obtain ⟨i, hi, hx⟩ := Run.step_ok v m hs
  exact h.exec hm hi hx

theorem pending (hm : Runnable m) (h : InCode v m s)
    (hs : Run.step v m s = .error .hostcallPending t) : InCode v m t := by
  obtain ⟨i, hi, hop, rfl⟩ := Run.step_pending v m hs
  have hf := h.fetch hm hi (by rw [hop]; decide)
  exact hf.of_control hf.pc rfl rfl

end InCode

/-! ## Runs of the driver -/

theorem loop_ends {v : Views} {m : DevModule} {n : Nat} {s t : Mach} {st : Status}
    (h : Run.loop v m n s = (st, t)) : (st = .running ∧ Steps (Run.step v m) n s t) ∨
      ∃ k u, k < n ∧ Steps (Run.step v m) k s u ∧ Run.step v m u = .error st t := by
  induction n generalizing s with
  | zero =>
    cases h
    exact .inl ⟨rfl, .zero _⟩
  | succ n ih =>
    unfold Run.loop at h
    cases hs : Run.step v m s with
    | ok a u =>
      rw [hs] at h
      rcases ih h with ⟨hst, hsteps⟩ | ⟨k, w, hk, hsteps, hw⟩
      · exact .inl ⟨hst, .succ hs hsteps⟩
      · exact .inr ⟨k + 1, w, Nat.succ_lt_succ hk, .succ hs hsteps, hw⟩
    | error e u =>
      rw [hs] at h
      cases h
      exact .inr ⟨0, s, Nat.succ_pos n, .zero s, hs⟩

theorem loop_of_error {v : Views} {m : DevModule} {n k : Nat} {s u t : Mach} {e : Status}
    (hk : k < n) (hsteps : Steps (Run.step v m) k s u) (hu : Run.step v m u = .error e t) :
    Run.loop v m n s = (e, t) := by
  induction hsteps generalizing n with
  | zero s =>
    obtain ⟨n, rfl⟩ : ∃ n', n = n' + 1 := ⟨n - 1, by omega⟩
    unfold Run.loop
    rw [hu]
  | succ h _ ih =>
    obtain ⟨n, rfl⟩ : ∃ n', n = n' + 1 := ⟨n - 1, by omega⟩
    unfold Run.loop
    rw [h]
    exact ih (Nat.lt_of_succ_lt_succ hk) hu

section Driver

variable {H : Type} {m : HostModule} {f : FuncMeta} {host : HostFn H} {maxSteps : Nat}
  {c c' c0 : CpuState H} {s s' t t' : Mach} {e e' : Status}

theorem hostCall_control (h : hostCall m host maxSteps c = .inr c') :
    Run.control (c'.mach m) = Run.control (c.mach m) := by
  unfold hostCall at h
  cases hr : (c.ask host).reply with
  | error e =>
    simp only [hr] at h
    cases h
  | ok p =>
    simp only [hr] at h
    split at h
    · cases h
    · cases h
      rfl

theorem cpuResume_control (h : cpuResume m host maxSteps c = .inr c') :
    Run.control (c'.mach m) = Run.control (c.mach m) := by
  unfold cpuResume at h
  split_ifs at h
  · exact hostCall_control h
  · cases h
    rfl

theorem InCode.congr {v : Views} {d : DevModule} (h : InCode v d s)
    (heq : Run.control t = Run.control s) : InCode v d t := by
  unfold Run.control at heq
  simp only [Prod.mk.injEq] at heq
  exact h.of_control (by rw [heq.1]; exact h.pc) heq.2.2.1 heq.2.2.2

/-- A machine that a run can go on with stands inside the code. -/
theorem CpuRuns.inCode (hm : Runnable m.dev) (h0 : InCode m.cpuViews m.dev (c0.mach m))
    (h : CpuRuns m f host maxSteps c0 c)
    (hst : c.st.status = .running ∨ c.st.status = .hostcallPending) :
    InCode m.cpuViews m.dev (c.mach m) := by
  induction h with
  | refl => exact h0
  | @tail b c _ hround ih =>
    obtain ⟨c1, hres, hrun, rfl⟩ := cpuRound_inr hround
    have hb : b.st.status = .running ∨ b.st.status = .hostcallPending := by
      unfold cpuResume at hres
      split_ifs at hres with hpend
      · exact .inr hpend
      · cases hres
        exact .inl hrun
    have h1 := (ih hb).congr (cpuResume_control hres)
    generalize hloop : Run.loop m.cpuViews m.dev maxSteps (c1.mach m) = p
    obtain ⟨st, u⟩ := p
    have hstatus : (runOnce m maxSteps c1).st.status = st := congrArg Prod.fst hloop
    have hmach : Run.control ((runOnce m maxSteps c1).mach m) = Run.control u :=
      congrArg (fun p => Run.control p.2) hloop
    refine InCode.congr ?_ hmach
    rcases loop_ends hloop with ⟨-, hsteps⟩ | ⟨k, w, -, hsteps, hw⟩
    · exact hsteps.invariant (fun _ _ h hs => h.step hm hs) h1
    · have hin := hsteps.invariant (fun _ _ h hs => h.step hm hs) h1
      rw [hstatus] at hst
      rcases hst with rfl | rfl
      · exact absurd hw (Run.step_not_running _ _ _ _)
      · exact hin.pending hm hw

theorem Visits.inCode (hm : Runnable m.dev) (h0 : InCode m.cpuViews m.dev (c0.mach m))
    (h : Visits m f host maxSteps c0 s) : InCode m.cpuViews m.dev s := by
  obtain ⟨c, c1, k, hc, hres, hrun, -, hsteps⟩ := h
  have hst : c.st.status = .running ∨ c.st.status = .hostcallPending := by
    unfold cpuResume at hres
    split_ifs at hres with hpend
    · exact .inr hpend
    · cases hres
      exact .inl hrun
  exact hsteps.invariant (fun _ _ h hs => h.step hm hs)
    ((hc.inCode hm h0 hst).congr (cpuResume_control hres))

/-- The round in which the machine stops. -/
theorem stop_round {c1 : CpuState H} {k : Nat} (hres : cpuResume m host maxSteps c = .inr c1)
    (hrun : c1.st.status = .running) (hk : k < maxSteps)
    (hsteps : Steps (Run.step m.cpuViews m.dev) k (c1.mach m) s)
    (hs : Run.step m.cpuViews m.dev s = .error e t) :
    cpuRound m f host maxSteps c = .inr (runOnce m maxSteps c1) ∧
      (runOnce m maxSteps c1).st.status = e := by
  constructor
  · rw [cpuRound_eq, hres]
    simp only [hrun, ne_eq, not_true_eq_false, if_false]
  · exact congrArg Prod.fst (loop_of_error hk hsteps hs)

/-- A state with a final status ends the run. -/
theorem final_round (h1 : c.st.status ≠ .running) (h2 : c.st.status ≠ .hostcallPending) :
    cpuRound m f host maxSteps c = .inl (finalResult m f maxSteps c) := by
  rw [cpuRound_eq]
  unfold cpuResume
  simp only [if_neg h2, ne_eq, h1, not_false_eq_true, if_true]

theorem cpuLoop_of_runs {r : RunResult × HostModule × H} (h : CpuRuns m f host maxSteps c0 c)
    (hr : cpuRound m f host maxSteps c = .inl r) :
    ∃ rounds, cpuLoop m f host maxSteps rounds c0 = some r := by
  induction h using Relation.ReflTransGen.head_induction_on with
  | refl =>
    refine ⟨1, ?_⟩
    unfold cpuLoop
    rw [hr]
  | head hround _ ih =>
    obtain ⟨n, hn⟩ := ih
    refine ⟨n + 1, ?_⟩
    unfold cpuLoop
    rw [hround]
    exact hn

/-- A run that stops in a visited state ends with the status it stops with. -/
theorem Visits.ends (h : Visits m f host maxSteps c0 s)
    (hs : Run.step m.cpuViews m.dev s = .error e t) (h1 : e ≠ .running) (h2 : e ≠ .hostcallPending) :
    EndsWith m f host maxSteps c0 e := by
  obtain ⟨c, c1, k, hc, hres, hrun, hk, hsteps⟩ := h
  obtain ⟨hround, hst⟩ := stop_round (f := f) hres hrun hk hsteps hs
  obtain ⟨rounds, hloop⟩ := cpuLoop_of_runs (hc.tail hround)
    (final_round (by rw [hst]; exact h1) (by rw [hst]; exact h2))
  exact ⟨rounds, _, hloop, hst⟩

/-- A run that ends with an unreachable trap has stopped with it in a visited state. -/
theorem EndsWith.stops (h : EndsWith m f host maxSteps c0 .trapUnreachable)
    (h0 : c0.st.status = .running) : ∃ s t, Visits m f host maxSteps c0 s ∧
      Run.step m.cpuViews m.dev s = .error .trapUnreachable t := by
  obtain ⟨rounds, r, hloop, hstat⟩ := h
  obtain ⟨c, hc, hend⟩ := cpuLoop_runs .refl hloop
  rcases cpuRound_inl hend with ⟨-, hcall⟩ | ⟨-, rfl⟩
  · unfold hostCall at hcall
    cases hr : (c.ask host).reply with
    | error e =>
      simp only [hr] at hcall
      cases hcall
      cases hstat
    | ok p =>
      simp only [hr] at hcall
      split at hcall
      · cases hcall
        cases hstat
      · cases hcall
  · rcases Relation.ReflTransGen.cases_tail hc with heq | ⟨b, hb, hround⟩
    · rw [heq] at hstat
      have hrun : c0.st.status = .trapUnreachable := hstat
      rw [h0] at hrun
      cases hrun
    · obtain ⟨c1, hres, hrun, rfl⟩ := cpuRound_inr hround
      have hloop' : (Run.loop m.cpuViews m.dev maxSteps (c1.mach m)).1 = .trapUnreachable := hstat
      have hpair : Run.loop m.cpuViews m.dev maxSteps (c1.mach m) =
          (.trapUnreachable, (Run.loop m.cpuViews m.dev maxSteps (c1.mach m)).2) := Prod.ext hloop' rfl
      rcases loop_ends hpair with ⟨h, -⟩ | ⟨k, u, hk, hu, hs⟩
      · cases h
      · exact ⟨u, _, ⟨b, c1, k, hb, hres, hrun, hk, hu⟩, hs⟩

theorem Steps.stop_unique {k k' : Nat} {v : Views} {d : DevModule} {x : Mach}
    (h : Steps (Run.step v d) k x s) (hs : Run.step v d s = .error e t)
    (h' : Steps (Run.step v d) k' x s') (hs' : Run.step v d s' = .error e' t') : s' = s := by
  induction h generalizing k' with
  | zero s =>
    cases h' with
    | zero => rfl
    | succ h1 _ =>
      rw [hs] at h1
      cases h1
  | succ h1 _ ih =>
    cases h' with
    | zero =>
      rw [hs'] at h1
      cases h1
    | succ h1' h2' =>
      rw [h1] at h1'
      cases h1'
      exact ih hs h2'

/-- A run stops once. -/
theorem Visits.stop_unique (h : Visits m f host maxSteps c0 s)
    (hs : Run.step m.cpuViews m.dev s = .error e t) (h1 : e ≠ .running) (h2 : e ≠ .hostcallPending)
    (h' : Visits m f host maxSteps c0 s') (hs' : Run.step m.cpuViews m.dev s' = .error e' t')
    (h1' : e' ≠ .running) (h2' : e' ≠ .hostcallPending) : s' = s := by
  obtain ⟨c, c1, k, hc, hres, hrun, hk, hsteps⟩ := h
  obtain ⟨d, d1, k', hd, hres', hrun', hk', hsteps'⟩ := h'
  obtain ⟨hround, hst⟩ := stop_round (f := f) hres hrun hk hsteps hs
  obtain ⟨hround', hst'⟩ := stop_round (f := f) hres' hrun' hk' hsteps' hs'
  -- behind the round in which the machine stops there is no further round
  have hlast {a b : CpuState H} (ha : CpuRuns m f host maxSteps a b) (x : CpuState H)
      (hr1 : a.st.status ≠ .running) (hr2 : a.st.status ≠ .hostcallPending)
      (hb : cpuRound m f host maxSteps b = .inr x) : False := by
    have hfin : cpuRound m f host maxSteps a = .inl (finalResult m f maxSteps a) :=
      final_round hr1 hr2
    rcases Relation.ReflTransGen.cases_head ha with rfl | ⟨y, hy, -⟩
    · rw [hfin] at hb
      cases hb
    · rw [hfin] at hy
      cases hy
  have hsame : c = d → s' = s := by
    rintro rfl
    rw [hres] at hres'
    cases hres'
    exact Steps.stop_unique hsteps hs hsteps' hs'
  have huniq : Relator.RightUnique fun c c' => cpuRound m f host maxSteps c = .inr c' := by
    intro a b b' hb hb'
    exact Sum.inr.inj (hb.symm.trans hb')
  rcases Relation.ReflTransGen.total_of_right_unique huniq hc hd with hcd | hdc
  · rcases Relation.ReflTransGen.cases_head hcd with heq | ⟨y, hy, hyd⟩
    · exact hsame heq
    · rw [hround] at hy
      cases hy
      exact (hlast hyd _ (by rw [hst]; exact h1) (by rw [hst]; exact h2) hround').elim
  · rcases Relation.ReflTransGen.cases_head hdc with heq | ⟨y, hy, hyc⟩
    · exact hsame heq.symm
    · rw [hround'] at hy
      cases hy
      exact (hlast hyc _ (by rw [hst']; exact h1') (by rw [hst']; exact h2') hround).elim

end Driver

/-- Runs leave the code and the functions of a module alone. -/
theorem runCpu_same {H : Type} {m m' : HostModule} {funcIdx maxSteps rounds : Nat} {args : List Slot}
    {host : HostFn H} {h h' : H} {res : RunResult}
    (hr : runCpu m funcIdx args maxSteps host h rounds = some (res, m', h')) :
    m'.code = m.code ∧ m'.funcs = m.funcs := by
  unfold runCpu at hr
  cases hf : m.funcs[funcIdx]? with
  | none =>
    rw [hf] at hr
    cases hr
    exact ⟨rfl, rfl⟩
  | some f =>
    rw [hf] at hr
    simp only at hr
    split_ifs at hr
    · cases hr
      exact ⟨rfl, rfl⟩
    · obtain ⟨c, -, hend⟩ := cpuLoop_runs .refl hr
      rcases cpuRound_inl hend with ⟨-, hcall⟩ | ⟨-, hfin⟩
      · unfold hostCall at hcall
        cases hrep : (c.ask host).reply with
        | error e =>
          simp only [hrep] at hcall
          cases hcall
          exact ⟨rfl, rfl⟩
        | ok p =>
          simp only [hrep] at hcall
          split at hcall
          · cases hcall
            exact ⟨rfl, rfl⟩
          · cases hcall
      · cases hfin
        exact ⟨rfl, rfl⟩

theorem RunsLeave.same {m m' : HostModule} (h : RunsLeave m m') :
    m'.code = m.code ∧ m'.funcs = m.funcs := by
  induction h with
  | fresh => exact ⟨rfl, rfl⟩
  | run _ hr ih =>
    obtain ⟨h1, h2⟩ := runCpu_same hr
    exact ⟨h1.trans ih.1, h2.trans ih.2⟩

/-! ## Loaded modules -/

/-- The module `m` was loaded from the payloads of `M` and may have been run before. -/
structure Loaded (M : Module) (m0 m1 m : HostModule) : Prop where
  translated : Translated M m0
  verified : verifyCuop m0 = .ok m1
  runs : RunsLeave m1 m

section Loaded

variable {M : Module} {m0 m1 m : HostModule} (h : Loaded M m0 m1 m)

include h

theorem Loaded.func {g : FuncMeta} {k : Nat} (hg : m.funcs[k]? = some g) :
    ∃ f, m0.funcs[k]? = some f ∧ g.codeOff = f.codeOff ∧ g.codeLen = f.codeLen := by
  obtain ⟨-, fs, rfl, -, hsig⟩ := verifyCuop_accepted h.verified
  rw [h.runs.same.2] at hg
  obtain ⟨f, hf, hs⟩ := hsig k g hg
  exact ⟨f, hf, by rw [hs], by rw [hs]⟩

theorem Loaded.code : m.code = m0.code := by
  obtain ⟨-, fs, rfl, -, -⟩ := verifyCuop_accepted h.verified
  exact h.runs.same.1

/-- A function that could not be lowered is its stub. -/
theorem Loaded.stub {k : Nat} {code : List CuOp} {g : FuncMeta} (hfail : M.FailsWith k code)
    (hg : m.funcs[M.imports.length + k]? = some g) : g.codeOff = code.length ∧ g.codeLen = 2 ∧
      m.code[code.length]? = some { op := .unreachable } := by
  obtain ⟨c, ft, s, e, consts, hat, hlow⟩ := hfail
  obtain ⟨s', ft', f, code', consts', hb, -, -, -, hty, -, hplaced, hf, hpre, -⟩ :=
    h.translated.entry k c hat.code
  obtain ⟨-, rfl, rfl⟩ := hat.unique ⟨hat.code, hty, hb⟩
  obtain ⟨f', hf', hoff, hlen⟩ := h.func hg
  rw [hf] at hf'
  cases hf'
  cases hplaced with
  | lowered hlow' =>
    rw [hlow] at hlow'
    cases hlow'
  | stub hlow' hfm hc =>
    rw [hlow] at hlow'
    cases hlow'
    obtain ⟨l, hl⟩ := hpre
    refine ⟨by rw [hoff, hfm]; rfl, by rw [hlen, hfm]; rfl, ?_⟩
    rw [h.code, ← hl, hc, List.append_assoc, List.getElem?_append_right le_rfl, Nat.sub_self]
    rfl

theorem Loaded.failsWith {k : Nat} {code : List CuOp} (hfail : M.FailsWith k code) :
    M.FailedEntry m code.length := by
  obtain ⟨c, ft, s, e, consts, hat, -⟩ := id hfail
  obtain ⟨-, -, f, -, -, -, -, -, -, -, -, -, hf, -⟩ := h.translated.entry k c hat.code
  obtain ⟨-, fs, heq, hlen, -⟩ := verifyCuop_accepted h.verified
  have hlt : M.imports.length + k < m.funcs.length := by
    rw [h.runs.same.2, heq]
    show M.imports.length + k < fs.length
    rw [hlen]
    exact (List.getElem?_eq_some_iff.mp hf).1
  have hg := List.getElem?_eq_getElem hlt
  exact ⟨k, code, _, hfail, hg, (h.stub hfail hg).1⟩

/-- A function with an operator without a case could not be lowered. -/
theorem Loaded.unsupported {p : Nat} (hp : M.UnsupportedEntry m p) : M.FailedEntry m p := by
  obtain ⟨k, c, g, hc, ⟨o, ho, hsup⟩, hg, rfl⟩ := hp
  obtain ⟨s, ft, f, code', consts', hb, -, -, -, hty, -, hplaced, hf, -⟩ := h.translated.entry k c hc
  cases hplaced with
  | lowered hlow =>
    obtain ⟨t, ht, -⟩ := lowerOperators_ok hlow
    have := Lower.operators_supported _ ht o ho
    rw [hsup] at this
    cases this
  | stub hlow hfm hcode => exact ⟨k, _, g, ⟨c, ft, s, _, _, ⟨hc, hty, hb⟩, hlow⟩, hg, rfl⟩

theorem Loaded.runnable (hclosed : Module.ClosedCode M m0.code) : Runnable m.dev where
  targets p i hi hop := by
    have hcode : m.dev.code = m0.code := h.code
    rw [hcode] at hi ⊢
    exact hclosed.targets p i hi hop
  last p i hi hop := by
    have hcode : m.dev.code = m0.code := h.code
    rw [hcode] at hi ⊢
    have hlt := (List.getElem?_eq_some_iff.mp hi).1
    by_contra hge
    have hlast := hclosed.last p (by omega)
    unfold Lower.opAt at hlast
    rw [hi] at hlast
    exact hop (Option.some.inj hlast)
  funcs f hf := by
    obtain ⟨k, hk⟩ := List.mem_iff_getElem?.mp hf
    have hk : m.funcs[k]? = some f := hk
    obtain ⟨hacc, -⟩ := verifyCuop_accepted h.verified
    have hlen : 0 < m.code.length := by
      rw [h.runs.same.1]
      exact List.length_pos_iff.mpr hacc.nonempty
    have hk1 := hk
    rw [h.runs.same.2] at hk1
    obtain ⟨hle, hcase⟩ := hacc.func k f hk1
    rw [← h.runs.same.1] at hle
    show f.codeOff < m.code.length
    rcases hcase with ⟨h0, himp⟩ | ⟨hpos, -⟩
    · obtain ⟨f0, hf0, hoff, -⟩ := h.func hk
      obtain ⟨-, fs, heq, -, -⟩ := verifyCuop_accepted h.verified
      rw [heq] at himp
      have hki : k < M.imports.length := h.translated.nHostImports ▸ himp
      obtain ⟨t, ft, -, -, rfl⟩ := h.translated.imported k f0 hki hf0
      rw [hoff]
      exact hlen
    · omega

end Loaded

/-- A run reports unsupported code as such, and traps as unreachable only where the source does, just
when it never comes to a function that `lower_operators` has refused. -/
theorem reported_iff {H : Type} {M : Module} {ps : List (Parsed Payload)} {m0 m1 m : HostModule}
    (he : Encodes M ps) (hplain : ∀ c ∈ M.code, c.body.Plain) (hm : loadWasm ps = .ok m0)
    (hv : verifyCuop m0 = .ok m1) (hruns : RunsLeave m1 m) {f : FuncMeta} (hf : f ∈ m.funcs)
    (args : List Slot) (host : HostFn H) (h : H) (maxSteps : Nat) :
    Reported m f host maxSteps M (cpuEntry m f args CPU_FUEL h) ↔
      ∀ s, Visits m f host maxSteps (cpuEntry m f args CPU_FUEL h) s → ¬ M.FailedEntry m s.pc := by
  have hl : Loaded M m0 m1 m := ⟨loadWasm_translated he hm, hv, hruns⟩
  obtain ⟨s0, sN, hr, hcode, -⟩ := Module.loaded_read he hm
  have hclosed : Module.ClosedCode M m0.code := hcode ▸ hr.closed hplain le_rfl hr.before
  have hrun := hl.runnable hclosed
  have hentry : InCode m.cpuViews m.dev ((cpuEntry m f args CPU_FUEL h).mach m) := by
    refine ⟨hrun.funcs f hf, Nat.one_pos, fun j h0 hj => ?_⟩
    have hj1 : j < 1 := hj
    omega
  have htrap {p : Nat} {i : CuOp} (hi : m.code[p]? = some i) (hop : i.op = .unreachable) :
      M.TrapPos p := by
    refine hclosed.traps p ?_
    unfold Lower.opAt
    rw [← hl.code, hi]
    exact congrArg some hop
  constructor
  · intro hrep s hs hfail
    obtain ⟨k, code, g, hfw, hg, hpc⟩ := hfail
    obtain ⟨hoff, -, hi⟩ := hl.stub hfw hg
    have hp : s.pc = code.length := hpc.symm.trans hoff
    have hstop := Run.step_unreachable m.cpuViews m.dev (s := s) (hp ▸ hi) rfl
    obtain ⟨s', i', hs', hi', hop', hsrc⟩ :=
      hrep.unreachable (hs.ends hstop (by decide) (by decide))
    have hstop' := Run.step_unreachable m.cpuViews m.dev hi' hop'
    have heq := hs.stop_unique hstop (by decide) (by decide) hs' hstop' (by decide) (by decide)
    rw [heq] at hsrc
    exact hr.disjoint hplain hsrc hfw hp
  · intro hno
    refine ⟨fun s hs hun => absurd (hl.unsupported hun) (hno s hs), fun hend => ?_⟩
    obtain ⟨s, t, hs, hstop⟩ := hend.stops rfl
    have hin := hs.inCode hrun hentry
    obtain ⟨i, hi, hop⟩ := Run.step_trap _ _ hstop hin.csp hin.pc
    refine ⟨s, i, hs, hi, hop, ?_⟩
    rcases htrap hi hop with hsrc | ⟨k, code, hfw, hp⟩
    · exact hsrc
    · exact absurd (hp ▸ hl.failsWith hfw) (hno s hs)

theorem cpuLoop_le {H : Type} {m : HostModule} {f : FuncMeta} {host : HostFn H} {maxSteps n k : Nat}
    {c : CpuState H} {r : RunResult × HostModule × H} (h : cpuLoop m f host maxSteps n c = some r)
    (hk : n ≤ k) : cpuLoop m f host maxSteps k c = some r := by
  induction n generalizing c k with
  | zero => cases h
  | succ n ih =>
    obtain ⟨k, rfl⟩ : ∃ k', k = k' + 1 := ⟨k - 1, by omega⟩
    unfold cpuLoop at h ⊢
    cases hround : cpuRound m f host maxSteps c with
    | inl r' =>
      rw [hround] at h
      exact h
    | inr c1 =>
      rw [hround] at h
      exact ih h (Nat.le_of_succ_le_succ hk)

/-- A run ends with one status. -/
theorem EndsWith.unique {H : Type} {m : HostModule} {f : FuncMeta} {host : HostFn H} {maxSteps : Nat}
    {c : CpuState H} {a b : Status} (h : EndsWith m f host maxSteps c a)
    (h' : EndsWith m f host maxSteps c b) : a = b := by
  obtain ⟨n, r, hr, rfl⟩ := h
  obtain ⟨n', r', hr', rfl⟩ := h'
  have h1 := cpuLoop_le hr (Nat.le_max_left n n')
  rw [cpuLoop_le hr' (Nat.le_max_right n n')] at h1
  cases h1
  rfl

/-- A module with one function. -/
def soloModule (body : Body) : Module where
  types := [[.func ([], [.i32])]]
  funcs := [0]
  code := [{ locals := [], body := body }]

/-- A rotation, which `lower_operators` has no case for. -/
def rotlBody : Body :=
  .op (.const (.i32 1)) (.op (.const (.i32 1)) (.op (.other "I32Rotl") .nil))

/-- What is left of the rotation: the stub behind the two constants. -/
def rotlMeta : FuncMeta := ⟨2, 2, 0, 1, 0, 0⟩

/-- A body that traps behind two other instructions. -/
def trapBody : Body := .op (.const (.i32 1)) (.op .drop (.op .unreachable .nil))

def trapMeta : FuncMeta := ⟨0, 4, 0, 1, 0, 1⟩

/-- The function of a module, and the status its run ends with. -/
def soloRun (body : Body) : Option (Option FuncMeta × Option Status) :=
  (loadWasm (soloModule body).payloads).toOption.bind fun m0 =>
    (verifyCuop m0).toOption.map fun m =>
      (m.funcs[0]?, (m.funcs[0]?.bind fun f =>
        cpuLoop m f oneHost 10 5 (cpuEntry m f [] CPU_FUEL ())).map fun r => r.1.status)

/-- The rotation ends with an unreachable trap. -/
theorem rotl_trap_disguised : ∃ m0 m, loadWasm (soloModule rotlBody).payloads = .ok m0 ∧
    verifyCuop m0 = .ok m ∧ m.funcs[0]? = some rotlMeta ∧
    ¬ Reported m rotlMeta oneHost 10 (soloModule rotlBody) (cpuEntry m rotlMeta [] CPU_FUEL ()) := by
  have hload : soloRun rotlBody = some (some rotlMeta, some .trapUnreachable) := by
    decide +kernel
  obtain ⟨m0, m, hm, hv, heval⟩ := loaded_eval hload
  simp only [Prod.mk.injEq] at heval
  obtain ⟨hf, hend⟩ := heval
  refine ⟨m0, m, hm, hv, hf, fun hrep => ?_⟩
  rw [hf, Option.bind_some] at hend
  obtain ⟨r, hr, hstat⟩ := Option.map_eq_some_iff.mp hend
  have hentry : (soloModule rotlBody).UnsupportedEntry m rotlMeta.codeOff :=
    ⟨0, _, rotlMeta, rfl, ⟨.other "I32Rotl", by decide, rfl⟩, hf, rfl⟩
  have hvisit : Visits m rotlMeta oneHost 10 (cpuEntry m rotlMeta [] CPU_FUEL ())
      ((cpuEntry m rotlMeta [] CPU_FUEL ()).mach m) :=
    ⟨_, _, 0, .refl, rfl, rfl, by decide, .zero _⟩
  have := (hrep.unsupported _ hvisit hentry).unique ⟨5, r, hr, hstat⟩
  cases this

/-- An `unreachable` of the source is reported as what it is. -/
theorem source_trap_reported : ∃ m0 m, loadWasm (soloModule trapBody).payloads = .ok m0 ∧
    verifyCuop m0 = .ok m ∧ m.funcs[0]? = some trapMeta ∧
    EndsWith m trapMeta oneHost 10 (cpuEntry m trapMeta [] CPU_FUEL ()) .trapUnreachable ∧
    Reported m trapMeta oneHost 10 (soloModule trapBody) (cpuEntry m trapMeta [] CPU_FUEL ()) := by
  have hload : soloRun trapBody = some (some trapMeta, some .trapUnreachable) := by
    decide +kernel
  obtain ⟨m0, m, hm, hv, heval⟩ := loaded_eval hload
  simp only [Prod.mk.injEq] at heval
  obtain ⟨hf, hend⟩ := heval
  rw [hf, Option.bind_some] at hend
  obtain ⟨r, hr, hstat⟩ := Option.map_eq_some_iff.mp hend
  refine ⟨m0, m, hm, hv, hf, ⟨5, r, hr, hstat⟩, ?_⟩
  refine (reported_iff (M := soloModule trapBody) rfl ?_ hm hv .fresh (List.mem_of_getElem? hf) []
    oneHost () 10).mpr ?_
  · intro c hc
    cases List.mem_singleton.mp hc
    simp [trapBody, Body.Plain, Operator.isStructured]
  · rintro s - ⟨k, code, g, hfail, hg, -⟩
    have hl : Loaded (soloModule trapBody) m0 m m := ⟨loadWasm_translated rfl hm, hv, .fresh⟩
    obtain ⟨-, hlen, -⟩ := hl.stub hfail hg
    obtain ⟨c, ft, t, e, consts, hat, -⟩ := hfail
    have hk : k < 1 := (List.getElem?_eq_some_iff.mp hat.code).1
    have hk0 : k = 0 := by omega
    subst hk0
    have hg0 : m.funcs[0]? = some g := hg
    rw [hf] at hg0
    cases hg0
    cases hlen

end CuWasm
