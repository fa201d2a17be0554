import CuWasm.Proofs.BudgetProofs
import CuWasm.Proofs.EnterProofs

/-!
# The machine follows the semantics

By induction on the budget, and for each budget along the body: every operator goes on where the one
before has stopped, a block passes on what leaves it, a loop that is repeated and a call start with a
smaller budget. Where the budget does not suffice, the machine has gone a step for each unit of it.
-/

namespace CuWasm

open Exit Run Wasm Structured

/-! ## Runs in sequence -/

section Sequence

variable {H : Type} {m : HostModule} {e : FuncMeta} {host : HostFn H} {n : Nat} {x y : Flat H}
  {P P' : Flat H → Prop}

theorem Lasts.step (h : hosted m e host x = .ok () y) (hy : Lasts m e host (n - 1) y) :
    Lasts m e host n x := by
  obtain ⟨z, hz⟩ | hlim := hy
  · cases n with
    | zero => exact .inl ⟨x, .zero x⟩
    | succ n => exact .inl ⟨z, .succ h hz⟩
  · exact .inr (.step h hlim)

theorem Lasts.after (h : Eventually (hosted m e host) P (fun r _ => Exhausted r) x)
    (hP : ∀ y, P y → Lasts m e host n y) : Lasts m e host n x := by
  induction h with
  | now h => exact hP _ h
  | step h _ ih =>
    obtain ⟨z, hz⟩ | hlim := ih
    · exact .inl ((Steps.succ h hz).take (Nat.le_succ n))
    · exact .inr (.step h hlim)
  | exit h he => exact .inr (.exit h he)

variable {Q Q' : Wasm.Outcome H → Flat H → Prop} {o : Option (Wasm.Outcome H)} {res : Option (Wasm.Result H)}

theorem FollowsBody.after (h : Eventually (hosted m e host) P (fun r _ => Exhausted r) x)
    (hP : ∀ y, P y → FollowsBody m e host n Q o y) : FollowsBody m e host n Q o x := by
  match o with
  | none => exact Lasts.after h hP
  | some .wrong => trivial
  | some (.next ..) | some (.br ..) | some (.ret ..) | some (.tail ..) | some (.trap ..)
  | some (.refused _) => exact (h.mono (fun _ hy => hy) fun _ _ hr => .inl hr).bind hP

/-- An outcome that a sequence comes to is passed on. -/
theorem FollowsBody.map {f : Wasm.Outcome H → Wasm.Outcome H} (h : FollowsBody m e host n Q o x)
    (hwrong : f .wrong = .wrong) (htrap : ∀ t s, f (.trap t s) = .trap t s)
    (hrefused : ∀ s, f (.refused s) = .refused s)
    (hQ : ∀ w y, o = some w → Q w y → FollowsBody m e host n Q' (some (f w)) y) :
    FollowsBody m e host n Q' (o.map f) x := by
  match o with
  | none => exact h
  | some .wrong => rw [Option.map_some, hwrong]; trivial
  | some (.next ..) | some (.br ..) | some (.ret ..) | some (.tail ..) =>
    refine FollowsBody.after (h.mono (fun _ hy => hy) fun _ _ hr => ?_) fun y hy => hQ _ y rfl hy
    exact hr.resolve_right id
  | some (.trap t s) =>
    rw [Option.map_some, htrap]
    refine h.bind fun y hy => ?_
    have := hQ _ y rfl hy
    rwa [htrap] at this
  | some (.refused s) =>
    rw [Option.map_some, hrefused]
    refine h.bind fun y hy => ?_
    have := hQ _ y rfl hy
    rwa [hrefused] at this

/-- The machine goes on behind a sequence that has got to its end. -/
theorem FollowsBody.andThen {f : List Nat → List Nat → Wasm.Store H → Option (Wasm.Outcome H)}
    (h : FollowsBody m e host n Q o x)
    (hnext : ∀ xs ls s y, Q (.next xs ls s) y → FollowsBody m e host n Q' (f xs ls s) y)
    (hQ : ∀ o y, (∀ xs ls s, o ≠ .next xs ls s) → Q o y → Q' o y) :
    FollowsBody m e host n Q' (Wasm.Outcome.andThen o f) x := by
  match o with
  | none => exact h
  | some .wrong => trivial
  | some (.next xs ls s) =>
    refine FollowsBody.after (h.mono (fun _ hy => hy) fun _ _ hr => ?_) fun y hy => hnext _ _ _ y hy
    exact hr.resolve_right id
  | some (.br ..) | some (.ret ..) | some (.tail ..) | some (.trap ..) | some (.refused _) =>
    exact h.mono (fun y hy => hQ _ y nofun hy) fun _ _ hr => hr

theorem FollowsCall.after {A : Activation}
    (h : Eventually (hosted m e host) P (fun r _ => Exhausted r) x)
    (hP : ∀ y, P y → FollowsCall m e host n A res y) : FollowsCall m e host n A res x := by
  match res with
  | none => exact Lasts.after h hP
  | some .wrong => trivial
  | some (.values ..) => exact h.bind hP
  | some (.trap ..) | some (.refused _) =>
    exact (h.mono (fun _ hy => hy) fun _ _ hr => .inl hr).bind hP

/-- A body with what is done at the end of the function. -/
theorem FollowsBody.finish {A : Activation} {f : Wasm.Outcome H → Option (Wasm.Result H)}
    (h : FollowsBody m e host n Q o x) (hwrong : f .wrong = some .wrong)
    (htrap : ∀ t s, f (.trap t s) = some (.trap t s)) (hrefused : ∀ s, f (.refused s) = some (.refused s))
    (hQ : ∀ w y, Q w y → FollowsCall m e host n A (f w) y) :
    FollowsCall m e host n A (o.bind f) x := by
  match o with
  | none => exact h
  | some .wrong => rw [Option.bind_some, hwrong]; trivial
  | some (.next ..) | some (.br ..) | some (.ret ..) | some (.tail ..) =>
    refine FollowsCall.after (h.mono (fun _ hy => hy) fun _ _ hr => ?_) fun y hy => hQ _ y hy
    exact hr.resolve_right id
  | some (.trap t s) =>
    have hgo : Eventually (hosted m e host) (Q (.trap t s))
        (fun r _ => Exhausted r ∨ Means (.trap t s) r) x := h
    rw [Option.bind_some, htrap]
    refine hgo.bind fun y hy => ?_
    have := hQ _ y hy
    rwa [htrap] at this
  | some (.refused s) =>
    have hgo : Eventually (hosted m e host) (Q (.refused s))
        (fun r _ => Exhausted r ∨ Means (.refused s) r) x := h
    rw [Option.bind_some, hrefused]
    refine hgo.bind fun y hy => ?_
    have := hQ _ y hy
    rwa [hrefused] at this

theorem FollowsBody.step (h : hosted m e host x = .ok () y) (hy : FollowsBody m e host (n - 1) Q o y) :
    FollowsBody m e host n Q o x := by
  match o with
  | none => exact Lasts.step h hy
  | some .wrong => trivial
  | some (.next ..) | some (.br ..) | some (.ret ..) | some (.tail ..) | some (.trap ..)
  | some (.refused _) => exact Eventually.step h hy

theorem FollowsBody.limit {r : Outgoing H} (h : hosted m e host x = .error r y) (hr : Exhausted r) :
    FollowsBody m e host n Q o x :=
  FollowsBody.after (P := fun _ => False) (.exit h hr) fun _ hf => hf.elim

end Sequence

/-! ## Calls -/

section Calls

variable {H : Type} {M : Module} {segs : List (List Byte)} {m : HostModule} {e : FuncMeta}
  {host : HostFn H} {env : LowerEnv} {L : List Label} {T : Nat → Nat} {ghost : Bool}
  {st st' : State} {is : Items} {A B : Activation} {n fi pc : Nat} {ft : FuncType} {c : Func}
  {g : FuncMeta} {I : Wasm.Instance H}
  {xs lo ls ys args : List Nat} {s s' : Wasm.Store H} {x y : Flat H}

/-- A machine that has entered the callee follows the call up to its return. -/
theorem entered_follows (hcalls : CallsFollow M m segs e host n) (hfi : M.imports.length ≤ fi)
    (hft : M.funcType fi = some ft) (hc : M.code[fi - M.imports.length]? = some c)
    (hF : FuncAt M m ft c g env) (hcsp : 0 < A.csp) (hcount : ls.length = A.nLocals)
    (hroom : A.nLocals ≤ A.slots) (hlive : st'.dead = false)
    (hh : st'.h = (xs.drop ft.1.length ++ lo).length + ft.2.length)
    (hgo : (∃ r, hosted m e host x = .error r x ∧ Exhausted r) ∨
      ∃ y B, hosted m e host x = .ok () y ∧
        Entered A B g st'.pc (c.locals.map (·.1)).sum (xs.drop ft.1.length ++ lo) ls ∧
        InFrame m B g.codeOff [] ((xs.take ft.1.length).reverse ++
          List.replicate (c.locals.map (·.1)).sum 0) s y) :
    FollowsBody m e host n (Arrives m A L T st' lo)
      (Wasm.Instance.callTop ((M.toInstance m segs host).eval n).call fi ft xs ls s) x := by
  unfold Wasm.Instance.callTop
  split_ifs with hlen
  · trivial
  obtain ⟨r, hr, hlim⟩ | ⟨y, B, hy, hE, hB⟩ := hgo
  · exact FollowsBody.limit hr hlim
  have hentry : AtEntry m B c g (xs.take ft.1.length).reverse s y :=
    ⟨hE.slots, hE.nLocals, by rw [hE.csp]; exact Nat.succ_pos _,
      by rw [hE.csp, Nat.add_sub_cancel, hE.frame], hB⟩
  have hfollow := hcalls hfi hft hc hF hentry
  cases hres : ((M.toInstance m segs host).eval n).call fi (xs.take ft.1.length).reverse s with
  | none =>
    rw [hres] at hfollow
    exact Lasts.step hy hfollow
  | some res =>
    rw [hres] at hfollow
    cases res with
    | wrong => trivial
    | values ys s' =>
      have hys := call_length (I := M.toInstance m segs host) hft hres
      have hback : Eventually (hosted m e host)
          (InFrame m A st'.pc (ys.reverse ++ (xs.drop ft.1.length ++ lo)) ls s')
          (fun r _ => Exhausted r) x :=
        .step hy (hfollow.bind fun z hz => hz.leave hE hcsp hcount hroom)
      refine hback.mono (fun z hz => ⟨hlive, ?_, ?_⟩) fun _ _ hr => .inl hr
      · simp only [List.length_append, List.length_reverse] at hh ⊢
        omega
      · rwa [List.append_assoc]
    | trap t s' | refused s' =>
      exact (Eventually.step hy hfollow).mono (fun _ hf => hf.elim) fun _ _ hr => hr

/-- A host call in the words of the driver. -/
theorem callHost_eq (h : HoldsStore m s x) {b : Nat} (hid : m.hostFnId[fi]? = some b) :
    let out := host s.host b (args.map (BitVec.ofNat 64)) x.mach.mem
    (M.toInstance m segs host).callHost fi ft args s =
      match out.reply with
      | .error _ => .refused (answered s out)
      | .ok (k, results) =>
        if k = ft.2.length then .values ((List.range k).map fun j => (results j).toNat) (answered s out)
        else .wrong := by
  intro out
  have hid' : m.hostFnId.getD fi 0 = b := by rw [List.getD_eq_getElem?_getD, hid]; rfl
  have hout : host s.host (m.hostFnId.getD fi 0) (args.map (BitVec.ofNat 64))
      (fun c => BitVec.ofNat 8 (s.mem c)) = out := by
    rw [hid', ← h.mem, ofNat_bytes]
  simp only [Wasm.Instance.callHost, Module.toInstance, hostAnswer, hout]
  cases out.reply with
  | error err => rfl
  | ok p =>
    simp only [List.length_map, List.length_range]
    rfl

theorem host_follows (hoff : KeepsOff m host) (hS : Setting M m segs env A) (hft : M.funcType fi = some ft)
    (hfi : fi < M.imports.length) {b : Nat} (hid : m.hostFnId[fi]? = some b)
    (hi : m.code[pc]? = some
      ⟨.callHost, ft.1.length ||| (ft.2.length <<< 8) % 2 ^ 16, b⟩)
    (hlive : st'.dead = false) (hpc : st'.pc = pc + 1)
    (hh : st'.h = (xs.drop ft.1.length ++ lo).length + ft.2.length)
    (h : InFrame m A pc (xs ++ lo) ls s x) :
    FollowsBody m e host n (Arrives m A L T st' lo)
      (Wasm.Instance.callTop ((M.toInstance m segs host).eval n).call fi ft xs ls s) x := by
  unfold Wasm.Instance.callTop
  split_ifs with hlen
  · trivial
  cases n with
  | zero => exact .inl ⟨x, .zero x⟩
  | succ n =>
    obtain ⟨h8, h8'⟩ := hS.short fi ft hfi hft
    have hu : (xs.take ft.1.length).length = ft.1.length := by rw [List.length_take]; omega
    have hcall : ((M.toInstance m segs host).eval (n + 1)).call fi (xs.take ft.1.length).reverse s =
        some ((M.toInstance m segs host).callHost fi ft (xs.take ft.1.length).reverse s) := by
      have hft' : (M.toInstance m segs host).funcType fi = some ft := hft
      have hfi' : fi < (M.toInstance m segs host).nImports := hfi
      simp only [Wasm.Instance.eval, Wasm.Instance.call, hft', List.length_reverse, hu, ne_eq,
        not_true_eq_false, if_false, if_pos hfi']
    have hsplit : xs ++ lo = xs.take ft.1.length ++ (xs.drop ft.1.length ++ lo) := by
      rw [← List.append_assoc, List.take_append_drop]
    rw [hsplit] at h
    have ha : (ft.1.length ||| (ft.2.length <<< 8) % 2 ^ 16) &&& 0xff =
        (xs.take ft.1.length).length := (callHost_arity _ h8 _ h8').1.trans hu.symm
    have hrun := h.callHost (e := e) hoff hi ha (by omega)
    rw [hcall, callHost_eq h.store hid]
    set out := host s.host b ((xs.take ft.1.length).reverse.map (BitVec.ofNat 64)) x.mach.mem
    simp only at hrun ⊢
    cases hr : out.reply with
    | error err =>
      rw [hr] at hrun
      obtain ⟨r, hr, hmeans⟩ := hrun
      exact .exit hr (.inr hmeans)
    | ok p =>
      obtain ⟨k, results⟩ := p
      rw [hr] at hrun
      simp only
      split_ifs with hk
      · obtain ⟨r, hr, hlim⟩ | ⟨y, hy, hin⟩ := hrun
        · exact FollowsBody.limit hr hlim
        · refine .step hy (.now ⟨hlive, ?_, ?_⟩)
          · simp only [List.length_append, List.length_reverse, List.length_map, List.length_range]
              at hh ⊢
            omega
          · rw [hpc, List.append_assoc]
            exact hin
      · trivial

/-- The environment of the lowering in the terms of the type system. -/
theorem Setting.describes (hS : Setting M m segs env A) :
    Describes env (M.ctx ([], List.replicate env.nResults .i32) ⟨[], .nil⟩) where
  types := hS.types
  funcs := hS.typeidx
  results := List.length_replicate.symm
  hostIds := by rw [hS.hostIds, hS.hostCount, hS.imports]
  small := hS.small

/-- A call, of an import or of a function with code. -/
theorem call_follows (hM : Compiled M m segs) (hoff : KeepsOff m host) (hS : Setting M m segs env A)
    (hcalls : CallsFollow M m segs e host n) (hft : M.funcType fi = some ft)
    (hop : Structured.operator env L ghost (.call fi) st = some (is, st'))
    (h : Before m A L T st is st' lo xs ls s x) :
    FollowsBody m e host n (Arrives m A L T st' lo)
      (Wasm.Instance.callTop ((M.toInstance m segs host).eval n).call fi ft xs ls s) x := by
  obtain ⟨ti, hti, hft'⟩ := Option.bind_eq_some_iff.mp hft
  have harity := hS.describes.funcArity hti hft'
  simp only [Structured.operator, harity] at hop
  have hheight := h.height
  have hlow : ft.1.length ≤ xs.length →
      st.h - ft.1.length = (xs.drop ft.1.length ++ lo).length := fun hle => by
    rw [hheight, List.length_append, List.length_append, List.length_drop]
    omega
  by_cases hlen : xs.length < ft.1.length
  · unfold Wasm.Instance.callTop
    rw [if_pos hlen]
    trivial
  have hlow := hlow (Nat.le_of_not_lt hlen)
  split_ifs at hop with hfi
  · cases hid : env.hostFnIds[fi]? with
    | none =>
      rw [hid] at hop
      cases hop
    | some b =>
      rw [hid] at hop
      obtain ⟨-, rfl, rfl⟩ := plain_live hop h.live
      rw [hS.hostIds] at hid
      rw [hS.imports] at hfi
      exact host_follows hoff hS hft hfi hid h.code.1 rfl rfl (congrArg (· + _) hlow) h.frame
  · obtain ⟨-, rfl, rfl⟩ := plain_live hop h.live
    rw [hS.imports] at hfi
    obtain ⟨c, g, env', hc, hg, hF⟩ := hM.func fi ft (Nat.le_of_not_lt hfi) hft
    have hu : (xs.take ft.1.length).length = g.nParams := by
      rw [List.length_take, hF.params]
      omega
    have hframe := h.frame
    rw [← List.take_append_drop ft.1.length xs, List.append_assoc] at hframe
    exact entered_follows hcalls (Nat.le_of_not_lt hfi) hft hc hF h.nested hframe.count hframe.room rfl
      (congrArg (· + _) hlow) (hframe.call h.code.1 hg hu hF.locals)

/-- A call through the table. -/
theorem callIndirect_follows (hM : Compiled M m segs) (hS : Setting M m segs env A)
    (hcalls : CallsFollow M m segs e host n) {ti tab a : Nat}
    (hop : Structured.operator env L ghost (.callIndirect ti tab) st = some (is, st'))
    (h : Before m A L T st is st' lo (a :: xs) ls s x) :
    FollowsBody m e host n (Arrives m A L T st' lo)
      ((M.toInstance m segs host).operator ((M.toInstance m segs host).eval n).call
        (.callIndirect ti tab) (a :: xs) ls s) x := by
  simp only [Structured.operator] at hop
  split_ifs at hop
  rw [hS.types] at hop
  cases hti : M.funcTypes[ti]? with
  | none =>
    rw [hti] at hop
    cases hop
  | some ft =>
    rw [hti] at hop
    obtain ⟨-, rfl, rfl⟩ := plain_live hop h.live
    have hti' : (M.toInstance m segs host).types[ti]? = some ft := hti
    have htable : (M.toInstance m segs host).table[a % 2 ^ 32]? =
        m.table[a % 2 ^ 32]?.map fun fi => if fi = TABLE_NULL then none else some fi :=
      List.getElem?_map
    have hfind := hM.indirect ti ft (a % 2 ^ 32) hti
    have htrap : Run.indirectTarget m.dev ti (a % 2 ^ 32) = none →
        FollowsBody m e host n (Arrives m A L T
          ⟨st.pc + 1, st.consts, st.h - (1 + ft.1.length) + ft.2.length, false⟩ lo)
          (some (.trap .table s)) x := fun hnone =>
      InFrame.callIndirect_trap h.frame h.code.1 hnone fun _ _ hm => .inr hm
    simp only [Wasm.Instance.operator, hti', htable]
    cases htab : m.table[a % 2 ^ 32]? with
    | none =>
      rw [htab] at hfind
      exact htrap hfind
    | some fi =>
      rw [htab] at hfind
      simp only [Option.map_some]
      by_cases hnull : fi = TABLE_NULL
      · rw [if_pos hnull]
        refine htrap (hfind.trans ?_)
        rw [Option.bind_some, if_neg fun hh => hh.1 hnull]
      rw [if_neg hnull]
      simp only
      by_cases hft : M.funcType fi = some ft
      · have hft' : (M.toInstance m segs host).funcType fi = some ft := hft
        rw [if_pos hft']
        rw [Option.bind_some, if_pos ⟨hnull, hft⟩] at hfind
        have hfi := hM.table _ fi htab hnull
        obtain ⟨c, g, env', hc, hg, hF⟩ := hM.func fi ft hfi hft
        by_cases hlen : xs.length < ft.1.length
        · unfold Wasm.Instance.callTop
          rw [if_pos hlen]
          trivial
        have hu : (xs.take ft.1.length).length = g.nParams := by
          rw [List.length_take, hF.params]
          omega
        have hheight := h.height
        have hframe := h.frame
        rw [List.cons_append, ← List.take_append_drop ft.1.length xs, List.append_assoc] at hframe
        refine entered_follows hcalls hfi hft hc hF h.nested hframe.count hframe.room rfl ?_
          (hframe.callIndirect h.code.1 (hfind.trans hg) hu hF.locals)
        simp only [List.cons_append, List.length_cons, List.length_append, List.length_drop] at hheight ⊢
        omega
      · have hft' : ¬ (M.toInstance m segs host).funcType fi = some ft := hft
        rw [if_neg hft']
        refine htrap (hfind.trans ?_)
        rw [Option.bind_some, if_neg fun hh => hft hh.2]

/-- The machine follows every operator without a block of its own. -/
theorem operator_follows (hM : Compiled M m segs) (hoff : KeepsOff m host) (hS : Setting M m segs env A)
    (hcalls : CallsFollow M m segs e host n) {o : Operator}
    (hop : Structured.operator env L ghost o st = some (is, st'))
    (h : Before m A L T st is st' lo xs ls s x) :
    FollowsBody m e host n (Arrives m A L T st' lo)
      ((M.toInstance m segs host).operator ((M.toInstance m segs host).eval n).call o xs ls s) x := by
  have hlive := h.live
  have hheight := h.height
  cases o with
  | br k =>
    obtain ⟨⟨is1, st1⟩, hb, heq⟩ := Option.map_eq_some_iff.mp hop
    cases heq
    obtain ⟨l, hk, hf, rfl, rfl⟩ := branch_inv hb hlive
    exact branch_follows hS.slots hk hf hlive hheight (h.bases l (List.mem_of_getElem? hk)) h.code h.frame
  | brIf k =>
    cases xs with
    | nil => trivial
    | cons a xs =>
      obtain ⟨hlive', hh', -⟩ := branchIf_state hop hlive hheight
      refine FollowsBody.after (branchIf_follows hS.slots hop hlive hheight h.bases h.code h.frame)
        fun y hy => ?_
      simp only [Wasm.Instance.operator]
      split_ifs at hy ⊢
      · exact .now hy
      · exact .now ⟨hlive', hh', hy⟩
  | brTable ks k =>
    cases xs with
    | nil => trivial
    | cons a xs =>
      exact table_follows hS h.bases (fun _ _ hr => .inl hr) hop hlive hheight h.code h.pool h.frame
  | return_ =>
    cases hop
    exact .now ⟨st.pc, lo, ls, _, h.code.1, rfl, h.frame⟩
  | returnCall fi =>
    simp only [Structured.operator] at hop
    split_ifs at hop with hfi
    cases hop
    rw [hS.imports, ← hM.hostCount] at hfi
    exact .now ⟨Nat.le_of_not_lt hfi, st.pc, lo, ls, h.code.1, h.frame⟩
  | call fi =>
    simp only [Wasm.Instance.operator]
    cases hft : (M.toInstance m segs host).funcType fi with
    | none => trivial
    | some ft => exact call_follows hM hoff hS hcalls hft hop h
  | callIndirect ti tab =>
    cases xs with
    | nil => trivial
    | cons a xs => exact callIndirect_follows hM hS hcalls hop h
  | _ => exact simple_follows hS hop hlive hheight h.code h.pool h.frame

end Calls

end CuWasm
