import CuWasm.Proofs.BodyProofs
import CuWasm.Proofs.BoundaryProofs
import CuWasm.WellFormed

/-!
# When a translated module is well formed

Ranges, data segments and memory are in order whatever the payloads are. The numbers of types and
exports are what the payloads say, and the jumps of a function lead into it exactly when the scan of
its operators is settled.
-/

namespace CuWasm

open Wasm Translate

/-! ## The code of the functions -/

namespace Translate

/-- The functions lie in the code one behind the other; those without code are imports. -/
structure Spread (s : TState) : Prop where
  inside : ∀ f ∈ s.funcs, f.codeOff + f.codeLen ≤ s.code.length
  apart : s.funcs.Pairwise fun f g => g.codeLen = 0 ∨ f.codeOff + f.codeLen ≤ g.codeOff

/-- A function added behind the others. -/
theorem Spread.push {s t : TState} {f : FuncMeta} (hs : Spread s) (hcode : s.code <+: t.code)
    (hfuncs : t.funcs = s.funcs ++ [f]) (hin : f.codeOff + f.codeLen ≤ t.code.length)
    (hf : f.codeLen = 0 ∨ s.code.length ≤ f.codeOff) : Spread t where
  inside g hg := by
    rw [hfuncs] at hg
    rcases List.mem_append.mp hg with hg | hg
    · exact (hs.inside g hg).trans hcode.length_le
    · rw [List.mem_singleton.mp hg]
      exact hin
  apart := by
    rw [hfuncs]
    refine List.pairwise_append.mpr ⟨hs.apart, List.pairwise_singleton _ _, fun g hg f' hf' => ?_⟩
    rw [List.mem_singleton.mp hf']
    exact hf.imp_right fun h => (hs.inside g hg).trans h

theorem spread_survives : Survives Spread where
  same s t hsame hs := by
    refine ⟨?_, ?_⟩
    · rw [hsame.funcs, hsame.code]
      exact hs.inside
    · rw [hsame.funcs]
      exact hs.apart
  types s fts hs := ⟨hs.inside, hs.apart⟩
  typeidx s i hs := ⟨hs.inside, hs.apart⟩
  imports s t imp hs h := by
    obtain ⟨_, ft, _, -, -, -, -, -, -, hcode, -, hfuncs⟩ := addImport_ok h
    refine hs.push ?_ hfuncs (Nat.zero_le _) (.inl rfl)
    rw [hcode]
  code s ft n ops _ _ hs := by
    obtain ⟨f, code', consts', heq, hplaced⟩ := lowerBody_placed s ft n ops
    obtain ⟨hlow, hhigh⟩ := hplaced.range
    rw [heq]
    exact hs.push hplaced.grows.1 rfl hhigh (.inr hlow)

/-- Different functions share no instruction. -/
theorem Spread.disjoint {s : TState} (hs : Spread s) {j k : Nat} {f g : FuncMeta}
    (hf : s.funcs[j]? = some f) (hg : s.funcs[k]? = some g) (hne : j ≠ k) (p : Nat)
    (hp : f.Owns p) : ¬ g.Owns p := by
  have hlt {a b : Nat} {x y : FuncMeta} (hx : s.funcs[a]? = some x) (hy : s.funcs[b]? = some y)
      (hab : a < b) (h1 : x.Owns p) (h2 : y.Owns p) : False := by
    obtain ⟨ha, rfl⟩ := List.getElem?_eq_some_iff.mp hx
    obtain ⟨hb, rfl⟩ := List.getElem?_eq_some_iff.mp hy
    have hapart := List.pairwise_iff_getElem.mp hs.apart a b ha hb hab
    unfold FuncMeta.Owns at h1 h2
    omega
  intro hp'
  rcases Nat.lt_or_gt_of_ne hne with h | h
  · exact hlt hf hg h hp hp'
  · exact hlt hg hf h hp' hp

/-! ## Exports and the number of functions -/

/-- From `s` to `t` the functions `xs` are exported and `n` functions are added. -/
structure Tallies (xs : List Nat) (n : Nat) (s t : TState) : Prop where
  exports : t.exports.map (·.2) = s.exports.map (·.2) ++ xs
  funcs : t.funcs.length = s.funcs.length + n

theorem Tallies.of_eq {s t : TState} (h1 : t.exports = s.exports) (h2 : t.funcs = s.funcs) :
    Tallies [] 0 s t := by
  refine ⟨?_, ?_⟩
  · rw [h1, List.append_nil]
  · rw [h2]
    rfl

theorem Tallies.trans {xs ys : List Nat} {a b : Nat} {s t u : TState} (h : Tallies xs a s t)
    (h' : Tallies ys b t u) : Tallies (xs ++ ys) (a + b) s u := by
  refine ⟨?_, ?_⟩
  · rw [h'.exports, h.exports, List.append_assoc]
  · rw [h'.funcs, h.funcs, Nat.add_assoc]

/-- A section each of whose entries exports nothing and adds as many functions. -/
theorem each_tallies {α : Type} {what : String} {f : TState → α → Except String TState} {n : Nat}
    (hf : ∀ s a t, f s a = .ok t → Tallies [] n s t) (xs : List (Parsed α)) :
    ∀ {s t : TState}, each what f xs s = .ok t → Tallies [] (xs.length * n) s t := by
  induction xs with
  | nil =>
    intro s t h
    cases h
    rw [List.length_nil, Nat.zero_mul]
    exact .of_eq rfl rfl
  | cons x xs ih =>
    intro s t h
    cases x with
    | error e => cases h
    | ok a =>
      obtain ⟨u, hu, h⟩ := Verify.bind_eq_ok h
      have hall := (hf s a u hu).trans (ih h)
      rw [List.length_cons, Nat.succ_mul, Nat.add_comm]
      exact hall

/-- A section that has nothing to do with exports and functions. -/
theorem each_silent {α : Type} {what : String} {f : TState → α → Except String TState}
    (hf : ∀ s a t, f s a = .ok t → t.exports = s.exports ∧ t.funcs = s.funcs) {xs : List (Parsed α)}
    {s t : TState} (h : each what f xs s = .ok t) : Tallies [] 0 s t :=
  each_tallies (n := 0) (fun s a t h => .of_eq (hf s a t h).1 (hf s a t h).2) xs h

theorem addImport_tallies {s t : TState} {imp : Import} (h : addImport s imp = .ok t) :
    Tallies [] 1 s t := by
  obtain ⟨_, ft, _, -, -, -, -, -, -, -, -, hfuncs⟩ := addImport_ok h
  refine ⟨?_, by rw [hfuncs, List.length_append, List.length_singleton]⟩
  have hexports : t.exports = s.exports := by
    unfold addImport at h
    split at h
    · split at h
      · cases h
      · obtain ⟨-, -, h⟩ := Verify.bind_eq_ok h
        obtain ⟨-, -, h⟩ := Verify.bind_eq_ok h
        obtain ⟨fnId, -, h⟩ := Verify.bind_eq_ok h
        cases h
        rfl
    · cases h
  rw [hexports, List.append_nil]

theorem addCode_tallies {s t : TState} {body : FunctionBody} (h : addCode s body = .ok t) :
    Tallies [] 1 s t := by
  rw [Checked.translate_addCode_eq] at h
  cases ha : Checked.bodyArgs s body with
  | error e =>
    rw [ha] at h
    cases h
  | ok a =>
    rw [ha] at h
    cases h
    obtain ⟨f, code', consts', heq, -⟩ := lowerBody_placed s a.1 a.2.1 a.2.2
    show Tallies [] 1 s (lowerBody s a.1 a.2.1 a.2.2)
    rw [heq]
    refine ⟨?_, ?_⟩
    · rw [List.append_nil]
    · rw [List.length_append, List.length_singleton]

theorem exportSection_tallies (exs : List (Parsed Export)) :
    ∀ {s t : TState}, each "export" addExport exs s = .ok t →
      Tallies (exs.filterMap exportIndex) 0 s t := by
  induction exs with
  | nil =>
    intro s t h
    cases h
    exact .of_eq rfl rfl
  | cons ex exs ih =>
    intro s t h
    cases ex with
    | error e => cases h
    | ok ex =>
      obtain ⟨u, hu, h⟩ := Verify.bind_eq_ok h
      have hrest := ih h
      rw [addExport_ok hu] at hrest
      by_cases hfunc : ex.isFunc = true
      · have hone : Tallies [ex.index] 0 s
            { s with exports := s.exports ++ [(ex.name, ex.index)] } :=
          ⟨by rw [List.map_append]; rfl, rfl⟩
        rw [if_pos hfunc] at hrest
        rw [List.filterMap_cons_some (show exportIndex (.ok ex) = some ex.index from if_pos hfunc)]
        exact hone.trans hrest
      · rw [if_neg hfunc, List.append_nil] at hrest
        rwa [List.filterMap_cons_none (show exportIndex (.ok ex) = none from if_neg hfunc)]

theorem payload_tallies {s t : TState} {pl : Payload} (h : payload s pl = .ok t) :
    Tallies (payloadExportIndices (.ok pl)) (payloadFunctions (.ok pl)) s t := by
  cases pl with
  | typeSection recs =>
    refine each_silent (fun s a t h => ?_) h
    rw [addTypes_ok h]
    exact ⟨rfl, rfl⟩
  | functionSection idxs =>
    refine each_silent (fun s a t h => ?_) h
    cases h
    exact ⟨rfl, rfl⟩
  | importSection imps =>
    have hall := each_tallies (fun _ _ _ h => addImport_tallies h) imps h
    rwa [Nat.mul_one] at hall
  | memorySection mems =>
    refine each_silent (fun s a t h => ?_) h
    rw [addMemory_ok h]
    exact ⟨rfl, rfl⟩
  | tableSection tabs =>
    refine each_silent (fun s a t h => ?_) h
    rw [addTable_ok h]
    exact ⟨rfl, rfl⟩
  | elementSection els =>
    refine each_silent (fun s a t h => ?_) h
    obtain ⟨e, rfl⟩ := addElement_ok h
    exact ⟨rfl, rfl⟩
  | dataSection segs =>
    refine each_silent (fun s a t h => ?_) h
    obtain ⟨e, rfl⟩ := addData_ok h
    exact ⟨rfl, rfl⟩
  | globalSection gs =>
    refine each_silent (fun s a t h => ?_) h
    obtain ⟨x, rfl⟩ := addGlobal_ok h
    exact ⟨rfl, rfl⟩
  | exportSection exs => exact exportSection_tallies exs h
  | codeSectionEntry body => exact addCode_tallies h
  | startSection => cases h
  | dataCountSection | other =>
    cases h
    exact .of_eq rfl rfl

theorem payloads_tallies (payloads : List (Parsed Payload)) :
    ∀ {s t : TState}, each "parse" payload payloads s = .ok t →
      Tallies (exportIndices payloads) (functions payloads) s t := by
  induction payloads with
  | nil =>
    intro s t h
    cases h
    exact .of_eq rfl rfl
  | cons pl payloads ih =>
    intro s t h
    cases pl with
    | error e => cases h
    | ok pl =>
      obtain ⟨u, hu, h⟩ := Verify.bind_eq_ok h
      exact (payload_tallies hu).trans (ih h)

/-! ## Data segments and memory -/

/-- The segments laid out so far lie in the blob, and the memory is written below `size` only. -/
structure Contained (size : Nat) (l : Layout) : Prop where
  lengths : l.dataOff.length = l.dataLen.length
  slices : ∀ (k : Nat) off len, l.dataOff[k]? = some off → l.dataLen[k]? = some len →
    off + len ≤ l.dataBlob.length
  memory : ∀ a, size ≤ a → l.memory a = 0

/-- A segment is laid out. -/
theorem Contained.add {size : Nat} {l : Layout} (h : Contained size l) {active : Bool} {off : Nat}
    {bytes : List Byte} (hfit : active = true → off + bytes.length ≤ size) (live : List Byte) :
    Contained size {
      memory := if active then BlockMove.fillAsc l.memory off (bytes.getD · 0) bytes.length else l.memory
      dataBlob := l.dataBlob ++ bytes
      dataOff := l.dataOff ++ [l.dataBlob.length]
      dataLen := l.dataLen ++ [bytes.length]
      dataLive := live } where
  lengths := by
    rw [List.length_append, List.length_append, h.lengths, List.length_singleton,
      List.length_singleton]
  slices k o n ho hn := by
    rw [List.length_append]
    rcases Nat.lt_or_ge k l.dataOff.length with hlt | hge
    · rw [List.getElem?_append_left hlt] at ho
      rw [List.getElem?_append_left (h.lengths ▸ hlt)] at hn
      exact Nat.le_add_right_of_le (h.slices k o n ho hn)
    · rw [List.getElem?_append_right hge] at ho
      rw [List.getElem?_append_right (h.lengths ▸ hge)] at hn
      rw [List.mem_singleton.mp (List.mem_of_getElem? ho),
        List.mem_singleton.mp (List.mem_of_getElem? hn)]
  memory a ha := by
    dsimp only
    by_cases hact : active = true
    · have := hfit hact
      rw [if_pos hact, BlockMove.fillAsc_apply, if_neg (by omega)]
      exact h.memory a ha
    · rw [if_neg hact]
      exact h.memory a ha

theorem layoutData_contained {size : Nat} (segs : List (Bool × Nat × List Byte)) :
    ∀ {l l' : Layout}, layoutData size segs l = .ok l' → Contained size l → Contained size l' := by
  induction segs with
  | nil =>
    intro l l' h hl
    cases h
    exact hl
  | cons seg segs ih =>
    obtain ⟨active, off, bytes⟩ := seg
    intro l l' h hl
    unfold layoutData at h
    by_cases hout : active = true ∧ off + bytes.length > size
    · rw [if_pos hout] at h
      cases h
    · rw [if_neg hout] at h
      refine ih h (hl.add (fun hact => ?_) _)
      by_contra hgt
      exact hout ⟨hact, Nat.lt_of_not_le hgt⟩

end Translate

/-! ## The jumps -/

/-- The jumps of a function that a pass yields are all patched exactly when its operators are
settled. -/
theorem patched_iff {payloads : List (Parsed Payload)} {m : HostModule} {p : Pass} {f : FuncMeta}
    (h : translateWasm payloads = .ok m) (hp : Makes payloads p) (hf : p.Yields f) :
    (∀ q i, f.Owns q → m.code[q]? = some i → i.IsJump → p.Patched f q i) ↔ Settled p.ops := by
  obtain ⟨-, ⟨later, hlater⟩, -⟩ := hp.yields h hf
  obtain ⟨hoff, hlen⟩ := hf.range
  have hget {q : Nat} (hq : f.Owns q) : m.code[q]? = p.result.2.1[q]? := by
    rw [← hlater, List.getElem?_append_left (by rw [← hlen]; exact hq.2)]
  constructor
  · intro hall
    obtain ⟨t, hctrl, hcode, hinv⟩ := hf.jumps
    rw [← hoff] at hinv
    have howns {q : Nat} {i : CuOp} (hlow : f.codeOff ≤ q) (hi : t.code[q]? = some i) : f.Owns q := by
      refine ⟨hlow, ?_⟩
      rw [hlen, ← hcode]
      exact (List.getElem?_eq_some_iff.mp hi).1
    have hmem {q : Nat} {i : CuOp} (hlow : f.codeOff ≤ q) (hi : t.code[q]? = some i) :
        m.code[q]? = some i := by
      rw [hget (howns hlow hi), ← hcode, hi]
    constructor
    · by_contra hr
      obtain ⟨q, hlow, hop, hF⟩ := hinv.drops (Bool.not_eq_false _ ▸ hr)
      obtain ⟨i, hi, hij⟩ := (show Lower.JumpAt t.code q from .inl hop).get
      exact (hall q i (howns hlow hi) (hmem hlow hi) hij).patched hF
    · by_contra he
      obtain ⟨q, i, hlow, hi, hij, hb⟩ := hinv.ends (Bool.not_eq_false _ ▸ he)
      have hin := (hall q i (howns hlow hi) (hmem hlow hi) hij).target.2
      rw [hb, hlen, ← hcode] at hin
      exact absurd hin (Nat.lt_irrefl _)
  · rintro ⟨hr, he⟩ q i hq hi hij
    have hF := Pass.not_forgotten hr q
    have hleads := hf.leads hq.1 (hget hq ▸ hi) hij hF
    refine ⟨⟨hleads.low, ?_⟩, hF⟩
    rcases hleads.high with hlt | ⟨he', -⟩
    · exact hlt
    · rw [he] at he'
      cases he'

/-! ## The module -/

/-- A module that `translate_wasm` accepts is well formed exactly when its payloads are coherent. -/
theorem well_formed_iff {payloads : List (Parsed Payload)} {m : HostModule}
    (h : translateWasm payloads = .ok m) : WellFormed payloads m ↔ Coherent payloads := by
  obtain ⟨hhanded, -, hcounts⟩ := Checked.translated_index h
  obtain ⟨s, hs, hfin⟩ := Verify.bind_eq_ok h
  have htally := payloads_tallies payloads hs
  have hspread : Spread s := each_invariant (fun _ _ _ ha hb => spread_survives.payload ha hb)
    ⟨fun f hf => (by cases hf), List.Pairwise.nil⟩ hs
  obtain ⟨fp, l, table, -, hbig, hl, -, -, rfl⟩ := finish_eq_ok.mp hfin
  obtain ⟨-, -, -, -, -, -, -, -, hsize, -⟩ := finish_ok hfin
  have hlaid := layoutData_contained s.pendingData hl ⟨rfl, fun k off len ho => (by cases ho),
    fun _ _ => rfl⟩
  have hexports : (∀ e ∈ s.exports, e.2 < s.funcs.length) ↔
      ∀ k ∈ exportIndices payloads, k < functions payloads := by
    have h1 : s.exports.map (·.2) = exportIndices payloads := htally.exports
    have h2 : s.funcs.length = functions payloads := htally.funcs.trans (Nat.zero_add _)
    rw [← h1, ← h2]
    simp only [List.forall_mem_map]
  constructor
  · intro hw
    refine ⟨?_, hexports.mp hw.exports, fun p f hp hf => (patched_iff h hp hf).mp (hw.jumps p f hp hf)⟩
    have := hw.typeidx
    omega
  · intro hc
    refine ⟨?_, hspread.inside, fun j k f g hf hg hne p => hspread.disjoint hf hg hne p,
      fun p f hp hf => (patched_iff h hp hf).mpr (hc.bodies p f hp hf), hexports.mpr hc.exports,
      hhanded.dataOff, hhanded.dataLen, hlaid.slices, fun a ha => hlaid.memory a (hsize.trans ha),
      hsize⟩
    have := hc.counts
    omega

/-- A body of the module that a pass lowers. -/
theorem Translate.Makes.body {payloads : List (Parsed Payload)} {p : Pass}
    (hp : Makes payloads p) : ∃ body, .ok (.codeSectionEntry body) ∈ payloads ∧
      Checked.bodyArgs p.state body = .ok (p.type, p.nLocals, p.ops) := by
  obtain ⟨pre, body, post, rfl, -, hargs⟩ := hp
  exact ⟨body, List.mem_append_right _ (.head _), hargs⟩

/-- A module with one function, which it exports. -/
def leaveBlock : List (Parsed Payload) :=
  [.ok .other,
    .ok (.typeSection [.ok [.func ([.i32], [])]]),
    .ok (.functionSection [.ok 0]),
    .ok (.exportSection [.ok ⟨"f", true, 0⟩]),
    .ok .other,
    .ok (.codeSectionEntry
      ⟨.ok [], .ok [.ok (.block .empty), .ok (.localGet 0), .ok (.brIf 0), .ok .end_, .ok .end_]⟩)]

/-- The bodies of `leaveBlock` are settled. -/
theorem leaveBlock_coherent : Coherent leaveBlock := by
  refine ⟨by decide, by decide, fun p f hp _ => ?_⟩
  obtain ⟨body, hmem, hargs⟩ := hp.body
  simp only [leaveBlock, List.mem_cons, Except.ok.injEq, reduceCtorEq, Payload.codeSectionEntry.injEq,
    List.not_mem_nil, or_false, false_or] at hmem
  subst hmem
  rcases p with ⟨s, ft, n, ops⟩
  unfold Checked.bodyArgs at hargs
  split at hargs
  · cases hargs
  · split at hargs
    · cases hargs
    · cases hargs
      show Settled [.block .empty, .localGet 0, .brIf 0, .end_, .end_]
      decide

theorem well_formed_leaveBlock :
    ∃ m, translateWasm leaveBlock = .ok m ∧ WellFormed leaveBlock m := by
  have heval : (translateWasm leaveBlock).toOption.map (fun m : HostModule => m.exports.length) =
      some 1 := by
    decide +kernel
  obtain ⟨m, hm, -⟩ := translated_eval heval
  exact ⟨m, hm, (well_formed_iff hm).mpr leaveBlock_coherent⟩

/-- A module with more declarations than bodies, a dangling export, and an `if` with a second
`else`. -/
def looseEnds : List (Parsed Payload) :=
  [.ok .other,
    .ok (.typeSection [.ok [.func ([.i32], [])]]),
    .ok (.functionSection [.ok 0, .ok 0, .ok 0]),
    .ok (.exportSection [.ok ⟨"f", true, 7⟩]),
    .ok .other,
    .ok (.codeSectionEntry ⟨.ok [], .ok [.ok .end_]⟩),
    .ok (.codeSectionEntry
      ⟨.ok [], .ok [.ok (.localGet 0), .ok (.if_ .empty), .ok .else_, .ok .else_, .ok .end_,
        .ok .end_]⟩)]

/-- It is accepted: types and functions differ in number, an export names no function, and the jump
over the first else arm still has the target 0, outside its function. -/
theorem looseEnds_accepted : ∃ m, translateWasm looseEnds = .ok m ∧ ¬ WellFormed looseEnds m ∧
    m.funcTypeidx.length ≠ m.funcs.length ∧ (∃ e ∈ m.exports, m.funcs.length ≤ e.2) ∧
    ∃ f ∈ m.funcs, ∃ q i, f.Owns q ∧ m.code[q]? = some i ∧ i.op = .br ∧ ¬ f.Owns i.b := by
  have heval : (translateWasm looseEnds).toOption.map (fun m : HostModule =>
      (m.funcTypeidx.length, m.exports, m.funcs.map fun f => (f.codeOff, f.codeLen),
        m.code[3]?)) = some (3, [("f", 7)], [(0, 1), (1, 5)], some ⟨.br, 0, 0⟩) := by
    decide +kernel
  obtain ⟨m, hm, hval⟩ := translated_eval heval
  simp only [Prod.mk.injEq] at hval
  obtain ⟨htypes, hexports, hfuncs, hbr⟩ := hval
  have hlen : m.funcs.length = 2 := by
    rw [← List.length_map (fun f : FuncMeta => (f.codeOff, f.codeLen)), hfuncs]
    rfl
  have hne : m.funcTypeidx.length ≠ m.funcs.length := by
    rw [htypes, hlen]
    decide
  obtain ⟨f, hf, hrange⟩ : ∃ f ∈ m.funcs, (f.codeOff, f.codeLen) = (1, 5) := by
    refine List.mem_map.mp ?_
    rw [hfuncs]
    decide
  obtain ⟨hoff, hcode⟩ := Prod.mk.inj hrange
  refine ⟨m, hm, fun hw => hne hw.typeidx, hne, ⟨("f", 7), ?_, ?_⟩, f, hf, 3, _, ?_, hbr, rfl, ?_⟩
  · rw [hexports]
    exact .head _
  · rw [hlen]
    decide
  · unfold FuncMeta.Owns
    omega
  · unfold FuncMeta.Owns
    dsimp only
    omega

end CuWasm
