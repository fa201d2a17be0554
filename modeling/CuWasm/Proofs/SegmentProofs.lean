import CuWasm.LinearMemory
import CuWasm.Proofs.TranslateProofs
import CuWasm.Run
import CuWasm.Segments

/-!
# Data segments

The sections of data, tables and elements only fill lists of their own, and no other section looks at
these. So a module is translated as it is without its data segments, and these are laid out behind the
loop over the payloads.
-/

namespace CuWasm

open Wasm BlockMove

/-! ## Offset expressions -/

theorem ofInt_sub_ofInt (a b : Int) :
    BitVec.ofInt 32 a - BitVec.ofInt 32 b = BitVec.ofInt 32 (a - b) := by
  apply BitVec.eq_of_toInt_eq
  simp [BitVec.toInt_sub, BitVec.toInt_ofInt]

/-- An expression leaves its value on the stack. -/
theorem OffsetExpr.eval (e : OffsetExpr) (ops : ConstExpr) (st : List (BitVec 32)) :
    evalI32Loop (e.flatten.map .ok ++ ops) st = evalI32Loop ops (BitVec.ofInt 32 e.value :: st) := by
  induction e generalizing ops st with
  | const x =>
    show evalI32Loop ops (x :: st) = _
    rw [OffsetExpr.value, BitVec.ofInt_toInt]
  | add a b iha ihb =>
    have hop : BitVec.ofInt 32 a.value + BitVec.ofInt 32 b.value = BitVec.ofInt 32 (a.value + b.value) := by
      rw [BitVec.ofInt_add]
    rw [OffsetExpr.flatten, List.map_append, List.map_append, List.append_assoc, List.append_assoc, iha,
      ihb, OffsetExpr.value, ← hop]
    rfl
  | sub a b iha ihb =>
    rw [OffsetExpr.flatten, List.map_append, List.map_append, List.append_assoc, List.append_assoc, iha,
      ihb, OffsetExpr.value, ← ofInt_sub_ofInt]
    rfl
  | mul a b iha ihb =>
    have hop : BitVec.ofInt 32 a.value * BitVec.ofInt 32 b.value = BitVec.ofInt 32 (a.value * b.value) := by
      rw [BitVec.ofInt_mul]
    rw [OffsetExpr.flatten, List.map_append, List.map_append, List.append_assoc, List.append_assoc, iha,
      ihb, OffsetExpr.value, ← hop]
    rfl

/-- `eval_i32_expr` computes the address. -/
theorem OffsetExpr.evalI32Expr (e : OffsetExpr) : evalI32Expr e.expr = .ok e.address := by
  have hloop : evalI32Loop e.expr [] = .ok [BitVec.ofInt 32 e.value] := e.eval _ _
  unfold CuWasm.evalI32Expr
  rw [hloop]
  show Except.ok (BitVec.ofInt 32 e.value).toNat = _
  rw [BitVec.toNat_ofInt]
  rfl

/-! ## Sections that do not look at each other -/

namespace Translate

/-- The state with other data segments, another table and other element segments. -/
def TState.withParts (s : TState) (q : List (Bool × Nat × List Byte)) (tab : List Nat)
    (els : List (Nat × List Nat)) : TState :=
  { s with pendingData := q, table := tab, pendingElem := els }

theorem each_map {σ α : Type} {what : String} {f : σ → α → Except String σ} {g : σ → σ}
    (hf : ∀ s a, f (g s) a = (f s a).map g) (xs : List (Parsed α)) (s : σ) :
    each what f xs (g s) = (each what f xs s).map g := by
  induction xs generalizing s with
  | nil => rfl
  | cons x xs ih =>
    cases x with
    | error e => rfl
    | ok a =>
      rw [each_cons_ok, each_cons_ok, hf]
      cases f s a with
      | error e => rfl
      | ok t => exact ih t

section Parts

variable (q : List (Bool × Nat × List Byte)) (tab : List Nat) (els : List (Nat × List Nat))

theorem addTypes_withParts (tys : List CompositeType) (s : TState) :
    addTypes tys (s.withParts q tab els) = (addTypes tys s).map (·.withParts q tab els) := by
  induction tys generalizing s with
  | nil => rfl
  | cons ty tys ih =>
    cases ty with
    | other => rfl
    | func ft =>
      unfold addTypes
      cases onlyInt ft.1 with
      | error e => rfl
      | ok _ =>
        cases onlyInt ft.2 with
        | error e => rfl
        | ok _ => exact ih { s with funcTypes := s.funcTypes ++ [ft] }

theorem addImport_withParts (s : TState) (imp : Import) :
    addImport (s.withParts q tab els) imp = (addImport s imp).map (·.withParts q tab els) := by
  unfold addImport
  cases imp.ty with
  | other text => rfl
  | func t =>
    have hty : (s.withParts q tab els).funcTypes = s.funcTypes := rfl
    simp only [hty]
    cases s.funcTypes[t]? with
    | none => rfl
    | some ft =>
      simp only
      cases onlyInt ft.1 with
      | error e => rfl
      | ok _ =>
        cases onlyInt ft.2 with
        | error e => rfl
        | ok _ =>
          cases EnvFnId.lookup imp.module imp.name <;> rfl

theorem addMemory_withParts (s : TState) (mt : MemoryType) :
    addMemory (s.withParts q tab els) mt = (addMemory s mt).map (·.withParts q tab els) := by
  have hmem : (s.withParts q tab els).hasMemory = s.hasMemory := rfl
  unfold addMemory
  rw [hmem]
  split_ifs <;> rfl

theorem addGlobal_withParts (s : TState) (g : GlobalEntry) :
    addGlobal (s.withParts q tab els) g = (addGlobal s g).map (·.withParts q tab els) := by
  unfold addGlobal
  cases g.contentType
  case i32 | i64 | f32 | f64 => cases globalInit g.initExpr none <;> rfl
  all_goals rfl

theorem addExport_withParts (s : TState) (ex : Export) :
    addExport (s.withParts q tab els) ex = (addExport s ex).map (·.withParts q tab els) := by
  unfold addExport
  split_ifs <;> rfl

theorem lowerBody_withParts (s : TState) (ft : FuncType) (n : Nat) (ops : List Operator) :
    lowerBody (s.withParts q tab els) ft n ops = (lowerBody s ft n ops).withParts q tab els := by
  have hlower : lowerOperators (s.withParts q tab els).lowerModule ops (ft.1.length % 2 ^ 16)
      (ft.2.length % 2 ^ 16) n (s.withParts q tab els).code (s.withParts q tab els).consts =
    lowerOperators s.lowerModule ops (ft.1.length % 2 ^ 16) (ft.2.length % 2 ^ 16) n s.code s.consts :=
    rfl
  unfold lowerBody
  simp only [hlower]
  rcases lowerOperators s.lowerModule ops _ _ n s.code s.consts with ⟨r, code, consts⟩
  cases r <;> rfl

theorem addCode_withParts (s : TState) (body : FunctionBody) :
    addCode (s.withParts q tab els) body = (addCode s body).map (·.withParts q tab els) := by
  have hidx : (s.withParts q tab els).funcTypeidx = s.funcTypeidx := rfl
  have hfuncs : (s.withParts q tab els).funcs = s.funcs := rfl
  have htypes : (s.withParts q tab els).funcTypes = s.funcTypes := rfl
  unfold addCode
  simp only [hidx, hfuncs, htypes]
  cases s.funcTypeidx[s.funcs.length]? with
  | none => rfl
  | some tidx =>
    cases hft : s.funcTypes[tidx]? with
    | none => simp only [hft]; rfl
    | some ft =>
      simp only [hft]
      cases body.locals.mapError ("locals: " ++ ·) with
      | error e => rfl
      | ok locals =>
        dsimp only [bind, Except.bind]
        cases countLocals locals with
        | error e => rfl
        | ok n =>
          dsimp only
          split_ifs
          · rfl
          · cases body.ops.mapError ("ops: " ++ ·) with
            | error e => rfl
            | ok ops =>
              dsimp only
              cases collect "op" ops with
              | error e => rfl
              | ok ops' => exact congrArg Except.ok (lowerBody_withParts q tab els s ft n ops')

/-- A section of another kind. -/
theorem payload_withParts {p : Payload} (hd : ∀ xs, p ≠ .dataSection xs)
    (ht : ∀ xs, p ≠ .tableSection xs) (he : ∀ xs, p ≠ .elementSection xs) (s : TState) :
    payload (s.withParts q tab els) p = (payload s p).map (·.withParts q tab els) := by
  cases p with
  | typeSection recs =>
    exact each_map (f := fun s tys => addTypes tys s) (fun s tys => addTypes_withParts q tab els tys s)
      recs s
  | functionSection idxs =>
    exact each_map (f := fun s i => .ok { s with funcTypeidx := s.funcTypeidx ++ [i] })
      (g := (·.withParts q tab els)) (fun s i => rfl) idxs s
  | importSection imps => exact each_map (addImport_withParts q tab els) imps s
  | memorySection mems => exact each_map (addMemory_withParts q tab els) mems s
  | globalSection gs => exact each_map (addGlobal_withParts q tab els) gs s
  | exportSection exs => exact each_map (addExport_withParts q tab els) exs s
  | codeSectionEntry body => exact addCode_withParts q tab els s body
  | tableSection tabs => exact absurd rfl (ht tabs)
  | elementSection es => exact absurd rfl (he es)
  | dataSection segs => exact absurd rfl (hd segs)
  | startSection => rfl
  | dataCountSection | other => rfl

end Parts

theorem payload_keeps_parts {p : Payload} {s u : TState} (hd : ∀ xs, p ≠ .dataSection xs)
    (ht : ∀ xs, p ≠ .tableSection xs) (he : ∀ xs, p ≠ .elementSection xs) (h : payload s p = .ok u) :
    u = u.withParts s.pendingData s.table s.pendingElem := by
  have hself : payload s p = (payload s p).map (·.withParts s.pendingData s.table s.pendingElem) :=
    payload_withParts s.pendingData s.table s.pendingElem hd ht he s
  rw [h] at hself
  injection hself

/-- The data segments and the table are made apart from the rest of the module. -/
theorem finish_parts {s : TState} {m : HostModule} : finish s = .ok m ↔
    ∃ m0 l table, finish (s.withParts [] [] []) = .ok m0 ∧
      layoutData m0.memSize s.pendingData {} = .ok l ∧ placeElems s.pendingElem s.table = .ok table ∧
      m = { m0 with
        memory := l.memory, dataBlob := l.dataBlob, dataOff := l.dataOff, dataLen := l.dataLen,
        dataLive := l.dataLive, table := table } := by
  constructor
  · intro h
    obtain ⟨fp, l, table, hfp, hbig, hl, htab, hempty, rfl⟩ := finish_eq_ok.mp h
    exact ⟨_, l, table, finish_eq_ok.mpr ⟨fp, {}, [], hfp, hbig, rfl, rfl, hempty, rfl⟩, hl, htab, rfl⟩
  · rintro ⟨m0, l, table, h0, hl, htab, rfl⟩
    obtain ⟨fp, l0, table0, hfp, hbig, -, -, hempty, rfl⟩ := finish_eq_ok.mp h0
    exact finish_eq_ok.mpr ⟨fp, l, table, hfp, hbig, hl, htab, hempty, rfl⟩

/-! ## The data sections -/

/-- The entry of a data segment in the list of pending ones. -/
def pendingEntry : DataSegment → Bool × Nat × List Byte
  | .active offset bs => (true, offset.address, bs)
  | .passive bs => (false, 0, bs)

theorem addData_segment (s : TState) (d : DataSegment) :
    addData s d.data = .ok { s with pendingData := s.pendingData ++ [pendingEntry d] } := by
  cases d with
  | active offset bs =>
    show (evalI32Expr offset.expr).bind _ = _
    rw [offset.evalI32Expr]
    rfl
  | passive bs => rfl

theorem dataSection_segments (segs : List DataSegment) (s : TState) :
    each "data" addData (segs.map fun d => .ok d.data) s =
      .ok { s with pendingData := s.pendingData ++ segs.map pendingEntry } := by
  induction segs generalizing s with
  | nil => simp [each]
  | cons d segs ih =>
    rw [List.map_cons, each_cons_ok, addData_segment]
    refine (ih _).trans ?_
    rw [List.map_cons, List.append_assoc]
    rfl

theorem addTable_withData (q : List (Bool × Nat × List Byte)) (s : TState) (t : TableEntry) :
    addTable { s with pendingData := q } t =
      (addTable s t).map fun u => { u with pendingData := q } := by
  unfold addTable
  dsimp only
  split_ifs <;> rfl

theorem addElement_withData (q : List (Bool × Nat × List Byte)) (s : TState) (el : Element) :
    addElement { s with pendingData := q } el =
      (addElement s el).map fun u => { u with pendingData := q } := by
  unfold addElement
  dsimp only
  cases el.kind with
  | passive => rfl
  | declared => rfl
  | active tableIndex offset =>
    dsimp only
    split_ifs
    · rfl
    · cases evalI32Expr offset with
      | error e => rfl
      | ok off => cases elemItems el.items <;> rfl

/-- A section that is not one of data. -/
theorem payload_withData (q : List (Bool × Nat × List Byte)) {p : Payload}
    (hd : ∀ xs, p ≠ .dataSection xs) (s : TState) :
    payload { s with pendingData := q } p =
      (payload s p).map fun u => { u with pendingData := q } := by
  by_cases ht : ∃ xs, p = .tableSection xs
  · obtain ⟨xs, rfl⟩ := ht
    exact each_map (addTable_withData q) xs s
  by_cases he : ∃ xs, p = .elementSection xs
  · obtain ⟨xs, rfl⟩ := he
    exact each_map (addElement_withData q) xs s
  have h := payload_withParts q s.table s.pendingElem hd (fun xs hx => ht ⟨xs, hx⟩)
    (fun xs hx => he ⟨xs, hx⟩) s
  refine h.trans ?_
  cases hp : payload s p with
  | error e => rfl
  | ok u =>
    have hsame := payload_keeps_parts hd (fun xs hx => ht ⟨xs, hx⟩) (fun xs hx => he ⟨xs, hx⟩) hp
    show Except.ok (u.withParts q s.table s.pendingElem) = Except.ok _
    rw [hsame]
    rfl

/-- The loop over the payloads, with the data segments added at the end. -/
theorem payloads_withData {ps : List (Parsed Payload)} {segs : List DataSegment}
    (hdata : dataItems ps = segs.map fun d => .ok d.data) (q : List (Bool × Nat × List Byte))
    (s : TState) :
    each "parse" payload ps { s with pendingData := q } =
      (each "parse" payload (withoutData ps) s).map fun u =>
        { u with pendingData := q ++ segs.map pendingEntry } := by
  induction ps generalizing s q segs with
  | nil =>
    have hnil : segs = [] := by
      cases segs with
      | nil => rfl
      | cons d segs => cases hdata
    rw [hnil, List.map_nil, List.append_nil]
    rfl
  | cons p ps ih =>
    cases p with
    | error e => rfl
    | ok p =>
      by_cases hd : ∃ xs, p = .dataSection xs
      · obtain ⟨xs, rfl⟩ := hd
        have hsplit : segs.map (fun d => Except.ok (ε := String) d.data) = xs ++ dataItems ps := hdata.symm
        obtain ⟨segs1, segs2, rfl, h1, h2⟩ := List.map_eq_append_iff.mp hsplit
        have hsec : payload { s with pendingData := q } (.dataSection xs) =
            .ok { s with pendingData := q ++ segs1.map pendingEntry } := by
          rw [← h1]
          exact dataSection_segments segs1 _
        rw [each_cons_ok, hsec]
        show each "parse" payload ps { s with pendingData := _ } = _
        rw [ih h2.symm, List.map_append, List.append_assoc]
        rfl
      · have hd' : ∀ xs, p ≠ .dataSection xs := fun xs hx => hd ⟨xs, hx⟩
        have hitems : dataItems (.ok p :: ps) = dataItems ps := by
          cases p <;> first | rfl | exact absurd rfl (hd' _)
        have hwithout : withoutData (.ok p :: ps) = .ok p :: withoutData ps := by
          cases p <;> first | rfl | exact absurd rfl (hd' _)
        rw [hitems] at hdata
        rw [hwithout, each_cons_ok, each_cons_ok, payload_withData q hd' s]
        cases payload s p with
        | error e => rfl
        | ok u => exact ih hdata q u

end Translate

/-! ## The layout -/

section Layout

open Translate

variable {segs done : List DataSegment} {size : Nat} {l l' : Layout}

/-- The layout of the segments `segs`: their bytes one behind the other in the blob, and the active ones
in the memory. -/
structure LaidOut (segs : List DataSegment) (l : Layout) : Prop where
  memory : ∀ c, l.memory c = initialByte segs c
  dataOff : l.dataOff.length = segs.length
  dataLen : l.dataLen.length = segs.length
  dataLive : l.dataLive.length = segs.length
  segment : ∀ (i : Nat) d, segs[i]? = some d → ∃ off, l.dataOff[i]? = some off ∧
    l.dataLen[i]? = some d.bytes.length ∧ (l.dataBlob.drop off).take d.bytes.length = d.bytes ∧
    off + d.bytes.length ≤ l.dataBlob.length ∧
    l.dataLive[i]? = some (if d.isPassive then 1 else 0)

theorem initialByte_append (segs : List DataSegment) (d : DataSegment) (c : Nat) :
    initialByte (segs ++ [d]) c = (d.byteAt c).getD (initialByte segs c) := by
  unfold initialByte
  rw [List.reverse_append, List.reverse_singleton, List.singleton_append, List.findSome?_cons]
  cases d.byteAt c <;> rfl

/-- The memory behind one more segment. -/
theorem fillAsc_byteAt (mem : Nat → Byte) (offset : OffsetExpr) (bs : List Byte) (c : Nat) :
    fillAsc mem offset.address (bs.getD · 0) bs.length c =
      ((DataSegment.active offset bs).byteAt c).getD (mem c) := by
  rw [fillAsc_apply, DataSegment.byteAt]
  by_cases hle : offset.address ≤ c
  · by_cases hlt : c < offset.address + bs.length
    · rw [if_pos ⟨hle, hlt⟩, if_pos hle, List.getD_eq_getElem?_getD,
        List.getElem?_eq_getElem (by omega)]
      rfl
    · rw [if_neg (by omega), if_pos hle, List.getElem?_eq_none (by omega)]
      rfl
  · rw [if_neg (by omega), if_neg hle]
    rfl

/-- The layout with one more segment. -/
def addSegment (l : Layout) (d : DataSegment) : Layout where
  memory :=
    if (pendingEntry d).1 then
      fillAsc l.memory (pendingEntry d).2.1 ((pendingEntry d).2.2.getD · 0) (pendingEntry d).2.2.length
    else l.memory
  dataBlob := l.dataBlob ++ (pendingEntry d).2.2
  dataOff := l.dataOff ++ [l.dataBlob.length]
  dataLen := l.dataLen ++ [(pendingEntry d).2.2.length]
  dataLive := l.dataLive ++ [if (pendingEntry d).1 then 0 else 1]

theorem pendingEntry_bytes (d : DataSegment) : (pendingEntry d).2.2 = d.bytes := by
  cases d <;> rfl

theorem LaidOut.add (h : LaidOut segs l) (d : DataSegment) : LaidOut (segs ++ [d]) (addSegment l d) := by
  constructor
  · intro c
    rw [initialByte_append, ← h.memory c]
    cases d with
    | active offset bs => exact fillAsc_byteAt l.memory offset bs c
    | passive bs => rfl
  · simp [addSegment, h.dataOff]
  · simp [addSegment, h.dataLen]
  · simp [addSegment, h.dataLive]
  · intro i d' hi
    rw [List.getElem?_append] at hi
    split_ifs at hi with hlt
    · obtain ⟨off, h1, h2, h3, h4, h5⟩ := h.segment i d' hi
      refine ⟨off, ?_, ?_, ?_, ?_, ?_⟩
      · exact (List.getElem?_append_left (by rw [h.dataOff]; exact hlt)).trans h1
      · exact (List.getElem?_append_left (by rw [h.dataLen]; exact hlt)).trans h2
      · unfold addSegment
        rw [List.drop_append_of_le_length (by omega), List.take_append_of_le_length (by simp; omega)]
        exact h3
      · unfold addSegment
        rw [List.length_append]
        omega
      · exact (List.getElem?_append_left (by rw [h.dataLive]; exact hlt)).trans h5
    · obtain ⟨rfl, hd⟩ : i = segs.length ∧ d' = d := by
        rcases Nat.eq_zero_or_pos (i - segs.length) with h0 | h0
        · rw [h0] at hi
          exact ⟨by omega, by simpa using hi.symm⟩
        · rw [List.getElem?_eq_none (by rw [List.length_singleton]; omega)] at hi
          cases hi
      subst hd
      have hbytes := pendingEntry_bytes d'
      refine ⟨l.dataBlob.length, ?_, ?_, ?_, ?_, ?_⟩
      · unfold addSegment
        rw [← h.dataOff, List.getElem?_concat_length]
      · unfold addSegment
        rw [← h.dataLen, List.getElem?_concat_length, hbytes]
      · unfold addSegment
        rw [hbytes, List.drop_left, List.take_length]
      · unfold addSegment
        rw [hbytes, List.length_append]
      · unfold addSegment
        rw [← h.dataLive, List.getElem?_concat_length]
        cases d' <;> rfl

theorem layoutData_cons (d : DataSegment) (rest : List (Bool × Nat × List Byte)) (l : Layout)
    (h : ¬ d.Exceeds size) :
    layoutData size (pendingEntry d :: rest) l = layoutData size rest (addSegment l d) := by
  cases d with
  | active offset bs =>
    exact if_neg (c := true = true ∧ offset.address + bs.length > size) (fun hc => h hc.2)
  | passive bs =>
    exact if_neg (c := false = true ∧ 0 + bs.length > size) (fun hc => by cases hc.1)

variable (size) in
/-- The loop over the pending data segments fails on a segment that exceeds the memory and lays them all
out otherwise. -/
theorem layoutData_segments (segs : List DataSegment) (h : LaidOut done l) :
    (∃ d ∈ segs, d.Exceeds size ∧ ∃ e, layoutData size (segs.map pendingEntry) l = .error e) ∨
      ((∀ d ∈ segs, ¬ d.Exceeds size) ∧
        ∃ l', layoutData size (segs.map pendingEntry) l = .ok l' ∧ LaidOut (done ++ segs) l') := by
  induction segs generalizing done l with
  | nil =>
    right
    refine ⟨fun d hd => (nomatch hd), l, rfl, ?_⟩
    rwa [List.append_nil]
  | cons d segs ih =>
    by_cases hd : d.Exceeds size
    · left
      refine ⟨d, List.mem_cons_self .., hd, "data segment out of bounds", ?_⟩
      cases d with
      | active offset bs =>
        exact if_pos (c := true = true ∧ offset.address + bs.length > size) ⟨rfl, hd⟩
      | passive bs => exact hd.elim
    · rw [List.map_cons, layoutData_cons d _ l hd]
      rcases ih (h.add d) with ⟨d', hmem, hex, herr⟩ | ⟨hall, l', hl', hout⟩
      · exact .inl ⟨d', List.mem_cons_of_mem _ hmem, hex, herr⟩
      · right
        refine ⟨fun d' hd' => ?_, l', hl', ?_⟩
        · rcases List.mem_cons.mp hd' with rfl | hmem
          · exact hd
          · exact hall d' hmem
        · rwa [List.append_assoc, List.singleton_append] at hout

theorem laidOut_nil : LaidOut [] {} :=
  ⟨fun _ => rfl, rfl, rfl, rfl, fun i d hi => by simp at hi⟩

end Layout

open Translate

/-- The module without its data segments, and with them. -/
theorem translateWasm_data {ps : List (Parsed Payload)} {segs : List DataSegment}
    (hdata : dataItems ps = segs.map fun d => .ok d.data) :
    each "parse" payload ps {} = (each "parse" payload (withoutData ps) {}).map fun u =>
      { u with pendingData := segs.map pendingEntry } :=
  payloads_withData hdata [] {}

/-- An accepted module has its segments laid out. -/
theorem translated_layout {ps : List (Parsed Payload)} {segs : List DataSegment} {m : HostModule}
    (hdata : dataItems ps = segs.map fun d => .ok d.data) (h : translateWasm ps = .ok m) :
    LaidOut segs ⟨m.memory, m.dataBlob, m.dataOff, m.dataLen, m.dataLive⟩ := by
  obtain ⟨s, hs, hfin⟩ := Verify.bind_eq_ok h
  rw [translateWasm_data hdata] at hs
  cases hbase : each "parse" payload (withoutData ps) ({} : TState) with
  | error e =>
    rw [hbase] at hs
    cases hs
  | ok u =>
    rw [hbase] at hs
    cases hs
    obtain ⟨m0, l, table, -, hl, -, rfl⟩ := finish_parts.mp hfin
    rcases layoutData_segments m0.memSize segs laidOut_nil with
      ⟨d, -, -, e, he⟩ | ⟨-, l', hl', hout⟩
    · rw [he] at hl
      cases hl
    · rw [hl'] at hl
      cases hl
      rwa [List.nil_append] at hout

/-- The views of a translated module hold its data segments. -/
theorem translated_dataSegments {ps : List (Parsed Payload)} {segs : List DataSegment} {m : HostModule}
    (hdata : dataItems ps = segs.map fun d => .ok d.data) (h : translateWasm ps = .ok m)
    (hblob : m.dataBlob.length ≤ 2 ^ 32) :
    DataSegments m.cpuViews (segs.map DataSegment.bytes) := by
  have hout := translated_layout hdata h
  have hseg (d : Nat) (bs : List Byte) (hd : (segs.map DataSegment.bytes)[d]? = some bs) :
      ∃ off, m.dataOff[d]? = some off ∧ m.dataLen[d]? = some bs.length ∧
        (m.dataBlob.drop off).take bs.length = bs ∧ off + bs.length ≤ m.dataBlob.length := by
    rw [List.getElem?_map] at hd
    obtain ⟨seg, hs, rfl⟩ := Option.map_eq_some_iff.mp hd
    obtain ⟨off, h1, h2, h3, h4, -⟩ := hout.segment d seg hs
    exact ⟨off, h1, h2, h3, h4⟩
  refine ⟨?_, fun d bs hd => ?_, fun d bs hd => ?_, fun d bs hd k x hx => ?_⟩
  · rw [List.length_map]
    exact hout.dataLive
  · obtain ⟨off, -, h2, -⟩ := hseg d bs hd
    show m.dataLen.getD d 0 = bs.length
    rw [List.getD_eq_getElem?_getD, h2, Option.getD_some]
  · obtain ⟨off, h1, -, -, h4⟩ := hseg d bs hd
    show m.dataOff.getD d 0 + bs.length ≤ 2 ^ 32
    rw [List.getD_eq_getElem?_getD, h1, Option.getD_some]
    omega
  · obtain ⟨off, h1, -, h3, -⟩ := hseg d bs hd
    have hk : k < bs.length := (List.getElem?_eq_some_iff.mp hx).1
    show m.dataBlob.getD (m.dataOff.getD d 0 + k) 0 = x
    rw [List.getD_eq_getElem?_getD (l := m.dataOff), h1, Option.getD_some]
    rw [← h3, List.getElem?_take_of_lt hk, List.getElem?_drop] at hx
    rw [List.getD_eq_getElem?_getD, hx, Option.getD_some]

/-- Data segments are laid out faithfully: the initial memory holds at each address the byte of the last
active segment covering it, the blob holds all of them for `memory.init`, and among the modules that are
acceptable without their data segments those with a segment behind the end of the memory are rejected. -/
theorem data_layout_faithful (ps : List (Parsed Payload)) (segs : List DataSegment)
    (hdata : dataItems ps = segs.map fun d => .ok d.data) :
    (∀ m, translateWasm ps = .ok m →
      (∀ c, m.memory c = initialByte segs c) ∧
      m.dataOff.length = segs.length ∧ m.dataLen.length = segs.length ∧
      m.dataLive.length = segs.length ∧
      ∀ (i : Nat) (d : DataSegment), segs[i]? = some d → ∃ off len, m.dataOff[i]? = some off ∧ m.dataLen[i]? = some len ∧
        (m.dataBlob.drop off).take len = d.bytes ∧ off + len ≤ m.dataBlob.length ∧
        m.dataLive[i]? = some (if d.isPassive then 1 else 0)) ∧
    (∀ m, translateWasm (withoutData ps) = .ok m →
      ((∃ e, translateWasm ps = .error e) ↔ ∃ d ∈ segs, d.Exceeds m.memSize)) := by
  constructor
  · intro m h
    have hout := translated_layout hdata h
    refine ⟨hout.memory, hout.dataOff, hout.dataLen, hout.dataLive, fun i d hi => ?_⟩
    obtain ⟨off, h1, h2, h3, h4, h5⟩ := hout.segment i d hi
    exact ⟨off, _, h1, h2, h3, h4, h5⟩
  · intro m h
    obtain ⟨u, hbase, hfin⟩ := Verify.bind_eq_ok h
    obtain ⟨m0, l0, table, hm0, -, htab, rfl⟩ := finish_parts.mp hfin
    have hps : translateWasm ps = finish { u with pendingData := segs.map pendingEntry } := by
      unfold translateWasm
      rw [translateWasm_data hdata, hbase]
      rfl
    rw [hps]
    rcases layoutData_segments m0.memSize segs laidOut_nil with
      ⟨d, hd, hex, e, he⟩ | ⟨hall, l, hl, -⟩
    · refine ⟨fun _ => ⟨d, hd, hex⟩, fun _ => ?_⟩
      cases hres : finish { u with pendingData := segs.map pendingEntry } with
      | error e' => exact ⟨e', rfl⟩
      | ok m' =>
        obtain ⟨m1, l1, table1, hm1, hl1, -⟩ := finish_parts.mp hres
        have hsame : m1 = m0 := by
          have heq := hm1.symm.trans hm0
          injection heq
        have hl2 : layoutData m0.memSize (segs.map pendingEntry) {} = .ok l1 := hsame ▸ hl1
        rw [he] at hl2
        cases hl2
    · constructor
      · rintro ⟨e, he⟩
        have hok := (finish_parts (s := { u with pendingData := segs.map pendingEntry })).mpr
          ⟨m0, l, table, hm0, hl, htab, rfl⟩
        rw [hok] at he
        cases he
      · rintro ⟨d, hd, hex⟩
        exact absurd hex (hall d hd)

/-- A module with two overlapping active segments around a passive one. -/
def overlapSegments : List DataSegment :=
  [.active (.sub (.const 2) (.mul (.const 3) (.const (-1)))) [1, 2, 3], .passive [7, 8],
    .active (.add (.const 7) (.const (-1))) [9]]

def overlapModule : Module where
  types := [[.func ([], [])]]
  funcs := [0]
  mems := [{ initial := 1 }]
  code := [{ locals := [], body := .nil }]
  datas := overlapSegments.map DataSegment.data

/-- The later segment wins in the overlap. -/
theorem overlap_laid_out : ∃ m, translateWasm overlapModule.payloads = .ok m ∧
    m.memory 5 = 1 ∧ m.memory 6 = 9 ∧ m.memory 7 = 3 ∧ m.memory 8 = 0 := by
  obtain ⟨hlaid, hreject⟩ := data_layout_faithful overlapModule.payloads overlapSegments rfl
  have hbase : ∃ m, translateWasm (withoutData overlapModule.payloads) = .ok m ∧ m.memSize = 65536 :=
    ⟨_, rfl, rfl⟩
  obtain ⟨m', hm', hsize⟩ := hbase
  cases h : translateWasm overlapModule.payloads with
  | error e =>
    obtain ⟨d, hd, hex⟩ := (hreject m' hm').mp ⟨e, h⟩
    rw [hsize] at hex
    simp only [overlapSegments, List.mem_cons, List.not_mem_nil, or_false] at hd
    rcases hd with rfl | rfl | rfl
    · exact absurd hex (by unfold DataSegment.Exceeds; decide)
    · exact hex.elim
    · exact absurd hex (by unfold DataSegment.Exceeds; decide)
  | ok m =>
    obtain ⟨hmem, -⟩ := hlaid m h
    refine ⟨m, rfl, ?_⟩
    rw [hmem, hmem, hmem, hmem]
    decide

end CuWasm
