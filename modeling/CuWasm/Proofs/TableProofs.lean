import CuWasm.Proofs.SegmentProofs

/-!
# Tables and element segments

The translator places the functions of an element segment one by one and tests each slot, so an empty
segment is never tested; it takes a table without slots for no table at all; and it does not read the
initialiser of a table. Apart from that the table is the one instantiation makes.
-/

namespace CuWasm

open Wasm

namespace Translate

/-! ## The sections -/

/-- The table behind one more table entry, unless it is refused. -/
def nextTable (table : List Nat) (t : TableDecl) : Option (List Nat) :=
  if table.isEmpty ∧ t.size ≤ 1024 then some (List.replicate t.size TABLE_NULL) else none

theorem addTable_entry (s : TState) (t : TableDecl) :
    (addTable s t.entry).toOption = (nextTable s.table t).map fun tab => { s with table := tab } := by
  unfold addTable nextTable TableDecl.entry
  dsimp only
  by_cases he : s.table.isEmpty = true
  · by_cases hbig : t.size > 1024
    · rw [if_neg (by simpa using he), if_neg (by decide), if_neg (by decide), if_pos hbig,
        if_neg (by omega)]
      rfl
    · rw [if_neg (by simpa using he), if_neg (by decide), if_neg (by decide), if_neg hbig,
        if_pos ⟨he, by omega⟩]
      rfl
  · rw [if_pos he, if_neg (fun h => he h.1)]
    rfl

theorem tableSection_decls (tables : List TableDecl) (s : TState) :
    (each "table" addTable (tables.map fun t => .ok t.entry) s).toOption =
      (tables.foldlM nextTable s.table).map fun tab => { s with table := tab } := by
  induction tables generalizing s with
  | nil => rfl
  | cons t tables ih =>
    have ht := addTable_entry s t
    rw [List.map_cons, each_cons_ok, List.foldlM_cons]
    cases hn : nextTable s.table t with
    | none =>
      rw [hn] at ht
      cases hadd : addTable s t.entry with
      | error e => rfl
      | ok u =>
        rw [hadd] at ht
        cases ht
    | some tab =>
      rw [hn] at ht
      cases hadd : addTable s t.entry with
      | error e =>
        rw [hadd] at ht
        cases ht
      | ok u =>
        rw [hadd] at ht
        cases ht
        exact ih _

theorem elemExpr_expr (e : RefExpr) : elemExpr e.expr none = .ok e.slot := by
  cases e <;> rfl

theorem elemItems_slots (d : ElemSegment) : elemItems d.element.items = .ok d.slots := by
  unfold ElemSegment.element ElemSegment.slots
  cases d.items with
  | functions fs => exact collect_map_ok _ fs
  | expressions es =>
    have hacc (acc : List Nat) : each "elem expr" (fun acc ops => do return acc ++ [← elemExpr ops none])
        (es.map fun e => .ok e.expr) acc = .ok (acc ++ es.map RefExpr.slot) := by
      induction es generalizing acc with
      | nil => simp [each]
      | cons e es ih =>
        rw [List.map_cons, each_cons_ok, elemExpr_expr]
        refine (ih (acc ++ [e.slot])).trans ?_
        rw [List.map_cons, List.append_assoc]
        rfl
    exact hacc []

/-- The entry of an element segment in the list of pending ones. -/
def pendingSlots (d : ElemSegment) : Nat × List Nat := (d.offset.address, d.slots)

theorem addElement_segment (s : TState) (d : ElemSegment) :
    addElement s d.element =
      .ok { s with pendingElem := s.pendingElem ++ [(d.offset.address, d.slots)] } := by
  have hparts : addElement s d.element = (evalI32Expr d.offset.expr).bind fun off =>
      (elemItems d.element.items).bind fun idxs =>
        .ok { s with pendingElem := s.pendingElem ++ [(off, idxs)] } := by
    rcases d with ⟨named, offset, items⟩
    cases named <;> rfl
  rw [hparts, d.offset.evalI32Expr, elemItems_slots]
  rfl

theorem elementSection_segments (segs : List ElemSegment) (s : TState) :
    each "elem" addElement (segs.map fun d => .ok d.element) s =
      .ok { s with pendingElem := s.pendingElem ++ segs.map pendingSlots } := by
  induction segs generalizing s with
  | nil => simp [each]
  | cons d segs ih =>
    rw [List.map_cons, each_cons_ok, addElement_segment]
    refine (ih _).trans ?_
    rw [List.map_cons, List.append_assoc]
    rfl

/-- A section of another kind. -/
theorem payload_withTables (tab : List Nat) (els : List (Nat × List Nat)) {p : Payload}
    (ht : ∀ xs, p ≠ .tableSection xs) (he : ∀ xs, p ≠ .elementSection xs) (s : TState) :
    payload { s with table := tab, pendingElem := els } p =
      (payload s p).map fun u => { u with table := tab, pendingElem := els } := by
  by_cases hd : ∃ xs, p = .dataSection xs
  · obtain ⟨xs, rfl⟩ := hd
    refine each_map (f := addData) (g := fun u => { u with table := tab, pendingElem := els })
      (fun s d => ?_) xs s
    unfold addData
    cases d.kind with
    | passive => rfl
    | active memoryIndex offset =>
      dsimp only
      split_ifs
      · rfl
      · cases evalI32Expr offset <;> rfl
  · have hd' : ∀ xs, p ≠ .dataSection xs := fun xs hx => hd ⟨xs, hx⟩
    refine (payload_withParts s.pendingData tab els hd' ht he s).trans ?_
    cases hp : payload s p with
    | error e => rfl
    | ok u =>
      have hsame := payload_keeps_parts hd' ht he hp
      show Except.ok (u.withParts s.pendingData tab els) = Except.ok _
      rw [hsame]
      rfl

/-- The loop over the payloads, with the tables and the element segments added at the end. -/
theorem payloads_withTables {ps : List (Parsed Payload)} {tables : List TableDecl}
    {segs : List ElemSegment} (htab : tableItems ps = tables.map fun t => .ok t.entry)
    (hel : elementItems ps = segs.map fun d => .ok d.element) (tab : List Nat)
    (els : List (Nat × List Nat)) (s u : TState)
    (h : each "parse" payload (withoutTables ps) s = .ok u) :
    (each "parse" payload ps { s with table := tab, pendingElem := els }).toOption =
      (tables.foldlM nextTable tab).map fun tab' =>
        { u with
          table := tab'
          pendingElem := els ++ segs.map pendingSlots } := by
  induction ps generalizing s tab els tables segs with
  | nil =>
    have h1 : tables = [] := by
      cases tables with
      | nil => rfl
      | cons t tables => cases htab
    have h2 : segs = [] := by
      cases segs with
      | nil => rfl
      | cons d segs => cases hel
    cases h
    rw [h1, h2, List.map_nil, List.append_nil]
    rfl
  | cons p ps ih =>
    cases p with
    | error e => cases h
    | ok p =>
      by_cases ht : ∃ xs, p = .tableSection xs
      · obtain ⟨xs, rfl⟩ := ht
        have hsplit : tables.map (fun t => Except.ok (ε := String) t.entry) = xs ++ tableItems ps :=
          htab.symm
        obtain ⟨tables1, tables2, rfl, h1, h2⟩ := List.map_eq_append_iff.mp hsplit
        have hsec : (payload { s with table := tab, pendingElem := els } (.tableSection xs)).toOption =
            (tables1.foldlM nextTable tab).map fun tab' =>
              { s with table := tab', pendingElem := els } := by
          rw [← h1]
          exact tableSection_decls tables1 _
        rw [each_cons_ok, List.foldlM_append]
        cases hf : tables1.foldlM nextTable tab with
        | none =>
          rw [hf] at hsec
          cases hp : payload { s with table := tab, pendingElem := els } (.tableSection xs) with
          | error e => rfl
          | ok t =>
            rw [hp] at hsec
            cases hsec
        | some tab' =>
          rw [hf] at hsec
          cases hp : payload { s with table := tab, pendingElem := els } (.tableSection xs) with
          | error e =>
            rw [hp] at hsec
            cases hsec
          | ok t =>
            rw [hp] at hsec
            cases hsec
            exact ih h2.symm hel tab' els s h
      by_cases he : ∃ xs, p = .elementSection xs
      · obtain ⟨xs, rfl⟩ := he
        have hsplit : segs.map (fun d => Except.ok (ε := String) d.element) = xs ++ elementItems ps :=
          hel.symm
        obtain ⟨segs1, segs2, rfl, h1, h2⟩ := List.map_eq_append_iff.mp hsplit
        have hsec : payload { s with table := tab, pendingElem := els } (.elementSection xs) =
            .ok { s with
              table := tab
              pendingElem := els ++ segs1.map pendingSlots } := by
          rw [← h1]
          exact elementSection_segments segs1 _
        rw [each_cons_ok, hsec, List.map_append, ← List.append_assoc]
        exact ih htab h2.symm tab _ s h
      · have ht' : ∀ xs, p ≠ .tableSection xs := fun xs hx => ht ⟨xs, hx⟩
        have he' : ∀ xs, p ≠ .elementSection xs := fun xs hx => he ⟨xs, hx⟩
        have htabs : tableItems (.ok p :: ps) = tableItems ps := by
          cases p <;> first | rfl | exact absurd rfl (ht' _)
        have hels : elementItems (.ok p :: ps) = elementItems ps := by
          cases p <;> first | rfl | exact absurd rfl (he' _)
        have hwithout : withoutTables (.ok p :: ps) = .ok p :: withoutTables ps := by
          cases p <;> first | rfl | exact absurd rfl (ht' _) | exact absurd rfl (he' _)
        rw [htabs] at htab
        rw [hels] at hel
        rw [hwithout] at h
        obtain ⟨t, ht1, h⟩ := Verify.bind_eq_ok h
        rw [each_cons_ok, payload_withTables tab els ht' he' s, ht1]
        exact ih htab hel tab els t h

/-! ## The table -/

/-- The tables are refused, or the last one counts. -/
theorem foldlM_nextTable (tables : List TableDecl) :
    ((∃ t ∈ tables, 1024 < t.size) ∨ ∃ t ∈ tables.dropLast, 0 < t.size) ∧
        tables.foldlM nextTable [] = none ∨
      ((∀ t ∈ tables, t.size ≤ 1024) ∧ ∀ t ∈ tables.dropLast, t.size = 0) ∧
        tables.foldlM nextTable [] =
          some (List.replicate ((tables.getLast?.map (·.size)).getD 0) TABLE_NULL) := by
  induction tables with
  | nil =>
    refine .inr ⟨⟨?_, ?_⟩, rfl⟩
    · intro t ht
      cases ht
    · intro t ht
      cases ht
  | cons t tables ih =>
    rw [List.foldlM_cons]
    by_cases hbig : 1024 < t.size
    · left
      refine ⟨.inl ⟨t, List.mem_cons_self .., hbig⟩, ?_⟩
      unfold nextTable
      rw [if_neg (by omega)]
      rfl
    · have hnext : nextTable [] t = some (List.replicate t.size TABLE_NULL) :=
        if_pos ⟨rfl, by omega⟩
      rw [hnext]
      cases tables with
      | nil =>
        right
        refine ⟨⟨?_, ?_⟩, rfl⟩
        · intro t' ht'
          rw [List.mem_singleton.mp ht']
          omega
        · intro t' ht'
          cases ht'
      | cons t2 tables =>
        by_cases h0 : t.size = 0
        · have hempty : List.replicate t.size TABLE_NULL = [] := by rw [h0]; rfl
          simp only [hempty, Option.bind_eq_bind, Option.bind_some]
          rw [List.dropLast_cons_cons, List.getLast?_cons_cons]
          rcases ih with ⟨hbad, hnone⟩ | ⟨⟨hsmall, hzero⟩, hsome⟩
          · left
            refine ⟨hbad.imp ?_ ?_, hnone⟩
            · rintro ⟨t', ht', hlt⟩
              exact ⟨t', List.mem_cons_of_mem _ ht', hlt⟩
            · rintro ⟨t', ht', hlt⟩
              exact ⟨t', List.mem_cons_of_mem _ ht', hlt⟩
          · right
            refine ⟨⟨?_, ?_⟩, hsome⟩
            · intro t' ht'
              rcases List.mem_cons.mp ht' with rfl | ht'
              · omega
              · exact hsmall t' ht'
            · intro t' ht'
              rcases List.mem_cons.mp ht' with rfl | ht'
              · exact h0
              · exact hzero t' ht'
        · left
          refine ⟨.inr ⟨t, List.mem_cons_self .., by omega⟩, ?_⟩
          have hfull : nextTable (List.replicate t.size TABLE_NULL) t2 = none := by
            unfold nextTable
            rw [if_neg]
            rintro ⟨hempty, -⟩
            exact h0 (by simpa using hempty)
          simp only [Option.bind_eq_bind, Option.bind_some]
          rw [List.foldlM_cons, hfull]
          rfl

/-- Placing a segment fails on the first slot out of bounds; a segment inside overwrites its slots. -/
theorem placeElem_result (fis : List Nat) (slot : Nat) (table : List Nat) :
    (fis ≠ [] ∧ table.length < slot + fis.length ∧ ∃ e, placeElem slot fis table = .error e) ∨
      ((fis ≠ [] → slot + fis.length ≤ table.length) ∧
        ∃ table', placeElem slot fis table = .ok table' ∧ table'.length = table.length ∧
          ∀ k < table.length, table'.getD k 0 =
            ((if slot ≤ k then fis[k - slot]? else none).getD (table.getD k 0))) := by
  induction fis generalizing slot table with
  | nil =>
    refine .inr ⟨fun h => absurd rfl h, table, rfl, rfl, fun k _ => ?_⟩
    simp
  | cons fi fis ih =>
    by_cases hout : slot ≥ table.length
    · left
      refine ⟨List.cons_ne_nil _ _, by rw [List.length_cons]; omega, "elem segment out of bounds", ?_⟩
      exact if_pos hout
    · have hstep : placeElem slot (fi :: fis) table = placeElem (slot + 1) fis (table.set slot fi) :=
        if_neg hout
      rw [hstep]
      rcases ih (slot + 1) (table.set slot fi) with ⟨hne, hlen, he⟩ | ⟨hfit, table', hok, hlen, hget⟩
      · rw [List.length_set] at hlen
        exact .inl ⟨List.cons_ne_nil _ _, by rw [List.length_cons]; omega, he⟩
      · rw [List.length_set] at hfit hlen hget
        right
        refine ⟨fun _ => ?_, table', hok, hlen, fun k hk => ?_⟩
        · rw [List.length_cons]
          cases fis with
          | nil =>
            rw [List.length_nil]
            omega
          | cons f fis =>
            have := hfit (List.cons_ne_nil _ _)
            omega
        · have hother (hne : k ≠ slot) : (table.set slot fi).getD k 0 = table.getD k 0 := by
            rw [List.getD_eq_getElem?_getD, List.getElem?_set_ne (Ne.symm hne),
              ← List.getD_eq_getElem?_getD]
          rw [hget k hk]
          rcases Nat.lt_trichotomy k slot with hlt | rfl | hgt
          · rw [if_neg (by omega), if_neg (by omega), hother (by omega)]
          · rw [if_neg (by omega), if_pos le_rfl, Nat.sub_self, List.getElem?_cons_zero,
              List.getD_eq_getElem?_getD, List.getElem?_set_self (by omega)]
            rfl
          · rw [if_pos (by omega), if_pos (by omega), hother (by omega),
              show k - slot = k - (slot + 1) + 1 by omega, List.getElem?_cons_succ]

/-- All segments are placed, in order, or one of them reaches behind the table. -/
theorem placeElems_result (segs : List ElemSegment) (table : List Nat) :
    ((∃ d ∈ segs, d.slots ≠ [] ∧ table.length < d.offset.address + d.slots.length) ∧
        ∃ e, placeElems (segs.map pendingSlots) table = .error e) ∨
      ((∀ d ∈ segs, d.slots ≠ [] → d.offset.address + d.slots.length ≤ table.length) ∧
        ∃ table', placeElems (segs.map pendingSlots) table = .ok table' ∧
          table'.length = table.length ∧
          ∀ k < table.length, table'.getD k 0 =
            (segs.reverse.findSome? (·.slotAt k)).getD (table.getD k 0)) := by
  induction segs generalizing table with
  | nil =>
    right
    refine ⟨?_, table, rfl, rfl, fun k _ => rfl⟩
    intro d hd
    cases hd
  | cons d segs ih =>
    have hstep : placeElems ((d :: segs).map pendingSlots) table =
        (placeElem d.offset.address d.slots table).bind fun table => placeElems (segs.map pendingSlots) table :=
      rfl
    rw [hstep]
    rcases placeElem_result d.slots d.offset.address table with
      ⟨hne, hlt, e, he⟩ | ⟨hfit, table1, hok, hlen, hget⟩
    · left
      refine ⟨⟨d, List.mem_cons_self .., hne, hlt⟩, e, ?_⟩
      rw [he]
      rfl
    · rw [hok]
      rcases ih table1 with ⟨⟨d', hd', hne, hlt⟩, he⟩ | ⟨hall, table', hok', hlen', hget'⟩
      · rw [hlen] at hlt
        exact .inl ⟨⟨d', List.mem_cons_of_mem _ hd', hne, hlt⟩, he⟩
      · rw [hlen] at hall hlen' hget'
        right
        refine ⟨fun d' hd' => ?_, table', hok', hlen', fun k hk => ?_⟩
        · rcases List.mem_cons.mp hd' with rfl | hd'
          · exact hfit
          · exact hall d' hd'
        · rw [hget' k hk, hget k hk, List.reverse_cons, List.findSome?_append]
          cases segs.reverse.findSome? (·.slotAt k) with
          | some x => rfl
          | none =>
            rw [Option.none_or, List.findSome?_singleton]
            rfl

end Translate

open Translate

section Tables

variable {ps : List (Parsed Payload)} {tables : List TableDecl} {segs : List ElemSegment}

/-- What becomes of a module that is acceptable without its tables and element segments. -/
theorem translateWasm_tables (htab : tableItems ps = tables.map fun t => .ok t.entry)
    (hel : elementItems ps = segs.map fun d => .ok d.element) {m0 : HostModule}
    (h : translateWasm (withoutTables ps) = .ok m0) :
    (TablesRefused tables segs ∧ ∃ e, translateWasm ps = .error e) ∨
      (¬ TablesRefused tables segs ∧ ∃ m, translateWasm ps = .ok m ∧
        m.table.length = (tables.getLast?.map (·.size)).getD 0 ∧
        ∀ k < m.table.length, m.table.getD k 0 =
          (segs.reverse.findSome? (·.slotAt k)).getD TABLE_NULL) := by
  obtain ⟨u, hu, hfin⟩ := Verify.bind_eq_ok h
  have hpay := payloads_withTables htab hel [] [] {} u hu
  rw [List.nil_append] at hpay
  have hself : ({ ({} : TState) with table := [], pendingElem := [] } : TState) = {} := rfl
  rw [hself] at hpay
  rcases foldlM_nextTable tables with ⟨hbad, hnone⟩ | ⟨⟨hsmall, hzero⟩, hsome⟩
  · left
    refine ⟨?_, ?_⟩
    · rcases hbad with hbad | hbad
      · exact .inl hbad
      · exact .inr (.inl hbad)
    · rw [hnone] at hpay
      unfold translateWasm
      cases hps : each "parse" payload ps ({} : TState) with
      | error e => exact ⟨e, rfl⟩
      | ok s =>
        rw [hps] at hpay
        cases hpay
  · rw [hsome] at hpay
    generalize hn : (tables.getLast?.map (·.size)).getD 0 = n at hpay ⊢
    have htrans : translateWasm ps = finish { u with
        table := List.replicate n TABLE_NULL, pendingElem := segs.map pendingSlots } := by
      unfold translateWasm
      cases hps : each "parse" payload ps ({} : TState) with
      | error e =>
        rw [hps] at hpay
        cases hpay
      | ok s =>
        rw [hps] at hpay
        cases hpay
        rfl
    obtain ⟨m1, l, tab1, hm1, hl, -, -⟩ := finish_parts.mp hfin
    rw [htrans]
    have hlen : (List.replicate n TABLE_NULL).length = n := List.length_replicate
    rcases placeElems_result segs (List.replicate n TABLE_NULL) with
      ⟨⟨d, hd, hne, hlt⟩, e, he⟩ | ⟨hall, table', hok, hlen', hget⟩
    · left
      refine ⟨.inr (.inr ⟨d, hd, hne, ?_⟩), ?_⟩
      · rw [hn]
        rwa [hlen] at hlt
      · cases hres : finish { u with
            table := List.replicate n TABLE_NULL, pendingElem := segs.map pendingSlots } with
        | error e' => exact ⟨e', rfl⟩
        | ok m =>
          obtain ⟨-, -, tab2, -, -, htab2, -⟩ := finish_parts.mp hres
          have htab3 : placeElems (segs.map pendingSlots) (List.replicate n TABLE_NULL) = .ok tab2 := htab2
          rw [he] at htab3
          cases htab3
    · right
      rw [hlen] at hall hlen' hget
      refine ⟨?_, _, finish_parts.mpr ⟨m1, l, table', hm1, hl, hok, rfl⟩, hlen', fun k hk => ?_⟩
      · rintro (⟨t, ht, hlt⟩ | ⟨t, ht, hlt⟩ | ⟨d, hd, hne, hlt⟩)
        · exact absurd (hsmall t ht) (by omega)
        · exact absurd (hzero t ht) (by omega)
        · rw [hn] at hlt
          have := hall d hd hne
          omega
      · have hk' : k < n := by
          rw [← hlen']
          exact hk
        refine (hget k hk').trans ?_
        rw [List.getD_eq_getElem?_getD, List.getElem?_replicate_of_lt hk']
        rfl

/-- Tables are initialised as instantiation does exactly when they are regular: the bounds are tested
for each slot and not for the segment, a table without slots is not counted, and the initialiser of the
table is not read. -/
theorem table_instantiated_iff (htab : tableItems ps = tables.map fun t => .ok t.entry)
    (hel : elementItems ps = segs.map fun d => .ok d.element)
    (hrest : ∃ m, translateWasm (withoutTables ps) = .ok m) :
    (∀ m, translateWasm ps = .ok m → TableInstantiated tables segs m.table) ↔
      TablesRegular tables segs := by
  obtain ⟨m0, h0⟩ := hrest
  rcases translateWasm_tables htab hel h0 with ⟨hbad, e, he⟩ | ⟨hgood, m, hm, hlen, hget⟩
  · refine ⟨fun _ => .inl hbad, fun _ m hm => ?_⟩
    rw [he] at hm
    cases hm
  · have hfit : ∀ d ∈ segs, d.slots ≠ [] → d.offset.address + d.slots.length ≤ m.table.length := by
      intro d hd hne
      by_contra hgt
      refine hgood (.inr (.inr ⟨d, hd, hne, ?_⟩))
      rw [← hlen]
      omega
    constructor
    · intro hall
      obtain ⟨hone, hbounds, htable⟩ := hall m hm
      right
      refine ⟨hone, fun d hd hempty => ?_, fun t ht k hk huncovered => ?_⟩
      · have hle := hbounds d hd
        rw [hempty] at hle
        exact hle
      · obtain rfl : tables = [t] := by
          cases tables with
          | nil => cases ht
          | cons t' rest =>
            cases rest with
            | nil => rw [List.mem_singleton.mp ht]
            | cons _ _ =>
              simp only [List.length_cons] at hone
              omega
        have hnone : segs.reverse.findSome? (·.slotAt k) = none := by
          rw [List.findSome?_eq_none_iff]
          intro d hd
          exact huncovered d (List.mem_reverse.mp hd)
        have hsize : m.table.length = t.size := hlen
        have hnull := hget k (by omega)
        rw [hnone, htable, List.getD_eq_getElem?_getD, List.getElem?_map,
          List.getElem?_range (show k < tableSize [t] from hk), Option.map_some, Option.getD_some,
          initialSlot, hnone] at hnull
        exact hnull
    · intro hreg m' hm'
      rw [hm] at hm'
      cases hm'
      rcases hreg with hbad | ⟨hone, hempty, hnull⟩
      · exact absurd hbad hgood
      have hsize : m.table.length = tableSize tables := by
        rw [hlen]
        cases tables with
        | nil => rfl
        | cons t rest =>
          cases rest with
          | nil => rfl
          | cons _ _ =>
            simp only [List.length_cons] at hone
            omega
      refine ⟨hone, fun d hd => ?_, ?_⟩
      · by_cases hne : d.slots = []
        · rw [hne]
          exact hempty d hd hne
        · rw [← hsize]
          exact hfit d hd hne
      · apply List.ext_getElem?
        intro k
        rw [List.getElem?_map]
        by_cases hk : k < m.table.length
        · have hval : m.table[k]? = some (m.table.getD k 0) := by
            rw [List.getD_eq_getElem?_getD, List.getElem?_eq_getElem hk]
            rfl
          rw [hval, hget k hk, List.getElem?_range (by omega), Option.map_some, initialSlot]
          cases hcov : segs.reverse.findSome? (·.slotAt k) with
          | some x => rfl
          | none =>
            have huncovered : ∀ d ∈ segs, d.slotAt k = none := fun d hd =>
              List.findSome?_eq_none_iff.mp hcov d (List.mem_reverse.mpr hd)
            cases tables with
            | nil => rfl
            | cons t rest =>
              have hslot := hnull t (List.mem_cons_self ..) k (Nat.lt_of_lt_of_eq hk hsize) huncovered
              exact congrArg some hslot.symm
        · rw [List.getElem?_eq_none (by omega),
            List.getElem?_eq_none (by rw [List.length_range]; omega)]
          rfl

end Tables

/-- The table of a translated module can be read off an evaluation. -/
theorem translated_table {P : List (Parsed Payload)} {T : List Nat}
    (h : (translateWasm P).toOption.map (·.table) = some T) :
    ∃ m, translateWasm P = .ok m ∧ m.table = T := by
  cases hm : translateWasm P with
  | error e =>
    rw [hm] at h
    cases h
  | ok m =>
    rw [hm] at h
    exact ⟨m, rfl, Option.some.inj h⟩

/-- A module with a function, tables and element segments. -/
def tableModule (tables : List TableDecl) (segs : List ElemSegment) : Module where
  types := [[.func ([], [])]]
  funcs := [0]
  tables := tables.map TableDecl.entry
  elems := segs.map ElemSegment.element
  code := [{ locals := [], body := .nil }]

/-- An empty segment behind the end of the table, a second table behind an empty one, and a table whose
initialiser is a function. -/
theorem tables_not_instantiated :
    (∃ m, translateWasm (tableModule [⟨10, none⟩] [⟨false, .const 11, .functions []⟩]).payloads = .ok m ∧
      ¬ TableInstantiated [⟨10, none⟩] [⟨false, .const 11, .functions []⟩] m.table) ∧
    (∃ m, translateWasm (tableModule [⟨0, none⟩, ⟨1, none⟩] []).payloads = .ok m ∧
      ¬ TableInstantiated [⟨0, none⟩, ⟨1, none⟩] [] m.table) ∧
    ∃ m, translateWasm (tableModule [⟨1, some (.func 0)⟩] []).payloads = .ok m ∧
      ¬ TableInstantiated [⟨1, some (.func 0)⟩] [] m.table := by
  refine ⟨?_, ?_, ?_⟩
  · obtain ⟨m, hm, htab⟩ := translated_table (T := List.replicate 10 TABLE_NULL)
      (P := (tableModule [⟨10, none⟩] [⟨false, .const 11, .functions []⟩]).payloads) (by decide +kernel)
    exact ⟨m, hm, fun h => absurd (h.bounds _ (List.mem_singleton.mpr rfl)) (by decide)⟩
  · obtain ⟨m, hm, htab⟩ := translated_table (T := [TABLE_NULL])
      (P := (tableModule [⟨0, none⟩, ⟨1, none⟩] []).payloads) (by decide +kernel)
    exact ⟨m, hm, fun h => absurd h.one (by decide)⟩
  · obtain ⟨m, hm, htab⟩ := translated_table (T := [TABLE_NULL])
      (P := (tableModule [⟨1, some (.func 0)⟩] []).payloads) (by decide +kernel)
    refine ⟨m, hm, fun h => ?_⟩
    have heq := h.table
    rw [htab] at heq
    exact absurd heq (by decide)

/-- A table of two slots with a function in the second one. -/
theorem table_with_function_regular : ∃ m,
    translateWasm (tableModule [⟨2, none⟩] [⟨false, .const 1, .functions [0]⟩]).payloads = .ok m ∧
      TableInstantiated [⟨2, none⟩] [⟨false, .const 1, .functions [0]⟩] m.table := by
  have hbase : ∃ m, translateWasm (withoutTables
      (tableModule [⟨2, none⟩] [⟨false, .const 1, .functions [0]⟩]).payloads) = .ok m := by
    obtain ⟨m, hm, -⟩ := translated_table (T := []) (P := withoutTables
      (tableModule [⟨2, none⟩] [⟨false, .const 1, .functions [0]⟩]).payloads) (by decide +kernel)
    exact ⟨m, hm⟩
  obtain ⟨m, hm, -⟩ := translated_table (T := [TABLE_NULL, 0])
    (P := (tableModule [⟨2, none⟩] [⟨false, .const 1, .functions [0]⟩]).payloads) (by decide +kernel)
  refine ⟨m, hm, (table_instantiated_iff rfl rfl hbase).mpr ?_ m hm⟩
  refine .inr ⟨le_rfl, fun d hd hempty => ?_, fun t ht k _ _ => ?_⟩
  · rw [List.mem_singleton.mp hd] at hempty
    cases hempty
  · rw [List.mem_singleton.mp ht]
    rfl

end CuWasm
