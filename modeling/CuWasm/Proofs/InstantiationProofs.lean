import CuWasm.Instantiation
import CuWasm.Proofs.ImportProofs
import CuWasm.Proofs.LoadedProofs
import CuWasm.Proofs.TableProofs

/-!
# A loaded module is the instance of its module

The loader evaluates the sections of a module as instantiation does: the instance and the store that a
loaded module shows are those of the module. The tables have to be regular, for the loader does not read
their initialisers.
-/

namespace CuWasm

open Wasm Translate

variable {H : Type} {M : Module} {S : Sections} {ps : List (Parsed Payload)} {m m0 : HostModule}
  {host : HostFn H}

/-! ## The table -/

/-- The state without what the table and element sections have left in it. -/
abbrev cleared (s : TState) : TState := { s with table := [], pendingElem := [] }

theorem each_cleared {α : Type} {what : String} {f : TState → α → Except String TState}
    {xs : List (Parsed α)} {s t : TState} (hf : ∀ u a v, f u a = .ok v → cleared v = cleared u)
    (h : each what f xs s = .ok t) : cleared t = cleared s :=
  each_invariant (P := fun v => cleared v = cleared s) (fun u a v hu ha => (hf u a v ha).trans hu) rfl h

theorem payload_cleared {p : Payload} {s t : TState} (h : payload s p = .ok t)
    (hp : (∃ xs, p = .tableSection xs) ∨ ∃ xs, p = .elementSection xs) : cleared t = cleared s := by
  obtain ⟨xs, rfl⟩ | ⟨xs, rfl⟩ := hp
  · exact each_cleared (fun u a v ha => by rw [addTable_ok ha]) h
  · refine each_cleared (fun u a v ha => ?_) h
    obtain ⟨e, rfl⟩ := addElement_ok ha
    rfl

/-- Tables and element segments change nothing else. -/
theorem payloads_withoutTables {s u : TState} (h : each "parse" payload ps s = .ok u) :
    each "parse" payload (withoutTables ps) (cleared s) = .ok (cleared u) := by
  induction ps generalizing s with
  | nil =>
    cases h
    rfl
  | cons p ps ih =>
    cases p with
    | error e => cases h
    | ok p =>
      obtain ⟨t, ht, h⟩ := Verify.bind_eq_ok h
      have hrest := ih h
      by_cases hp : (∃ xs, p = .tableSection xs) ∨ ∃ xs, p = .elementSection xs
      · rw [payload_cleared ht hp] at hrest
        obtain ⟨xs, rfl⟩ | ⟨xs, rfl⟩ := hp <;> exact hrest
      · have htab : ∀ xs, p ≠ .tableSection xs := fun xs hx => hp (.inl ⟨xs, hx⟩)
        have hel : ∀ xs, p ≠ .elementSection xs := fun xs hx => hp (.inr ⟨xs, hx⟩)
        have hwithout : withoutTables (.ok p :: ps) = .ok p :: withoutTables ps := by
          cases p <;> first | rfl | exact absurd rfl (htab _) | exact absurd rfl (hel _)
        rw [hwithout, each_cons_ok, payload_withTables [] [] htab hel s, ht]
        exact hrest

theorem translateWasm_withoutTables (h : translateWasm ps = .ok m) :
    ∃ m', translateWasm (withoutTables ps) = .ok m' := by
  obtain ⟨u, hu, hfin⟩ := Verify.bind_eq_ok h
  have hwithout : each "parse" payload (withoutTables ps) {} = .ok (cleared u) :=
    payloads_withoutTables hu
  obtain ⟨m0, l, table, h0, hl, -, -⟩ := finish_parts.mp hfin
  have hfin' : finish (cleared u) = .ok { m0 with
      memory := l.memory, dataBlob := l.dataBlob, dataOff := l.dataOff, dataLen := l.dataLen,
      dataLive := l.dataLive, table := [] } := finish_parts.mpr ⟨m0, l, [], h0, hl, rfl, rfl⟩
  unfold translateWasm
  rw [hwithout]
  exact ⟨_, hfin'⟩

theorem Wasm.Encodes.tables (h : Encodes M ps) : tableItems ps = M.tables.map .ok := by
  refine (h.flatMap (fun p hp => ?_) fun _ => rfl).trans ?_
  · unfold trivialPayload at hp
    split at hp <;> first | rfl | cases hp
  · unfold Module.header
    split_ifs <;> simp

theorem Wasm.Encodes.elements (h : Encodes M ps) : elementItems ps = M.elems.map .ok := by
  refine (h.flatMap (fun p hp => ?_) fun _ => rfl).trans ?_
  · unfold trivialPayload at hp
    split at hp <;> first | rfl | cases hp
  · unfold Module.header
    split_ifs <;> simp

theorem translated_tables (he : Encodes M ps) (hS : M.Has S) (h : translateWasm ps = .ok m) :
    m.table = (List.range (tableSize S.tables)).map (initialSlot S.tables S.elems) := by
  have htab : tableItems ps = S.tables.map fun t => .ok t.entry := by
    rw [he.tables, hS.tables, List.map_map]
    rfl
  have hel : elementItems ps = S.elems.map fun d => .ok d.element := by
    rw [he.elements, hS.elems, List.map_map]
    rfl
  exact ((table_instantiated_iff htab hel (translateWasm_withoutTables h)).mpr hS.regular m h).table

/-! ## Memory, globals and imports -/

theorem translated_memory {s : TState} (hs : each "parse" payload M.payloads {} = .ok s)
    (hfin : finish s = .ok m) :
    m.memSize = M.initialPages * WASM_PAGE ∧ m.memMax = M.maximumPages * WASM_PAGE := by
  obtain ⟨fp, l, table, -, -, -, -, -, rfl⟩ := finish_eq_ok.mp hfin
  unfold TState.assemble TState.size Module.initialPages Module.maximumPages
  rcases (payloads_init hs).2 with ⟨hnone, hmem⟩ | ⟨mt, hone, hmem, hmin, hmax⟩
  · simp [hnone, hmem]
  · simp [hone, hmem, hmin, hmax]

theorem constOp_slot_toNat (c : ConstOp) : (ConstOp.slot c).toNat = c.value := by
  cases c with
  | i32 x | f32 x =>
    have := x.isLt
    simp only [ConstOp.slot, ConstOp.value, slot32, BitVec.toNat_setWidth]
    omega
  | i64 x | f64 x => rfl

theorem loaded_values (he : Encodes M ps) (hS : M.Has S) (h : loadWasm ps = .ok m) :
    m.globals.map BitVec.toNat = S.globals.map ConstOp.value := by
  have hall : List.Forall₂ (fun e x => globalInit e none = .ok x) (M.globals.map (·.1.initExpr))
      m.globals := List.forall₂_map_left_iff.mpr (loaded_globals he h)
  rw [hS.globals, List.forall₂_map_left_iff] at hall
  generalize S.globals = cs at hall
  generalize m.globals = xs at hall
  induction hall with
  | nil => rfl
  | cons hx _ ih =>
    cases hx
    rw [List.map_cons, List.map_cons, ih, constOp_slot_toNat]

theorem loaded_hostId (he : Encodes M ps) (h : loadWasm ps = .ok m) (fi : Nat) :
    m.hostFnId.getD fi 0 = M.hostId fi := by
  obtain ⟨s0, sN, hr, -, hids⟩ := Module.loaded_read he h
  obtain ⟨s, hs, hcoded, -⟩ := hr.before_le (k := M.code.length)
  rw [hr.before] at hs
  cases hs
  have hall := hr.headed.hostFnIds
  rw [hids, hcoded.hostFnIds]
  unfold Module.hostId
  generalize M.imports = imps at hall
  generalize s0.hostFnIds = ids at hall
  induction hall generalizing fi with
  | nil => rfl
  | cons hid _ ih =>
    cases fi with
    | zero =>
      simp only [List.getD_cons_zero, List.getElem?_cons_zero, Option.bind_some, hid]
      rfl
    | succ fi => simpa only [List.getD_cons_succ, List.getElem?_cons_succ] using ih fi

/-! ## The data segments -/

theorem LaidOut.dropped {segs : List DataSegment} {l : Layout} (h : LaidOut segs l) (d : Nat) :
    decide (l.dataLive.getD d 0 = 0) = (segs[d]?.map fun seg => !seg.isPassive).getD true := by
  cases hd : segs[d]? with
  | none =>
    have hlen : l.dataLive.length ≤ d := h.dataLive ▸ List.getElem?_eq_none_iff.mp hd
    rw [List.getD_eq_getElem?_getD, List.getElem?_eq_none hlen]
    rfl
  | some seg =>
    obtain ⟨off, -, -, -, -, hlive⟩ := h.segment d seg hd
    rw [List.getD_eq_getElem?_getD, hlive]
    cases hp : seg.isPassive <;> simp [hp]

/-! ## Instance and store -/

/-- The instance that a loaded module shows is that of the module. -/
theorem Translates.toInstance_eq (h : Translates M ps S.datas m) (hS : M.Has S) :
    M.toInstance m (S.datas.map DataSegment.bytes) host = M.instantiate S host := by
  obtain ⟨m0, hm, hv⟩ := h.loads
  obtain ⟨-, fs, rfl, -, -⟩ := verifyCuop_accepted hv
  obtain ⟨m1, hm1, heq⟩ := Verify.bind_eq_ok hm
  cases heq
  obtain ⟨s, hs, hfin⟩ := Verify.bind_eq_ok hm1
  rw [each_encodes h.encodes] at hs
  have hids := loaded_hostId h.encodes hm
  unfold Module.toInstance Module.instantiate
  congr 1
  · show m1.table.map _ = _
    rw [translated_tables h.encodes hS hm1, List.map_map]
    rfl
  · show m1.memMax / WASM_PAGE = _
    rw [(translated_memory hs hfin).2, Nat.mul_div_cancel _ (by decide)]
  · rw [List.map_map]
    rfl
  · funext x fi
    exact congrArg (fun id => hostAnswer host id x) (hids fi)

/-- The store that a loaded module shows is the one that the module starts with. -/
theorem Translates.toStore_eq (h : Translates M ps S.datas m) (hS : M.Has S) (x : H) :
    m.toStore x = M.initialStore S x := by
  obtain ⟨m0, hm, hv⟩ := h.loads
  obtain ⟨-, fs, rfl, -, -⟩ := verifyCuop_accepted hv
  have hvalues := loaded_values h.encodes hS hm
  obtain ⟨m1, hm1, heq⟩ := Verify.bind_eq_ok hm
  cases heq
  have hout := translated_layout h.data hm1
  obtain ⟨s, hs, hfin⟩ := Verify.bind_eq_ok hm1
  rw [each_encodes h.encodes] at hs
  unfold HostModule.toStore Module.initialStore
  congr 1
  · funext c
    exact congrArg BitVec.toNat (hout.memory c)
  · exact (translated_memory hs hfin).1
  · funext d
    exact hout.dropped d

/-- A loaded module realizes the store that its module starts with. -/
theorem Translates.realizes_initial (h : Translates M ps S.datas m) (hS : M.Has S) (x : H) :
    Realizes m x (M.initialStore S x) := h.toStore_eq hS x ▸ h.realizes x

end CuWasm
