import Parquex.NestedValuesSound
import Parquex.NativeSchema

/-!
# Nested values come back

What a builder holds is what the reader encodes, and its children are in step. A
column is built exactly when its terms conform to their type, and comes back in
their canonical form.
-/

namespace Parquex

/-! ## Empty builders -/

theorem Storage.length_empty (storage : Storage) : storage.empty.length = 0 := by
  cases storage <;> rfl

mutual
theorem makeBuilder_holds : ∀ dataType : DataType, Holds dataType (makeBuilder dataType) []
  | .scalar type => ⟨rfl, type.storage.fills_empty, type.storage.length_empty, fun index term h => by cases h⟩
  | .list (.mk _ dataType _) | .largeList (.mk _ dataType _) =>
    ⟨[], rfl, rfl, rfl, fun index hi => by cases hi; rfl, makeBuilder_holds dataType⟩
  | .fixedSizeList (.mk _ dataType _) _ => ⟨rfl, [], rfl, rfl, nofun, makeBuilder_holds dataType⟩
  | .struct fields => ⟨rfl, [], rfl, rfl, makeBuilders_hold fields⟩

theorem makeBuilders_hold : ∀ fields : List Field, HoldsColumns fields (makeBuilders fields) []
  | [] => trivial
  | .mk _ dataType _ :: fields => ⟨makeBuilder_holds dataType, makeBuilders_hold fields⟩
end

/-! ## Groups in a row -/

theorem getElem?_flatten {α : Type} {lists : List (List α)} {index : Nat} {items : List α}
    (h : lists[index]? = some items) (k : Nat) (hk : k < items.length) :
    lists.flatten[(lists.take index).flatten.length + k]? = items[k]? := by
  obtain ⟨hlt, rfl⟩ := List.getElem?_eq_some_iff.mp h
  have hsplit : lists = lists.take index ++ lists[index] :: lists.drop (index + 1) := by
    rw [List.getElem_cons_drop, List.take_append_drop]
  have hflat : lists.flatten =
      (lists.take index).flatten ++ (lists[index] ++ (lists.drop (index + 1)).flatten) := by
    conv_lhs => rw [hsplit]
    rw [List.flatten_append, List.flatten_cons]
  rw [hflat, List.getElem?_append_right (by omega), Nat.add_sub_cancel_left, List.getElem?_append_left hk]

theorem length_flatten_take_succ {α : Type} {lists : List (List α)} {index : Nat} {items : List α}
    (h : lists[index]? = some items) :
    (lists.take (index + 1)).flatten.length = (lists.take index).flatten.length + items.length := by
  rw [List.take_add_one, h, Option.toList_some, List.flatten_append, List.length_append, List.flatten_singleton]

theorem length_flatten_take {α : Type} {lists : List (List α)} {length : Nat}
    (h : ∀ items ∈ lists, items.length = length) {index : Nat} (hi : index ≤ lists.length) :
    (lists.take index).flatten.length = index * length := by
  induction index with
  | zero => simp
  | succ index ih =>
    have hget : lists[index]? = some lists[index] := List.getElem?_eq_getElem (by omega)
    rw [length_flatten_take_succ hget, ih (by omega), h _ (List.getElem_mem _), Nat.add_mul, Nat.one_mul]

/-- The items of a group are encoded from where the groups before it end. -/
theorem encodeItems_group {encode : Nat → Except (Stop NativeFailure) Term} {lists : List (List Term)}
    (hencode : ∀ index term, lists.flatten[index]? = some term → encode index = .ok term)
    {index : Nat} {items : List Term} (h : lists[index]? = some items) :
    encodeItems encode (lists.take index).flatten.length (lists.take (index + 1)).flatten.length =
      .ok (.list items) := by
  unfold encodeItems
  rw [length_flatten_take_succ h, Nat.add_sub_cancel_left]
  refine except_map_eq_ok.mpr ⟨items, mapM_eq_ok.mpr ?_, rfl⟩
  rw [List.forall₂_iff_get]
  refine ⟨List.length_range', fun k hk hk' => ?_⟩
  apply hencode
  simp only [List.get_eq_getElem, List.getElem_range', Nat.one_mul]
  rw [getElem?_flatten h k hk', List.getElem?_eq_getElem hk']

/-! ## What is encoded -/

theorem encodeValid_group {groups : List (Option (List Term))} {index : Nat} {term : Term}
    (h : (groups.map ofGroup)[index]? = some term) {encode : Except (Stop NativeFailure) Term}
    (hencode : ∀ items, groups[index]? = some (some items) → encode = .ok (.list items)) :
    encodeValid (groups.map Option.isSome) index encode = .ok term := by
  rw [List.getElem?_map] at h
  obtain ⟨group, hgroup, rfl⟩ := Option.map_eq_some_iff.mp h
  unfold encodeValid
  rw [List.getElem?_map, hgroup]
  cases group with
  | none => rfl
  | some items => exact hencode items hgroup

theorem GroupsHold.encode {offsets : List Nat} {valid : List Bool} {terms : List Term} {values : List Term → Prop}
    (h : GroupsHold offsets valid terms values) {encode : Nat → Except (Stop NativeFailure) Term}
    (hencode : ∀ held, values held → ∀ index term, held[index]? = some term → encode index = .ok term)
    {index : Nat} {term : Term} (ht : terms[index]? = some term) :
    encodeValid valid index (encodeItems encode (offsets.getD index 0) (offsets.getD (index + 1) 0)) = .ok term := by
  obtain ⟨groups, rfl, rfl, -, hstarts, hheld⟩ := h
  refine encodeValid_group ht fun items hitems => ?_
  have hlt := (List.getElem?_eq_some_iff.mp hitems).1
  rw [hstarts index (by omega), hstarts (index + 1) (by omega), List.map_take, List.map_take]
  exact encodeItems_group (hencode _ hheld) (by rw [List.getElem?_map, hitems]; rfl)

theorem padded_length {groups : List (Option (List Term))} {length : Nat}
    (h : ∀ items, some items ∈ groups → items.length = length) :
    ∀ padded ∈ groups.map (·.getD (List.replicate length .nil)), padded.length = length := by
  intro padded hp
  obtain ⟨group, hgroup, rfl⟩ := List.mem_map.mp hp
  cases group with
  | none => exact List.length_replicate
  | some items => exact h items hgroup

theorem FixedGroupsHold.encode {length : Nat} {valid : List Bool} {terms : List Term} {values : List Term → Prop}
    (h : FixedGroupsHold length valid terms values) {encode : Nat → Except (Stop NativeFailure) Term}
    (hencode : ∀ held, values held → ∀ index term, held[index]? = some term → encode index = .ok term)
    {index : Nat} {term : Term} (ht : terms[index]? = some term) :
    encodeValid valid index (encodeItems encode (index * length) ((index + 1) * length)) = .ok term := by
  obtain ⟨groups, rfl, rfl, hlengths, hheld⟩ := h
  refine encodeValid_group ht fun items hitems => ?_
  have hlt := (List.getElem?_eq_some_iff.mp hitems).1
  have hall := padded_length hlengths
  rw [← length_flatten_take hall (by rw [List.length_map]; omega),
    ← length_flatten_take hall (by rw [List.length_map]; omega)]
  exact encodeItems_group (hencode _ hheld) (by rw [List.getElem?_map, hitems]; rfl)

mutual
/-- The reader encodes the terms that an array holds. -/
theorem encodeValue_holds : ∀ (dataType : DataType) {array : ArrowArray} {terms : List Term},
    Holds dataType array terms → ∀ index term, terms[index]? = some term → encodeValue array index = .ok term
  | .scalar type, .flat type' slots, terms, ⟨htype, _, hflat⟩, index, term, ht => by
    rw [encodeValue, htype]
    exact hflat.encode index term ht
  | .list (.mk _ dataType _), .list false item offsets valid values, terms, h, index, term, ht => by
    rw [encodeValue]
    exact GroupsHold.encode h (fun held hv => encodeValue_holds dataType hv) ht
  | .largeList (.mk _ dataType _), .list true item offsets valid values, terms, h, index, term, ht => by
    rw [encodeValue]
    exact GroupsHold.encode h (fun held hv => encodeValue_holds dataType hv) ht
  | .fixedSizeList (.mk _ dataType _) length, .fixedSizeList item listLength valid values, terms, ⟨hlength, hg⟩,
    index, term, ht => by
    rw [encodeValue, hlength]
    exact FixedGroupsHold.encode hg (fun held hv => encodeValue_holds dataType hv) ht
  | .struct fields, .struct fields' valid columns, terms, ⟨hfields, rows, hterms, hvalid, hcolumns⟩, index, term,
    ht => by
    rw [hterms, List.getElem?_map] at ht
    obtain ⟨row, hrow, rfl⟩ := Option.map_eq_some_iff.mp ht
    rw [encodeValue, hvalid, hfields]
    unfold encodeValid
    rw [List.getElem?_map, hrow]
    cases row with
    | none => rfl
    | some row =>
      have hget : (rows.map (·.getD []))[index]? = some row := by rw [List.getElem?_map, hrow]; rfl
      exact except_map_eq_ok.mpr ⟨_, encodeColumns_holds fields hcolumns index row hget [], rfl⟩

theorem encodeColumns_holds : ∀ (fields : List Field) {columns : List ArrowArray} {rows : List (List Term)},
    HoldsColumns fields columns rows → ∀ index row, rows[index]? = some row → ∀ entries,
      encodeColumns fields columns index entries = .ok (putFields fields row entries)
  | [], [], rows, _, index, row, _, entries => rfl
  | .mk name dataType _ :: fields, column :: columns, rows, ⟨hcolumn, hcolumns⟩, index, row, hrow, entries => by
    rw [encodeColumns, putFields]
    have hhead := encodeValue_holds dataType hcolumn index (row.headD .nil) (by rw [List.getElem?_map, hrow]; rfl)
    have htail := encodeColumns_holds fields hcolumns index row.tail (by rw [List.getElem?_map, hrow]; rfl)
    exact except_bind_eq_ok.mpr ⟨_, hhead, htail _⟩
end

/-! ## In step -/

mutual
theorem Holds.inStep : ∀ (dataType : DataType) {array : ArrowArray} {terms : List Term},
    Holds dataType array terms → array.InStep
  | .scalar type, .flat type' slots, terms, _ => by
    rw [ArrowArray.InStep]
    trivial
  | .list (.mk _ dataType _), .list false item offsets valid values, terms, ⟨_, _, _, _, _, hheld⟩ => by
    rw [ArrowArray.InStep]
    exact Holds.inStep dataType hheld
  | .largeList (.mk _ dataType _), .list true item offsets valid values, terms, ⟨_, _, _, _, _, hheld⟩ => by
    rw [ArrowArray.InStep]
    exact Holds.inStep dataType hheld
  | .fixedSizeList (.mk _ dataType _) length, .fixedSizeList item listLength valid values, terms,
    ⟨hlength, groups, _, hvalid, hlengths, hheld⟩ => by
    rw [ArrowArray.InStep]
    refine ⟨?_, Holds.inStep dataType hheld⟩
    have hcount := length_flatten_take (padded_length hlengths) (le_refl _)
    rw [List.take_length, List.length_map] at hcount
    rw [hheld.length, hcount, hlength, hvalid, List.length_map, Nat.mul_comm]
  | .struct fields, .struct fields' valid columns, terms, ⟨hfields, rows, _, hvalid, hcolumns⟩ => by
    have hstep := HoldsColumns.inStep fields hcolumns
    rw [List.length_map] at hstep
    rw [ArrowArray.InStep, hfields, hvalid, List.length_map]
    exact hstep

theorem HoldsColumns.inStep : ∀ (fields : List Field) {columns : List ArrowArray} {rows : List (List Term)},
    HoldsColumns fields columns rows → columns.length = fields.length ∧ InStepColumns rows.length columns
  | [], [], rows, _ => ⟨rfl, by rw [InStepColumns]; trivial⟩
  | .mk name dataType _ :: fields, column :: columns, rows, ⟨hcolumn, hcolumns⟩ => by
    have hlength := hcolumn.length
    have htail := HoldsColumns.inStep fields hcolumns
    rw [List.length_map] at hlength htail
    refine ⟨by rw [List.length_cons, List.length_cons, htail.1], ?_⟩
    rw [InStepColumns]
    exact ⟨⟨hlength, Holds.inStep dataType hcolumn⟩, htail.2⟩
end

/-! ## Accepted types -/

theorem Descriptor.arrowFlat_supported {d : Descriptor} {type : ScalarType} (h : d.arrowFlat = .ok type) :
    type.storage.supported = true := by
  unfold Descriptor.arrowFlat at h
  split at h <;> cases h <;> rfl

mutual
/-- Every type that the writer makes of a descriptor has builders. -/
theorem arrowDataType_supported : ∀ (native : NativeDataType) {dataType : DataType},
    native.arrowDataType = .ok dataType → dataType.supported = true
  | .mk d children, dataType, h => by
    unfold NativeDataType.arrowDataType at h
    split at h
    · next child _ _ =>
      obtain ⟨⟨name, dataType, nullable⟩, hfield, h⟩ := except_bind_eq_ok.mp h
      cases h
      exact arrowField_supported child hfield
    · next child _ _ =>
      obtain ⟨⟨name, dataType, nullable⟩, hfield, h⟩ := except_bind_eq_ok.mp h
      cases h
      exact arrowField_supported child hfield
    · next child _ _ =>
      obtain ⟨⟨name, dataType, nullable⟩, hfield, h⟩ := except_bind_eq_ok.mp h
      split at h
      · cases h
        exact arrowField_supported child hfield
      · cases h
    · obtain ⟨fields, hfields, h⟩ := except_bind_eq_ok.mp h
      cases h
      exact arrowChildren_supported _ hfields
    · obtain ⟨type, htype, h⟩ := except_bind_eq_ok.mp h
      cases h
      exact Descriptor.arrowFlat_supported htype

theorem arrowField_supported : ∀ (native : NativeField) {field : Field},
    native.arrowField = .ok field → field.dataType.supported = true
  | .mk name native nullable, field, h => by
    obtain ⟨dataType, htype, h⟩ := except_bind_eq_ok.mp h
    cases h
    exact arrowDataType_supported native htype

theorem arrowChildren_supported : ∀ (children : List NativeField) {fields : List Field},
    arrowChildren children = .ok fields → supportedFields fields = true
  | [], fields, h => by
    cases h
    rfl
  | child :: children, fields, h => by
    obtain ⟨field, hfield, h⟩ := except_bind_eq_ok.mp h
    obtain ⟨rest, hrest, h⟩ := except_bind_eq_ok.mp h
    cases h
    have hhead := arrowField_supported child hfield
    obtain ⟨name, dataType, nullable⟩ := field
    rw [supportedFields, Bool.and_eq_true]
    exact ⟨hhead, arrowChildren_supported children hrest⟩
end

/-! ## Round trip -/

theorem buildArray_accepted {dataType : DataType} (hs : dataType.supported = true) (hr : dataType.regular = true)
    (name : String) {nullable : Bool} {terms : List Term} (h : terms.all (conforms dataType nullable) = true) :
    ∃ array, buildArray (.mk name dataType nullable) terms = .ok array ∧
      Holds dataType array (terms.map (canonical dataType)) := by
  obtain ⟨array, harray, hheld⟩ :=
    (appendValue_appends dataType nullable hs hr).items_accepted (makeBuilder_holds dataType) h
  exact ⟨array, harray, hheld⟩

end Parquex
