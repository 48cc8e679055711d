import Parquex.BatchFilter

/-!
# What filtered batches read

A row taken out of an array reads as it did there, at every depth of nesting, so
a filtered batch has exactly the kept rows.
-/

namespace Parquex

/-! ## Lengths -/

theorem Slots.length_take (rows : List Nat) (slots : Slots) : (slots.take rows).length = rows.length := by
  cases slots <;> simp [Slots.take, Slots.length]

theorem length_takeArray (rows : List Nat) (array : ArrowArray) : (takeArray rows array).length = rows.length := by
  cases array <;> simp [takeArray, ArrowArray.length, Slots.length_take]

theorem takeArrays_eq_map (rows : List Nat) (arrays : List ArrowArray) :
    takeArrays rows arrays = arrays.map (takeArray rows) := by
  induction arrays with
  | nil => simp [takeArrays]
  | cons array arrays ih => simp [takeArrays, ih]

theorem AlignedAll.forall {length : Nat} {arrays : List ArrowArray} (h : AlignedAll length arrays) :
    ∀ array ∈ arrays, array.length = length ∧ array.Aligned := by
  induction arrays with
  | nil => simp
  | cons array arrays ih =>
    simp only [AlignedAll] at h
    simp only [List.mem_cons, forall_eq_or_imp]
    exact ⟨h.1, ih h.2⟩

/-! ## Spans of child slots -/

section
variable {span : Nat → List Nat} {rows : List Nat} {j : Nat}

/-- The running sum before a place. -/
theorem offsetsOf_getD (lengths : List Nat) (hj : j ≤ lengths.length) :
    (offsetsOf lengths).getD j 0 = (lengths.take j).sum := by
  have hlt : j < (lengths.scanl (· + ·) 0).length := by simp; omega
  simp [offsetsOf, List.getD_eq_getElem?_getD, List.getElem?_eq_getElem hlt, List.getElem_scanl,
    List.sum_eq_foldl]

/-- The spans stand one after another in their concatenation. -/
theorem getD_flatMap_span (hj : j < rows.length) {k : Nat} (hk : k < (span rows[j]).length) :
    (rows.flatMap span)[((rows.map fun row => (span row).length).take j).sum + k]? = some ((span rows[j])[k]) := by
  induction rows generalizing j with
  | nil => exact absurd hj (by simp)
  | cons row rows ih =>
    cases j with
    | zero =>
      simp only [List.getElem_cons_zero] at hk ⊢
      simp [List.getElem?_append_left hk, List.getElem?_eq_getElem hk]
    | succ j =>
      simp only [List.getElem_cons_succ] at hk ⊢
      simp only [List.map_cons, List.take_succ_cons, List.sum_cons, List.flatMap_cons]
      rw [List.getElem?_append_right (by omega), show (span row).length + _ + k - (span row).length =
        ((rows.map fun row => (span row).length).take j).sum + k by omega]
      exact ih (by simpa using hj) hk

end

/-! ## Reading a taken row -/

theorem encodeAt_take {α : Type} {values : List (Option α)} {rows : List Nat} {j : Nat} (hj : j < rows.length)
    (hrow : rows[j] < values.length) (encode : α → Except (Stop NativeFailure) Term) :
    encodeAt (rows.map fun row => values.getD row none) j encode = encodeAt values rows[j] encode := by
  simp [encodeAt, List.getElem?_eq_getElem hj, List.getElem?_eq_getElem hrow]

theorem encodeSlots_take {storage : Storage} {slots : Slots} {rows : List Nat} {j : Nat} (hj : j < rows.length)
    (hrow : rows[j] < slots.length) : encodeSlots storage (slots.take rows) j = encodeSlots storage slots rows[j] := by
  cases slots with
  | nulls length => cases storage <;> simp_all [Slots.take, encodeSlots, Slots.length]
  | booleans values => cases storage <;> simp only [Slots.take, encodeSlots, encodeAt_take hj hrow]
  | integers values => cases storage <;> simp only [Slots.take, encodeSlots, encodeAt_take hj hrow]
  | floats values => cases storage <;> simp only [Slots.take, encodeSlots, encodeAt_take hj hrow]
  | strings values => cases storage <;> simp only [Slots.take, encodeSlots, encodeAt_take hj hrow]
  | binaries values => cases storage <;> simp only [Slots.take, encodeSlots, encodeAt_take hj hrow]

theorem encodeItems_congr {encode encode' : Nat → Except (Stop NativeFailure) Term} {start start' count : Nat}
    (h : ∀ k < count, encode (start + k) = encode' (start' + k)) :
    encodeItems encode start (start + count) = encodeItems encode' start' (start' + count) := by
  have hmap : (List.range' start count).mapM encode = (List.range' start' count).mapM encode' := by
    induction count generalizing start start' with
    | zero => rfl
    | succ count ih =>
      have hhead := h 0 (by omega)
      have htail : (List.range' (start + 1) count).mapM encode = (List.range' (start' + 1) count).mapM encode' := by
        apply ih
        intro k hk
        have hk' := h (k + 1) (by omega)
        rw [show start + 1 + k = start + (k + 1) by omega, show start' + 1 + k = start' + (k + 1) by omega]
        exact hk'
      simp only [Nat.add_zero] at hhead
      simp only [List.range'_succ, List.mapM_cons, hhead, htail]
  simp only [encodeItems, Nat.add_sub_cancel_left, hmap]

theorem encodeValid_take {valid : List Bool} {rows : List Nat} {j : Nat} (hj : j < rows.length)
    (hrow : rows[j] < valid.length) {encode encode' : Except (Stop NativeFailure) Term} (h : encode = encode') :
    encodeValid (rows.map fun row => valid.getD row false) j encode = encodeValid valid rows[j] encode' := by
  simp [encodeValid, List.getElem?_eq_getElem hj, List.getElem?_eq_getElem hrow, h]

/-- Reading a span of the concatenated spans reads the span itself. -/
theorem encodeItems_span {span : Nat → List Nat} {rows : List Nat} {j : Nat} (hj : j < rows.length)
    {encode encode' : Nat → Except (Stop NativeFailure) Term} {start count : Nat}
    (hspan : span rows[j] = List.range' start count)
    (h : ∀ p q, (rows.flatMap span)[p]? = some q → encode p = encode' q) :
    encodeItems encode (((rows.map fun row => (span row).length).take j).sum)
      (((rows.map fun row => (span row).length).take j).sum + count) = encodeItems encode' start (start + count) := by
  apply encodeItems_congr
  intro k hk
  apply h
  have hlt : k < (span rows[j]).length := by rw [hspan, List.length_range']; exact hk
  rw [getD_flatMap_span hj hlt]
  simp [hspan]

theorem sum_take_succ (lengths : List Nat) {j : Nat} (hj : j < lengths.length) :
    (lengths.take (j + 1)).sum = (lengths.take j).sum + lengths[j] := by
  rw [List.take_succ_eq_append_getElem hj, List.sum_append]
  simp

theorem encodeItems_stop (encode : Nat → Except (Stop NativeFailure) Term) (start stop : Nat) :
    encodeItems encode start stop = encodeItems encode start (start + (stop - start)) := by
  simp only [encodeItems, Nat.add_sub_cancel_left]

/-- The child slots of listed rows are slots of the child array. -/
theorem forall_flatMap_lt {span : Nat → List Nat} {rows : List Nat} {size : Nat}
    (h : ∀ row ∈ rows, ∀ slot ∈ span row, slot < size) : ∀ slot ∈ rows.flatMap span, slot < size := by
  intro slot hslot
  obtain ⟨row, hrow, hmem⟩ := List.mem_flatMap.mp hslot
  exact h row hrow slot hmem

mutual
theorem encodeValue_takeArray : ∀ (array : ArrowArray) (rows : List Nat), array.Aligned →
    (∀ row ∈ rows, row < array.length) → ∀ j (hj : j < rows.length),
    encodeValue (takeArray rows array) j = encodeValue array rows[j]
  | .flat type slots, rows, _, hrows, j, hj => by
    simp only [takeArray, encodeValue]
    exact encodeSlots_take hj (hrows _ (List.getElem_mem hj))
  | .list large item offsets valid values, rows, h, hrows, j, hj => by
    simp only [ArrowArray.Aligned] at h
    simp only [takeArray, encodeValue]
    have hlt : ∀ row ∈ rows, ∀ slot ∈ listSpan offsets row, slot < values.length := by
      intro row hrow slot hslot
      have hstop := h.1 row (hrows row hrow)
      simp only [listSpan, List.mem_range'_1] at hslot
      omega
    apply encodeValid_take hj (hrows _ (List.getElem_mem hj))
    have hlen : (rows.map fun row => (listSpan offsets row).length).length = rows.length := by simp
    rw [offsetsOf_getD _ (by omega), offsetsOf_getD _ (by omega), sum_take_succ _ (by omega),
      encodeItems_stop _ (offsets.getD rows[j] 0)]
    have hcount : (rows.map fun row => (listSpan offsets row).length)[j] =
        offsets.getD (rows[j] + 1) 0 - offsets.getD rows[j] 0 := by simp [listSpan]
    rw [hcount]
    apply encodeItems_span hj rfl
    intro p q hq
    obtain ⟨hp, hget⟩ := List.getElem?_eq_some_iff.mp hq
    rw [encodeValue_takeArray values _ h.2 (forall_flatMap_lt hlt) p hp, hget]
  | .fixedSizeList item listLength valid values, rows, h, hrows, j, hj => by
    simp only [ArrowArray.Aligned] at h
    simp only [takeArray, encodeValue]
    have hlt : ∀ row ∈ rows, ∀ slot ∈ fixedSpan listLength row, slot < values.length := by
      intro row hrow slot hslot
      have hstop : (row + 1) * listLength.toNat ≤ valid.length * listLength.toNat :=
        Nat.mul_le_mul_right _ (hrows row hrow)
      simp only [fixedSpan, List.mem_range'_1] at hslot
      rw [Nat.add_mul, Nat.one_mul] at hstop
      have hsize := h.1
      omega
    apply encodeValid_take hj (hrows _ (List.getElem_mem hj))
    have hbefore : ((rows.map fun row => (fixedSpan listLength row).length).take j).sum = j * listLength.toNat := by
      simp [fixedSpan, List.take_replicate, Nat.min_eq_left hj.le]
    rw [Nat.add_mul, Nat.one_mul, ← hbefore, Nat.add_mul, Nat.one_mul]
    apply encodeItems_span hj rfl
    intro p q hq
    obtain ⟨hp, hget⟩ := List.getElem?_eq_some_iff.mp hq
    rw [encodeValue_takeArray values _ h.2 (forall_flatMap_lt hlt) p hp, hget]
  | .struct fields valid columns, rows, h, hrows, j, hj => by
    simp only [ArrowArray.Aligned] at h
    simp only [takeArray, encodeValue]
    apply encodeValid_take hj (hrows _ (List.getElem_mem hj))
    rw [encodeColumns_takeArrays columns rows valid.length h hrows j hj]

theorem encodeColumns_takeArrays : ∀ (columns : List ArrowArray) (rows : List Nat) (length : Nat),
    AlignedAll length columns → (∀ row ∈ rows, row < length) → ∀ j (hj : j < rows.length) (fields : List Field)
    (entries : List (Term × Term)),
    encodeColumns fields (takeArrays rows columns) j entries = encodeColumns fields columns rows[j] entries
  | [], rows, length, _, _, j, hj, fields, entries => by cases fields <;> simp [takeArrays, encodeColumns]
  | column :: columns, rows, length, h, hrows, j, hj, fields, entries => by
    simp only [AlignedAll] at h
    cases fields with
    | nil => simp [takeArrays, encodeColumns]
    | cons field fields =>
      have hcolumn : ∀ row ∈ rows, row < column.length := by rw [h.1.1]; exact hrows
      simp only [takeArrays, encodeColumns, encodeValue_takeArray column rows h.1.2 hcolumn j hj,
        encodeColumns_takeArrays columns rows length h.2 hrows j hj]
end

end Parquex
