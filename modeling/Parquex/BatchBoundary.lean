import Parquex.InputSound
import Parquex.NestedRoundTrip
import Parquex.ProjectionSound

/-!
# Batches across the native boundary

A batch whose values have the types of its columns becomes a record batch that
encodes them, and a record batch comes back as the batch of what it encodes.
Batches are told by their columns: those of one list of rows expand to it.
-/

namespace Parquex

/-! ## What arrays encode -/

/-- What the reader encodes of an array. -/
def ArrowArray.terms (array : ArrowArray) : List (Except (Stop NativeFailure) Term) :=
  (List.range array.length).map (encodeValue array)

theorem encodeArray_eq_ok {array : ArrowArray} {items : List Term} (h : array.terms = items.map .ok) :
    encodeArray array = .ok (.list items) := by
  unfold encodeArray encodeItems
  refine except_map_eq_ok.mpr ⟨items, mapM_eq_ok.mpr ?_, rfl⟩
  rw [Nat.sub_zero, ← List.range_eq_range', ← List.forall₂_map_right_iff (f := Except.ok), ← h]
  unfold ArrowArray.terms
  rw [List.forall₂_map_right_iff, List.forall₂_same]
  exact fun _ _ => rfl

theorem length_of_terms {array : ArrowArray} {items : List Term} (h : array.terms = items.map .ok) :
    array.length = items.length := by
  have hlength := congrArg List.length h
  rwa [ArrowArray.terms, List.length_map, List.length_map, List.length_range] at hlength

theorem Holds.terms_eq {dataType : DataType} {array : ArrowArray} {items : List Term}
    (h : Holds dataType array items) : array.terms = items.map .ok := by
  unfold ArrowArray.terms
  apply List.ext_getElem
  · rw [List.length_map, List.length_map, List.length_range, h.length]
  · intro index hi hi'
    rw [List.length_map] at hi'
    rw [List.getElem_map, List.getElem_map, List.getElem_range]
    exact encodeValue_holds dataType h index _ (List.getElem?_eq_getElem hi')

/-- What the reader encodes of the column of a name. -/
def RecordBatch.terms (record : RecordBatch) (name : String) : List (Except (Stop NativeFailure) Term) :=
  (record.columnNamed name).elim [] ArrowArray.terms

theorem columnNamed_cons {fields : List Field} {columns : List ArrowArray} {field : Field} {array : ArrowArray}
    {numRows : Nat} (name : String) :
    RecordBatch.columnNamed { schema := field :: fields, columns := array :: columns, numRows } name =
      if field.name = name then some array
      else RecordBatch.columnNamed { schema := fields, columns, numRows } name := by
  unfold RecordBatch.columnNamed
  by_cases hn : field.name = name <;> simp [hn]

/-- Columns in the order of the fields are the columns of their names. -/
theorem columns_named (R : String → ArrowArray → Prop) (numRows : Nat) {fields : List Field}
    {columns : List ArrowArray} (hnodup : (fields.map Field.name).Nodup)
    (h : List.Forall₂ (fun field array => R (Field.name field) array) fields columns) {name : String}
    (hname : name ∈ fields.map Field.name) :
    ∃ array, RecordBatch.columnNamed { schema := fields, columns, numRows } name = some array ∧ R name array := by
  induction h with
  | nil => cases hname
  | @cons field array fields columns hhead htail ih =>
    rw [List.map_cons, List.nodup_cons] at hnodup
    rw [columnNamed_cons]
    by_cases hn : field.name = name
    · rw [if_pos hn]
      exact ⟨array, rfl, hn ▸ hhead⟩
    · rw [if_neg hn]
      exact ih hnodup.2 ((List.mem_cons.mp hname).resolve_left (Ne.symm hn))

theorem forall₂_columnNamed (numRows : Nat) {fields : List Field} {columns : List ArrowArray}
    (hnodup : (fields.map Field.name).Nodup) (hlength : fields.length = columns.length) :
    List.Forall₂ (fun field array => RecordBatch.columnNamed { schema := fields, columns, numRows } (Field.name field) =
      some array) fields columns := by
  induction fields generalizing columns with
  | nil =>
    rw [List.length_eq_zero_iff.mp hlength.symm]
    exact .nil
  | cons field fields ih =>
    cases columns with
    | nil => cases hlength
    | cons array columns =>
      rw [List.map_cons, List.nodup_cons] at hnodup
      refine .cons ?_ (forall₂_of_mem (ih hnodup.2 (Nat.succ.inj hlength)) fun field' hf array' _ hnamed => ?_)
      · rw [columnNamed_cons, if_pos rfl]
      · have hne : field.name ≠ field'.name := fun he => hnodup.1 (he ▸ List.mem_map_of_mem hf)
        rw [columnNamed_cons, if_neg hne, hnamed]

/-! ## The writer takes a batch -/

/-- The column of the values is built, encodes them and has the type of the field. -/
def Field.Takes (field : Field) (values : List Term) : Prop :=
  ∃ array, buildArray field values = .ok array ∧ array.terms = values.map .ok ∧ array.Of field.dataType ∧ array.Aligned

theorem decodeColumns_takes {rowCount : Nat} {f : String → List Term} {fields : List Field}
    (h : ∀ field ∈ fields, (f field.name).length = rowCount ∧ field.Takes (f field.name)) :
    ∃ arrays, decodeColumns rowCount (fields.map fun field => (field.name, .list (f field.name))) fields = .ok arrays ∧
      List.Forall₂ (fun field array => array.terms = (f (Field.name field)).map .ok ∧
        array.Of (Field.dataType field) ∧ array.Aligned) fields arrays := by
  induction fields with
  | nil => exact ⟨[], rfl, .nil⟩
  | cons field fields ih =>
    obtain ⟨⟨hlength, array, hbuild, hterms⟩, hrest⟩ := List.forall_mem_cons.mp h
    obtain ⟨arrays, harrays, hall⟩ := ih hrest
    refine ⟨array :: arrays, ?_, .cons hterms hall⟩
    rw [List.map_cons, decodeColumns]
    simp only [Term.list?, decodeOr, hlength, hbuild, harrays, ne_eq, not_true_eq_false, if_false, bind, Except.bind,
      pure, Except.pure]

theorem tryNew_of_length {fields : List Field} {arrays : List ArrowArray} {rowCount : Nat} (hne : fields ≠ [])
    (hlength : fields.length = arrays.length) (h : ∀ array ∈ arrays, array.length = rowCount) :
    RecordBatch.tryNew fields arrays = some { schema := fields, columns := arrays, numRows := rowCount } := by
  cases arrays with
  | nil => exact absurd (List.length_eq_zero_iff.mp hlength) hne
  | cons array arrays =>
    rw [List.forall_mem_cons] at h
    have hall : (arrays.all fun c => c.length == array.length) = true := by
      rw [List.all_eq_true]
      intro c hc
      simp [h.1, h.2 c hc]
    unfold RecordBatch.tryNew
    simp only
    rw [if_pos ⟨hlength, hall⟩, h.1]

namespace Batch

variable {batch : Batch}

theorem column_length {name : String} (h : name ∈ batch.schema.names) :
    (batch.column name).length = batch.rowCount := by
  rw [← batch.named] at h
  obtain ⟨entry, hentry, rfl⟩ := List.mem_map.mp h
  unfold column
  cases hl : batch.columns.lookup entry.1 with
  | none =>
    have hne := List.lookup_eq_none_iff.mp hl entry hentry
    simp at hne
  | some values =>
    obtain ⟨before, after, hsplit, -⟩ := List.lookup_eq_some_iff.mp hl
    exact batch.even (entry.1, values) (by rw [hsplit]; simp)

/-- A batch whose columns are taken becomes a record batch that encodes it. -/
theorem decodeBatch_takes {fields : List Field} {maxRows : Nat} (hnames : fields.map Field.name = batch.schema.names)
    (hne : fields ≠ []) (hnodup : batch.schema.names.Nodup) (hrows : batch.rowCount ≤ maxRows) (hmax : maxRows < 2 ^ 64)
    (htakes : ∀ field ∈ fields, field.Takes (batch.column field.name)) :
    ∃ record, decodeBatch batch.toNative fields maxRows = .ok record ∧ record.Holds fields ∧
      ∀ name ∈ batch.schema.names, record.terms name = (batch.column name).map .ok := by
  have hlengths : ∀ field ∈ fields, (batch.column field.name).length = batch.rowCount := fun field hf =>
    column_length (hnames ▸ List.mem_map_of_mem hf)
  obtain ⟨arrays, harrays, hall⟩ := decodeColumns_takes fun field hf => ⟨hlengths field hf, htakes field hf⟩
  have hnew : RecordBatch.tryNew fields arrays =
      some { schema := fields, columns := arrays, numRows := batch.rowCount } := by
    refine tryNew_of_length hne hall.length_eq fun array ha => ?_
    obtain ⟨field, hf, hterms, -⟩ := exists_of_forall₂_right hall ha
    rw [length_of_terms hterms, hlengths field hf]
  have hholds : RecordBatch.Holds { schema := fields, columns := arrays, numRows := batch.rowCount } fields := by
    refine ⟨rfl, forall₂_of_mem hall fun field hf array _ harray => ?_⟩
    exact ⟨harray.2.1, by rw [length_of_terms harray.1, hlengths field hf], harray.2.2⟩
  refine ⟨{ schema := fields, columns := arrays, numRows := batch.rowCount }, ?_, hholds, fun name hname => ?_⟩
  · have hboundary : decodeBoundary batch.toNative =
        some ("batch", batch.rowCount, fields.map fun field => (field.name, .list (batch.column field.name))) := by
      unfold toNative decodeBoundary
      have hcolumns : ((batch.schema.names.map fun name =>
          Term.tuple [.text name, .list (batch.column name)]).mapM decodeColumn) =
            some (fields.map fun field => (field.name, .list (batch.column field.name))) := by
        rw [← hnames, List.map_map, mapM_eq_some, List.forall₂_map_left_iff, List.forall₂_map_right_iff,
          List.forall₂_same]
        exact fun _ _ => rfl
      simp only [hcolumns]
      rw [if_pos (by omega)]
      rfl
    have hshape : ¬ (("batch" : String) ≠ "batch" ∨ batch.rowCount > maxRows ∨
        (fields.map fun field => (field.name, Term.list (batch.column field.name))).length ≠ fields.length) := by
      rw [List.length_map]
      rintro (h | h | h)
      · exact h rfl
      · exact absurd hrows (Nat.not_le_of_gt h)
      · exact h rfl
    refine except_bind_eq_ok.mpr ⟨_, by rw [hboundary]; rfl, ?_⟩
    simp only
    rw [if_neg hshape]
    exact except_bind_eq_ok.mpr ⟨arrays, harrays, by rw [hnew]; rfl⟩
  · rw [← hnames] at hname hnodup
    obtain ⟨array, hnamed, hterms⟩ :=
      columns_named (fun name array => array.terms = (batch.column name).map .ok) batch.rowCount hnodup
        (hall.imp fun _ _ h => h.1) hname
    unfold RecordBatch.terms
    rw [hnamed]
    exact hterms

/-! ## A record batch comes back -/

theorem encodeBatchColumns_terms {f : String → List Term} {fields : List Field} {columns : List ArrowArray}
    (h : List.Forall₂ (fun field array => array.terms = (f (Field.name field)).map .ok) fields columns) :
    encodeBatchColumns fields columns =
      .ok (fields.map fun field => .tuple [.text field.name, .list (f field.name)]) := by
  induction h with
  | nil => rfl
  | cons hhead _ ih =>
    rw [encodeBatchColumns, encodeArray_eq_ok hhead, ih]
    rfl

/-- A record batch whose columns encode terms comes back as their batch. -/
theorem fromNative_encodeBatch {schema : Schema} {record : RecordBatch} {f : String → List Term}
    (hnames : record.schema.map Field.name = schema.names)
    (hterms : List.Forall₂ (fun field array => array.terms = (f (Field.name field)).map .ok) record.schema
      record.columns)
    (hlength : ∀ array ∈ record.columns, array.length = record.numRows) :
    ∃ native batch, encodeBatch record = .ok native ∧ Batch.fromNative schema native = .ok batch ∧
      batch.schema = schema ∧ ∀ name ∈ schema.names, batch.column name = f name := by
  have hfst : (schema.names.map fun name => (name, f name)).map Prod.fst = schema.names := by
    rw [List.map_map]
    exact List.map_id _
  have heven : ∀ column ∈ schema.names.map fun name => (name, f name), column.2.length = record.numRows := by
    intro column hcolumn
    obtain ⟨name, hname, rfl⟩ := List.mem_map.mp hcolumn
    rw [← hnames] at hname
    obtain ⟨field, hfield, rfl⟩ := List.mem_map.mp hname
    obtain ⟨array, harray, hencoded⟩ := exists_of_forall₂_left hterms hfield
    rw [← hlength array harray, length_of_terms hencoded]
  refine ⟨_, ⟨schema, record.numRows, schema.names.map fun name => (name, f name), hfst, heven⟩,
    except_map_eq_ok.mpr ⟨_, encodeBatchColumns_terms hterms, rfl⟩, ?_, rfl, fun name hname => ?_⟩
  · have hcolumns : (record.schema.map fun field => Term.tuple [.text field.name, .list (f field.name)]).mapM
        decodeColumn = some (schema.names.map fun name => (name, .list (f name))) := by
      rw [← hnames, List.map_map, mapM_eq_some, List.forall₂_map_left_iff, List.forall₂_map_right_iff,
        List.forall₂_same]
      exact fun _ _ => rfl
    have hvalid : validateColumns schema record.numRows (schema.names.map fun name => (name, .list (f name))) =
        some ⟨schema, record.numRows, schema.names.map fun name => (name, f name), hfst, heven⟩ := by
      unfold validateColumns
      rw [mapM_listColumn]
      exact dif_pos ⟨hfst, heven⟩
    unfold fromNative
    simp only [hcolumns, Option.bind_some, Int.toNat_natCast, hvalid]
    rw [if_neg (by omega)]
  · unfold column
    simp only
    rw [lookup_map_of_mem f hname]
    rfl

/-! ## Rows of batches -/

/-- A column is what the rows have under its name. -/
theorem column_eq {name : String} (h : name ∈ batch.schema.names) :
    batch.column name = batch.toRows.map fun row => row.get name := by
  have hlength := column_length h
  apply List.ext_getElem
  · simp [toRows, hlength]
  · intro index hi hi'
    simp only [toRows, List.getElem_map, List.getElem_range]
    unfold rowAt
    rw [Row.get_map (fun name => (batch.column name).getD index .nil) h, List.getD_eq_getElem?_getD,
      List.getElem?_eq_getElem hi, Option.getD_some]

theorem toRows_take {schema : Schema} {rows : List Row} (hschema : batch.schema = schema) (hne : schema.names ≠ [])
    (hcolumns : ∀ name ∈ schema.names, batch.column name = (rows.take batch.rowCount).map fun row => row.get name) :
    batch.toRows = (rows.take batch.rowCount).map fun row => schema.names.map fun name => (name, row.get name) := by
  obtain ⟨name, hname⟩ := List.exists_mem_of_ne_nil _ hne
  have hcount := @column_length batch name (hschema ▸ hname)
  rw [hcolumns name hname, List.length_map] at hcount
  apply List.ext_getElem
  · rw [List.length_map, hcount]
    simp [toRows]
  · intro index hi hi'
    rw [List.length_map] at hi'
    rw [List.getElem_map]
    simp only [toRows, List.getElem_map, List.getElem_range, rowAt, hschema]
    refine List.map_congr_left fun name hname => ?_
    rw [hcolumns name hname, List.getD_eq_getElem?_getD, List.getElem?_map, List.getElem?_eq_getElem hi']
    rfl

/-- Batches whose columns are those of some rows expand to the rows. -/
theorem flatMap_toRows {schema : Schema} {bs : List Batch} {rows : List Row} (hne : schema.names ≠ [])
    (hschema : ∀ batch ∈ bs, batch.schema = schema)
    (hcolumns : ∀ name ∈ schema.names,
      (bs.flatMap fun batch => batch.column name) = rows.map fun row => row.get name) :
    bs.flatMap toRows = rows.map fun row => schema.names.map fun name => (name, row.get name) := by
  obtain ⟨first, hfirst⟩ := List.exists_mem_of_ne_nil _ hne
  induction bs generalizing rows with
  | nil =>
    have hempty := hcolumns first hfirst
    rw [List.flatMap_nil] at hempty
    rw [List.map_eq_nil_iff.mp hempty.symm]
    rfl
  | cons batch bs ih =>
    rw [List.forall_mem_cons] at hschema
    have hsplit : ∀ name ∈ schema.names, batch.column name = (rows.take batch.rowCount).map (fun row => row.get name) ∧
        (bs.flatMap fun batch => batch.column name) = (rows.drop batch.rowCount).map fun row => row.get name := by
      intro name hname
      have hall := hcolumns name hname
      have hlength := @column_length batch name (hschema.1 ▸ hname)
      rw [List.flatMap_cons] at hall
      rw [List.map_take, List.map_drop, ← hall, ← hlength, List.take_left, List.drop_left]
      exact ⟨rfl, rfl⟩
    rw [List.flatMap_cons, toRows_take hschema.1 hne fun name hname => (hsplit name hname).1,
      ih hschema.2 fun name hname => (hsplit name hname).2, ← List.map_append, List.take_append_drop]

end Batch

end Parquex
