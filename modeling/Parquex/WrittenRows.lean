import Parquex.BatchBoundary
import Parquex.FileReadSound
import Parquex.FileWriteSound
import Parquex.InputSound
import Parquex.NestedRoundTrip

/-!
# The rows of written batches

What a writer has taken is what it was given, in the form in which values come
back. A batch that is taken becomes a record that encodes its rows, whatever the
types of its columns, and a file is made of the records of its batches.
-/

namespace Parquex

/-! ## Types that are written -/

theorem FlatType.arrow?_fixedSizeBinary {type : FlatType} {length : Int}
    (h : type.arrow? = some (.fixedSizeBinary length)) : type = .fixedBinary length := by
  unfold FlatType.arrow? at h
  split at h <;> cases h
  rfl

theorem FlatType.arrow_regular {type type' : FlatType} (h : type.encodeType.decodeFlat = .ok type')
    {scalar : ScalarType} (harrow : type.arrow? = some scalar) : (DataType.scalar scalar).regular = true := by
  cases scalar with
  | fixedSizeBinary length =>
    obtain rfl := FlatType.arrow?_fixedSizeBinary harrow
    by_cases hlength : 0 < length
    · simp [DataType.regular, hlength]
    · simp [FlatType.encodeType, Descriptor.decodeFlat, decodeWhen, hlength] at h
  | _ => rfl

mutual
/-- Every type that a schema of the library names has positive lengths and no empty struct. -/
theorem FieldType.regular : ∀ (type : FieldType) {type' : FieldType} {dataType : DataType},
    decodeType type.encodeType = .ok type' → validNestedType type = true → arrowDataType type = .ok dataType →
      dataType.regular = true
  | .flat type, _, dataType, h, _, ha => by
    obtain ⟨flat, hflat, -⟩ := except_map_eq_ok.mp ((decodeType_flat type).symm.trans h)
    rw [arrowDataType] at ha
    cases harrow : type.arrow? with
    | none =>
      rw [harrow] at ha
      cases ha
    | some scalar =>
      rw [harrow] at ha
      cases ha
      exact FlatType.arrow_regular hflat harrow
  | .list field, _, dataType, h, hv, ha => by
    obtain ⟨_, hfield, -⟩ := decode_child .list h
    obtain ⟨⟨name, dataType, nullable⟩, harrow, heq⟩ := except_map_eq_ok.mp ha
    cases heq
    rw [DataType.regular]
    exact SchemaField.regular field hfield hv harrow
  | .largeList field, _, dataType, h, hv, ha => by
    obtain ⟨_, hfield, -⟩ := decode_child .largeList h
    obtain ⟨⟨name, dataType, nullable⟩, harrow, heq⟩ := except_map_eq_ok.mp ha
    cases heq
    rw [DataType.regular]
    exact SchemaField.regular field hfield hv harrow
  | .fixedList field length, _, dataType, h, hv, ha => by
    change (if 0 < length then _ else _) = _ at h
    by_cases hlength : 0 < length
    · rw [if_pos hlength] at h
      obtain ⟨_, hfield, -⟩ := decode_child (fun field => .fixedList field length) h
      obtain ⟨⟨name, dataType, nullable⟩, harrow, heq⟩ := except_map_eq_ok.mp ha
      cases heq
      rw [DataType.regular, Bool.and_eq_true]
      exact ⟨decide_eq_true hlength, SchemaField.regular field hfield hv harrow⟩
    · rw [if_neg hlength] at h
      cases h
  | .struct fields, _, dataType, h, hv, ha => by
    change (_ >>= fun fields => pure (FieldType.struct fields)) = _ at h
    obtain ⟨_, hfields, -⟩ := except_map_eq_ok.mp h
    obtain ⟨arrows, harrows, heq⟩ := except_map_eq_ok.mp ha
    cases heq
    rw [validNestedType, Bool.and_eq_true, Bool.and_eq_true] at hv
    rw [DataType.regular, Bool.and_eq_true]
    refine ⟨?_, schemaFields_regular fields hfields hv.1.2 harrows⟩
    cases fields with
    | nil => simp at hv
    | cons field fields =>
      obtain ⟨head, -, harrows⟩ := except_bind_eq_ok.mp harrows
      obtain ⟨rest, -, heq⟩ := except_map_eq_ok.mp harrows
      cases heq
      rfl

theorem SchemaField.regular : ∀ (field : SchemaField) {field' : SchemaField} {arrow : Field},
    decodeField field.encodeField = .ok field' → validField field = true → arrowField field = .ok arrow →
      arrow.dataType.regular = true
  | .mk name type nullable, _, arrow, h, hv, ha => by
    obtain ⟨_, htype, -⟩ := except_map_eq_ok.mp h
    obtain ⟨dataType, harrow, heq⟩ := except_map_eq_ok.mp ha
    cases heq
    rw [validField, Bool.and_eq_true] at hv
    exact FieldType.regular type htype hv.2 harrow

theorem schemaFields_regular : ∀ (fields : List SchemaField) {fields' : List SchemaField} {arrows : List Field},
    decodeFields (encodeFields fields) = .ok fields' → validFields fields = true → arrowFields fields = .ok arrows →
      regularFields arrows = true
  | [], _, arrows, _, _, ha => by
    cases ha
    rfl
  | field :: fields, _, arrows, h, hv, ha => by
    rw [encodeFields, decodeFields] at h
    obtain ⟨_, hhead, h⟩ := except_bind_eq_ok.mp h
    obtain ⟨_, htail, -⟩ := except_map_eq_ok.mp h
    rw [validFields, Bool.and_eq_true] at hv
    obtain ⟨⟨name, dataType, nullable⟩, harrow, ha⟩ := except_bind_eq_ok.mp ha
    obtain ⟨rest, hrest, heq⟩ := except_map_eq_ok.mp ha
    cases heq
    rw [regularFields, Bool.and_eq_true]
    exact ⟨SchemaField.regular field hhead hv.1 harrow, schemaFields_regular fields htail hv.2 hrest⟩
end

/-- Fields that batches are built for, under the names of a schema. -/
structure Writable (schema : Schema) (fields : List Field) : Prop where
  names : fields.map Field.name = schema.names
  nonempty : fields ≠ []
  nodup : schema.names.Nodup
  supported : supportedFields fields = true
  regular : regularFields fields = true
  back : ∃ native, nativeFields fields = .ok native ∧ Schema.fromNative native = .ok schema

section
variable {dataType : DataType} {array : ArrowArray} {terms : List Term}

theorem Holds.of (h : Holds dataType array terms) : array.Of dataType := by
  cases dataType with
  | scalar type =>
    cases array with
    | flat type' slots =>
      obtain ⟨htype, hfills, -⟩ := h
      refine ⟨htype, ?_⟩
      unfold ScalarType.holds
      revert hfills
      cases type.storage <;> cases slots <;> simp [Storage.fills]
    | _ => cases h
  | _ => cases array <;> trivial

end

theorem GroupsHold.aligned {offsets : List Nat} {valid : List Bool} {terms : List Term} {values : ArrowArray}
    {dataType : DataType} (h : GroupsHold offsets valid terms (Holds dataType values)) :
    ∀ row < valid.length, offsets.getD (row + 1) 0 ≤ values.length := by
  obtain ⟨groups, -, rfl, -, hoffsets, hheld⟩ := h
  intro row hrow
  rw [List.length_map] at hrow
  rw [hoffsets _ hrow, hheld.length]
  conv_rhs => rw [← List.take_append_drop (row + 1) groups, List.map_append, List.flatten_append, List.length_append]
  exact Nat.le_add_right _ _

mutual
theorem Holds.aligned : ∀ (dataType : DataType) {array : ArrowArray} {terms : List Term},
    Holds dataType array terms → array.Aligned
  | .scalar type, .flat type' slots, terms, _ => by
    rw [ArrowArray.Aligned]
    trivial
  | .list (.mk _ dataType _), .list false item offsets valid values, terms, h => by
    obtain ⟨_, _, _, _, _, hheld⟩ := id h
    rw [ArrowArray.Aligned]
    exact ⟨GroupsHold.aligned h, Holds.aligned dataType hheld⟩
  | .largeList (.mk _ dataType _), .list true item offsets valid values, terms, h => by
    obtain ⟨_, _, _, _, _, hheld⟩ := id h
    rw [ArrowArray.Aligned]
    exact ⟨GroupsHold.aligned h, Holds.aligned dataType hheld⟩
  | .fixedSizeList (.mk _ dataType _) length, .fixedSizeList item listLength valid values, terms, h => by
    have hstep := Holds.inStep _ h
    obtain ⟨-, _, _, _, _, hheld⟩ := h
    rw [ArrowArray.InStep] at hstep
    rw [ArrowArray.Aligned, hstep.1, Nat.mul_comm]
    exact ⟨le_refl _, Holds.aligned dataType hheld⟩
  | .struct fields, .struct fields' valid columns, terms, ⟨hfields, rows, _, hvalid, hcolumns⟩ => by
    have haligned := HoldsColumns.aligned fields hcolumns
    rw [List.length_map] at haligned
    rw [ArrowArray.Aligned, hvalid, List.length_map]
    exact haligned

theorem HoldsColumns.aligned : ∀ (fields : List Field) {columns : List ArrowArray} {rows : List (List Term)},
    HoldsColumns fields columns rows → AlignedAll rows.length columns
  | [], [], rows, _ => by
    rw [AlignedAll]
    trivial
  | .mk name dataType _ :: fields, column :: columns, rows, ⟨hcolumn, hcolumns⟩ => by
    have hlength := hcolumn.length
    have htail := HoldsColumns.aligned fields hcolumns
    rw [List.length_map] at hlength htail
    rw [AlignedAll]
    exact ⟨⟨hlength, Holds.aligned dataType hcolumn⟩, htail⟩
end

/-! ## Records of batches -/

theorem buildArray_holds {name : String} {dataType : DataType} {nullable : Bool} (hs : dataType.supported = true)
    (hr : dataType.regular = true) {terms : List Term} {array : ArrowArray}
    (h : buildArray (.mk name dataType nullable) terms = .ok array) :
    Holds dataType array (terms.map (canonical dataType)) := by
  by_cases hall : terms.all (conforms dataType nullable) = true
  · obtain ⟨built, hbuild, hheld⟩ := buildArray_accepted hs hr name hall
    rw [h] at hbuild
    cases hbuild
    exact hheld
  · obtain ⟨failure, hfailed⟩ := (appendValue_appends dataType nullable hs hr).items_refused
      (makeBuilder_holds dataType) (Bool.eq_false_iff.mpr hall)
    cases h.symm.trans hfailed

theorem decodeColumns_holds {rowCount : Nat} {f : String → List Term} {fields : List Field} {arrays : List ArrowArray}
    (hs : supportedFields fields = true) (hr : regularFields fields = true)
    (h : decodeColumns rowCount (fields.map fun field => (field.name, .list (f field.name))) fields = .ok arrays) :
    List.Forall₂ (fun field array => (f (Field.name field)).length = rowCount ∧
      Holds (Field.dataType field) array ((f field.name).map (canonical field.dataType))) fields arrays := by
  induction fields generalizing arrays with
  | nil =>
    cases h
    exact .nil
  | cons field fields ih =>
    obtain ⟨name, dataType, nullable⟩ := field
    rw [supportedFields, Bool.and_eq_true] at hs
    rw [regularFields, Bool.and_eq_true] at hr
    rw [List.map_cons, decodeColumns] at h
    have hname : (Field.mk name dataType nullable).name = name := rfl
    simp only [Term.list?, decodeOr, hname, ne_eq, not_true_eq_false, if_false] at h
    by_cases hlength : (f name).length = rowCount
    · simp only [bind, Except.bind, hlength, not_true_eq_false, if_false] at h
      cases hbuild : buildArray (.mk name dataType nullable) (f name) with
      | error failure =>
        rw [hbuild] at h
        cases h
      | ok array =>
        rw [hbuild] at h
        obtain ⟨rest, hrest, heq⟩ := except_map_eq_ok.mp h
        cases heq
        exact .cons ⟨hlength, buildArray_holds hs.1 hr.1 hbuild⟩ (ih hs.2 hr.2 hrest)
    · simp only [bind, Except.bind, hlength, not_false_eq_true, if_true] at h
      cases h

/-- A row in the form in which it comes back. -/
def canonicalRow (fields : List Field) (row : Row) : Row :=
  fields.map fun field => (field.name, canonical field.dataType (row.get field.name))

theorem canonicalRow_get {fields : List Field} (hnodup : (fields.map Field.name).Nodup) {field : Field}
    (hfield : field ∈ fields) (row : Row) :
    (canonicalRow fields row).get field.name = canonical field.dataType (row.get field.name) := by
  induction fields with
  | nil => cases hfield
  | cons first fields ih =>
    rw [List.map_cons, List.nodup_cons] at hnodup
    rw [canonicalRow, List.map_cons]
    unfold Row.get
    rw [List.lookup_cons]
    by_cases hname : field.name = first.name
    · rcases List.mem_cons.mp hfield with rfl | hmem
      · simp
      · exact absurd (hname ▸ List.mem_map_of_mem hmem) hnodup.1
    · have hmem : field ∈ fields := (List.mem_cons.mp hfield).resolve_left fun he => hname (congrArg Field.name he)
      have hrest := ih hnodup.2 hmem
      unfold Row.get canonicalRow at hrest
      simp only [beq_eq_false_iff_ne.mpr hname]
      exact hrest

/-- A batch that the writer has taken is a record that encodes its rows. -/
theorem decodeBatch_rows {batch : Batch} {fields : List Field} {maxRows : Nat} {record : RecordBatch}
    (hw : Writable batch.schema fields) (h : decodeBatch batch.toNative fields maxRows = .ok record) :
    record.Holds fields ∧ FileStream.HoldsRows record (batch.toRows.map (canonicalRow fields)) := by
  have hnodup : (fields.map Field.name).Nodup := hw.names ▸ hw.nodup
  have hcolumns : ((batch.schema.names.map fun name =>
      Term.tuple [.text name, .list (batch.column name)]).mapM decodeColumn) =
        some (fields.map fun field => (field.name, .list (batch.column field.name))) := by
    rw [← hw.names, List.map_map, mapM_eq_some, List.forall₂_map_left_iff, List.forall₂_map_right_iff,
      List.forall₂_same]
    exact fun _ _ => rfl
  unfold decodeBatch at h
  obtain ⟨⟨tag, rowCount, columns⟩, hboundary, h⟩ := except_bind_eq_ok.mp h
  unfold Batch.toNative decodeBoundary at hboundary
  simp only [hcolumns] at hboundary
  split at hboundary
  · cases hboundary
    simp only at h
    split at h
    · cases h
    · obtain ⟨arrays, harrays, h⟩ := except_bind_eq_ok.mp h
      have hall := decodeColumns_holds (f := batch.column) hw.supported hw.regular harrays
      have hlength : ∀ array ∈ arrays, array.length = batch.rowCount := by
        intro array harray
        obtain ⟨field, -, hcount, hheld⟩ := exists_of_forall₂_right hall harray
        rw [hheld.length, List.length_map, hcount]
        rfl
      rw [tryNew_of_length hw.nonempty hall.length_eq hlength] at h
      cases h
      refine ⟨⟨rfl, forall₂_of_mem hall fun field hfield array harray hheld => ?_⟩, ?_, fun field hfield => ?_⟩
      · exact ⟨hheld.2.of, hlength array harray, Holds.aligned _ hheld.2⟩
      · rw [List.length_map, Batch.toRows, List.length_map, List.length_range]
      · have hnamed := forall₂_columnNamed batch.rowCount hnodup hall.length_eq
        obtain ⟨index, hindex, rfl⟩ := List.getElem_of_mem hfield
        have hindex' : index < arrays.length := hall.length_eq ▸ hindex
        have hcolumn : RecordBatch.columnNamed { schema := fields, columns := arrays, numRows := batch.rowCount }
            fields[index].name = some arrays[index] := (List.forall₂_iff_get.mp hnamed).2 index hindex hindex'
        have hheld := ((List.forall₂_iff_get.mp hall).2 index hindex hindex').2
        simp only [List.get_eq_getElem] at hheld
        unfold RecordBatch.terms
        rw [hcolumn, Option.elim_some, hheld.terms_eq, Batch.column_eq (hw.names ▸ List.mem_map_of_mem hfield),
          List.map_map, List.map_map, List.map_map]
        refine List.map_congr_left fun row _ => ?_
        simp only [Function.comp, canonicalRow_get hnodup hfield]
  · cases hboundary

/-! ## Equal schemas -/

mutual
theorem FieldType.eq_of_beq : ∀ {type type' : FieldType}, type.beq type' = true → type = type'
  | .flat type, .flat type', h => congrArg _ (beq_iff_eq.mp h)
  | .list field, .list field', h => congrArg _ (SchemaField.eq_of_beq h)
  | .largeList field, .largeList field', h => congrArg _ (SchemaField.eq_of_beq h)
  | .fixedList field length, .fixedList field' length', h => by
    rw [FieldType.beq, Bool.and_eq_true] at h
    rw [SchemaField.eq_of_beq h.1, beq_iff_eq.mp h.2]
  | .struct fields, .struct fields', h => congrArg _ (eq_of_beqFields h)

theorem SchemaField.eq_of_beq : ∀ {field field' : SchemaField}, field.beq field' = true → field = field'
  | .mk name type nullable, .mk name' type' nullable', h => by
    rw [SchemaField.beq, Bool.and_eq_true, Bool.and_eq_true] at h
    rw [beq_iff_eq.mp h.1.1, FieldType.eq_of_beq h.1.2, beq_iff_eq.mp h.2]

theorem eq_of_beqFields : ∀ {fields fields' : List SchemaField}, beqFields fields fields' = true → fields = fields'
  | [], [], _ => rfl
  | field :: fields, field' :: fields', h => by
    rw [beqFields, Bool.and_eq_true] at h
    rw [SchemaField.eq_of_beq h.1, eq_of_beqFields h.2]
end

theorem Schema.eq_of_beq {schema schema' : Schema} (h : schema.beq schema' = true) : schema = schema' :=
  congrArg Schema.mk (eq_of_beqFields h)

/-! ## Records of files -/

namespace FileWriter

variable {arrow : ArrowWriters} {schema : Schema}

/-- The records of some batches of a schema, as a writer with the fields decodes them. -/
def RecordsOf (schema : Schema) (fields : List Field) (maxBatchRows : Nat) (batches : List Batch)
    (records : List RecordBatch) : Prop :=
  List.Forall₂ (fun batch record => batch.schema = schema ∧
    decodeBatch batch.toNative fields maxBatchRows = .ok record) batches records

/-- The records of a file hold its fields and the rows of its batches. -/
theorem RecordsOf.rows {fields : List Field} {maxBatchRows : Nat} {batches : List Batch} {records : List RecordBatch}
    (hw : Writable schema fields) (h : RecordsOf schema fields maxBatchRows batches records) :
    (∀ record ∈ records, record.Holds fields) ∧
      List.Forall₂ FileStream.HoldsRows records (batches.map fun batch => batch.toRows.map (canonicalRow fields)) := by
  have hrows : List.Forall₂ (fun (batch : Batch) record => record.Holds fields ∧
      FileStream.HoldsRows record (batch.toRows.map (canonicalRow fields))) batches records := by
    refine h.imp fun batch record hbatch => ?_
    obtain ⟨rfl, hrecord⟩ := hbatch
    exact decodeBatch_rows hw hrecord
  refine ⟨fun record hrecord => ?_, ?_⟩
  · obtain ⟨batch, -, hbatch⟩ := exists_of_forall₂_right hrows hrecord
    exact hbatch.1
  · rw [List.forall₂_map_right_iff]
    exact List.Forall₂.flip (hrows.imp fun batch record hbatch => hbatch.2)

end FileWriter

end Parquex
