import Parquex.BatchBoundary
import Parquex.ParquetWriterSound
import Parquex.PrefetchSound
import Parquex.SchemaRoundTrip
import Parquex.UniformRows

/-!
# Finite rows come back

A writer of an inferred schema takes every batch of the rows, and a reader of a
file that stores what the writer handed to its encoder gives the rows back. The
writing and the reading meet at the terms that the columns of the file encode.
-/

namespace Parquex

namespace Finite

/-! ## Arrow fields of an inferred schema -/

namespace ColumnKind

def scalar : ColumnKind → ScalarType
  | .boolean => .boolean
  | .integer => .integer .int64
  | .utf8 => .utf8
  | .binary => .binary
  | .datetime => .timestamp .microsecond (some "UTC")

variable {kind : ColumnKind}

theorem conforms_encoded {value : Term} (h : kind.Has value) :
    (encoded value).isNil = false ∧ kind.scalar.storage.conforms (encoded value) = true := by
  cases kind with
  | boolean =>
    obtain ⟨b, rfl⟩ := h
    cases b <;> exact ⟨rfl, rfl⟩
  | integer =>
    obtain ⟨n, hn, rfl⟩ := h
    refine ⟨rfl, ?_⟩
    have htakes := Input.int64_takes n
    rw [hn] at htakes
    exact htakes
  | utf8 =>
    obtain ⟨s, rfl⟩ := h
    exact ⟨rfl, rfl⟩
  | binary =>
    obtain ⟨s, rfl⟩ := h
    exact ⟨rfl, rfl⟩
  | datetime =>
    obtain ⟨d, hd, rfl⟩ := h
    refine ⟨rfl, ?_⟩
    have htakes := Input.int64_takes d.microseconds
    rw [hd] at htakes
    exact htakes

theorem canonical_scalar (kind : ColumnKind) (value : Term) : canonical (.scalar kind.scalar) value = value := by
  rw [canonical]
  split
  · next hnil => exact (Term.isNil_iff.mp hnil).symm
  · cases kind <;> rfl

theorem holds_of_fills {slots : Slots} (h : kind.scalar.storage.fills slots = true) :
    kind.scalar.holds slots = true := by
  cases kind <;> cases slots <;> first | rfl | cases h

/-- A column of encoded values is taken by its field. -/
theorem takes_encoded {values stored : List Term} (h : Column kind values) (name : String) {nullable : Bool}
    (hnullable : .nil ∈ values → nullable = true) (hstored : ∀ term ∈ stored, ∃ value ∈ values, term = encoded value) :
    Field.Takes (.mk name (.scalar kind.scalar) nullable) stored := by
  have hconforms : stored.all (conforms (.scalar kind.scalar) nullable) = true := by
    rw [List.all_eq_true]
    intro term hterm
    obtain ⟨value, hvalue, rfl⟩ := hstored term hterm
    rw [conforms]
    rcases h.each value hvalue with rfl | hhas
    · exact hnullable hvalue
    · obtain ⟨hnil, hconforms⟩ := conforms_encoded hhas
      rw [hnil]
      exact hconforms
  have hs : (DataType.scalar kind.scalar).supported = true := by cases kind <;> rfl
  have hr : (DataType.scalar kind.scalar).regular = true := by cases kind <;> rfl
  obtain ⟨array, hbuild, hholds⟩ := buildArray_accepted hs hr name hconforms
  have hterms := hholds.terms_eq
  rw [List.map_congr_left fun value _ => canonical_scalar kind value, List.map_id'] at hterms
  cases array with
  | flat type slots =>
    obtain ⟨rfl, hfills, -⟩ := hholds
    exact ⟨_, hbuild, hterms, ⟨rfl, holds_of_fills hfills⟩, trivial⟩
  | _ => cases hholds

end ColumnKind

/-- The Arrow fields of a schema for the rows. -/
def ArrowOf (rows : List InputRow) (names : List String) (arrows : List Field) : Prop :=
  List.Forall₂ (fun name arrow => ∃ kind nullable, arrow = Field.mk name (.scalar (ColumnKind.scalar kind)) nullable ∧
    Column kind (valuesOf rows name) ∧ (.nil ∈ valuesOf rows name → nullable = true)) (fieldNames names) arrows

section
variable {rows : List InputRow} {names : List String}

/-- An inferred schema is valid, and its descriptors come back. -/
theorem FieldsOf.valid {fields : List SchemaField} (h : FieldsOf rows names fields)
    (hnonempty : ∀ name ∈ fieldNames names, name ≠ "") :
    decodeFields (encodeFields fields) = .ok fields ∧ validFields fields = true ∧ fitsFields fields = true ∧
      ∃ arrows, arrowFields fields = .ok arrows ∧ ArrowOf rows names arrows := by
  unfold FieldsOf at h
  unfold ArrowOf
  generalize fieldNames names = fieldNames at h hnonempty
  induction h with
  | nil => exact ⟨rfl, rfl, rfl, [], rfl, .nil⟩
  | @cons name _ _ fields hhead _ ih =>
    rw [List.forall_mem_cons] at hnonempty
    obtain ⟨type, nullable, rfl, ⟨kind, hcolumn, rfl⟩, hnullable⟩ := hhead
    obtain ⟨hdecode, hvalid, hfits, arrows, harrows, hall⟩ := ih hnonempty.2
    have hname : (name != "") = true := by simpa using hnonempty.1
    refine ⟨?_, ?_, ?_, .mk name (.scalar kind.scalar) nullable :: arrows, ?_,
      .cons ⟨kind, nullable, rfl, hcolumn, hnullable⟩ hall⟩
    · rw [encodeFields, decodeFields, hdecode]
      cases kind <;> rfl
    · rw [validFields, hvalid, validField, hname]
      rfl
    · rw [fitsFields, hfits]
      cases kind <;> rfl
    · rw [arrowFields, harrows]
      cases kind <;> rfl

theorem ArrowOf.names_eq {arrows : List Field} (h : ArrowOf rows names arrows) :
    arrows.map Field.name = fieldNames names := by
  refine Eq.symm (List.forall₂_eq_eq_eq ▸ List.forall₂_map_right_iff.mpr (List.Forall₂.imp ?_ h))
  rintro name arrow ⟨kind, nullable, rfl, -⟩
  rfl

/-- Batches of the encoded rows are taken by the Arrow fields. -/
theorem ArrowOf.takes {arrows : List Field} (h : ArrowOf rows names arrows) {batch : Batch}
    (hnames : batch.schema.names = fieldNames names)
    (hrows : ∀ row ∈ batch.toRows, ∃ input ∈ rows, row = encodedRow names input) :
    ∀ arrow ∈ arrows, Field.Takes arrow (batch.column arrow.name) := by
  intro arrow harrow
  obtain ⟨name, hname, kind, nullable, rfl, hcolumn, hnullable⟩ := exists_of_forall₂_right h harrow
  refine ColumnKind.takes_encoded hcolumn name hnullable fun term hterm => ?_
  change term ∈ batch.column name at hterm
  rw [Batch.column_eq (hnames ▸ hname)] at hterm
  obtain ⟨row, hrow, rfl⟩ := List.mem_map.mp hterm
  obtain ⟨input, hinput, rfl⟩ := hrows row hrow
  refine ⟨(named input).get name, List.mem_map_of_mem hinput, ?_⟩
  exact Row.get_map (fun name => encoded ((named input).get name)) hname

end

/-! ## Writing -/

section
variable {settings : WriterSettings}

/-- A writer that has written some records. -/
structure Writing (settings : WriterSettings) (schema : Schema) (arrows : List Field) (records : List RecordBatch)
    (writer : Writer) : Prop where
  schema : writer.schema = schema
  fields : writer.fields = arrows
  resource : writer.resource.schema = arrows
  maxBatchRows : writer.resource.maxBatchRows = settings.maxBatchRows
  cancelled : writer.resource.cancelled = false
  active : writer.resource.stats.active = true
  writer : writer.resource.writer = some { batches := records, staged := (settings.encoder arrows).staged records }

theorem openWriter_writing {fields : List SchemaField} {arrows : List Field} (hne : fields ≠ [])
    (hnodup : (fields.map SchemaField.name).Nodup) (hdecode : decodeFields (encodeFields fields) = .ok fields)
    (hvalid : validFields fields = true) (hfits : fitsFields fields = true)
    (harrows : arrowFields fields = .ok arrows) :
    ∃ writer, openWriter settings { fields } = .ok writer ∧ Writing settings { fields } arrows [] writer := by
  have hnative : nativeSchema { fields } = .ok (encodeFields fields) := by
    unfold nativeSchema Schema.fromNative Schema.toNative
    rw [hdecode]
    refine if_pos ?_
    rw [Bool.and_eq_true, Bool.and_eq_true, Bool.and_eq_true]
    exact ⟨⟨⟨by simpa using hne, hvalid⟩, decide_eq_true hnodup⟩, beqFields_self fields⟩
  have hinput : decodeInput (encodeFields fields) = some (encodeFields fields) :=
    if_pos ((fields_comeBack fields hdecode).2.2 hfits)
  have hchildren : TimePartition.nativeResult (arrowChildren (encodeFields fields)) = .ok arrows := by
    rw [TimePartition.nativeResult_eq_ok, arrowChildren_encodeFields]
    exact harrows
  refine ⟨{
    resource := ParquetWriter.opened (settings.encoder arrows) arrows settings.maxBatchRows
      settings.multipartBufferLimitBytes settings.key settings.destination
    fields := arrows
    schema := { fields } }, ?_, rfl, rfl, rfl, rfl, rfl, rfl, ?_⟩
  · refine except_bind_eq_ok.mpr ⟨_, TimePartition.liftError_eq_ok.mpr hnative, ?_⟩
    simp only [hinput]
    exact except_bind_eq_ok.mpr ⟨_, hchildren, rfl⟩
  · simp [ParquetWriter.opened, ArrowEncoder.staged, ArrowEncoder.written]

theorem writeBatch_writing {schema : Schema} {arrows : List Field} {records : List RecordBatch} {writer : Writer}
    (h : Writing settings schema arrows records writer) {batch : Batch} (hschema : batch.schema = schema)
    (hcount : batch.rowCount ≤ settings.maxBatchRows) {record : RecordBatch}
    (hdecode : decodeBatch batch.toNative arrows settings.maxBatchRows = .ok record) :
    ∃ writer', writeBatch settings writer batch = .ok writer' ∧
      Writing settings schema arrows (records ++ [record]) writer' := by
  have hsame : batch.schema.beq writer.schema = true := by
    rw [hschema, h.schema]
    exact beqFields_self schema.fields
  unfold writeBatch ParquetWriter.writeBatch
  simp only [hsame, Bool.not_true, Bool.false_eq_true, if_false, Nat.not_lt.mpr hcount, h.cancelled, h.active,
    h.resource, h.maxBatchRows, h.fields, hdecode, h.writer, writeChunks, Option.any_none]
  refine ⟨_, rfl, h.schema, rfl, rfl, rfl, rfl, h.active, ?_⟩
  rw [ArrowEncoder.staged_concat]

/-- The records of some batches, as the writer decodes them. -/
def decodeBatches (settings : WriterSettings) (arrows : List Field) (bs : List Batch) :
    Except NativeFailure (List RecordBatch) :=
  bs.mapM fun batch => decodeBatch batch.toNative arrows settings.maxBatchRows

theorem writeBatches_writing {schema : Schema} {arrows : List Field} {bs : List Batch} {records : List RecordBatch}
    (hdecode : decodeBatches settings arrows bs = .ok records) (hschema : ∀ batch ∈ bs, batch.schema = schema)
    (hcount : ∀ batch ∈ bs, batch.rowCount ≤ settings.maxBatchRows) {written : List RecordBatch} {writer : Writer}
    (h : Writing settings schema arrows written writer) :
    ∃ writer', bs.foldlM (writeBatch settings) writer = .ok writer' ∧
      Writing settings schema arrows (written ++ records) writer' := by
  have hdecoded := mapM_eq_ok.mp hdecode
  clear hdecode
  induction hdecoded generalizing written writer with
  | nil => exact ⟨writer, rfl, by rwa [List.append_nil]⟩
  | cons hhead _ ih =>
    rw [List.forall_mem_cons] at hschema hcount
    obtain ⟨writer', hwriter, hwriting⟩ := writeBatch_writing h hschema.1 hcount.1 hhead
    obtain ⟨last, hlast, hwriting'⟩ := ih hschema.2 hcount.2 hwriting
    rw [List.append_assoc, List.singleton_append] at hwriting'
    refine ⟨last, ?_, hwriting'⟩
    rw [List.foldlM_cons, hwriter]
    exact hlast

theorem closeWriter_writing {schema : Schema} {arrows : List Field} {records : List RecordBatch} {writer : Writer}
    (h : Writing settings schema arrows records writer) :
    ∃ writer', closeWriter settings writer = .ok writer' ∧ writer'.fields = arrows ∧
      writer'.resource.destination = some ((settings.encoder arrows).file records) := by
  unfold closeWriter ParquetWriter.close
  simp only [h.cancelled, Bool.false_eq_true, if_false, h.fields, h.writer, writeChunks, Option.any_none]
  exact ⟨_, rfl, rfl, rfl⟩

theorem flatMap_eq_of_forall₂ {α β γ : Type} {f : α → List γ} {g : β → List γ} {as : List α} {bs : List β}
    (h : List.Forall₂ (fun a b => g b = f a) as bs) : bs.flatMap g = as.flatMap f := by
  induction h with
  | nil => rfl
  | cons hhead _ ih => rw [List.flatMap_cons, List.flatMap_cons, hhead, ih]

/-- Rows that were written, and the records that the encoder was given for them. -/
structure Written (settings : WriterSettings) (inspect : Binary → String) (input : Term) (batchRows : Nat)
    (writer : Writer) (records : List RecordBatch) : Prop where
  written : write settings inspect input batchRows = .ok writer
  decoded : ∃ schema bs, inferAndBatches inspect input batchRows = .ok (schema, bs) ∧
    decodeBatches settings writer.fields bs = .ok records
  destination : writer.resource.destination = some ((settings.encoder writer.fields).file records)

/-- The rows are written, and the columns of the records that the encoder gets encode them. -/
theorem write_uniform {rows : List InputRow} {names : List String} (h : Uniform rows names)
    (inspect : Binary → String) {batchRows : Nat} (hpos : 0 < batchRows) (hle : batchRows ≤ settings.maxBatchRows)
    (hmax : settings.maxBatchRows < 2 ^ 64) :
    ∃ fields records writer, Written settings inspect (inputOf rows) batchRows writer records ∧
      FieldsOf rows names fields ∧ arrowFields fields = .ok writer.fields ∧
      (∀ record ∈ records, record.Holds writer.fields) ∧
      ∀ name ∈ fieldNames names, (records.flatMap fun record => record.terms name) =
        rows.map fun row => .ok (encoded ((named row).get name)) := by
  obtain ⟨fields, bs, hbatches, hfields, hschema, hrows⟩ := inferAndBatches_uniform h inspect hpos
  have hperm := fieldNames_perm names
  obtain ⟨hdecode, hvalid, hfits, arrows, harrows, hof⟩ := hfields.valid h.fieldNames_nonempty
  have hne : fields ≠ [] := by
    rintro rfl
    exact h.fieldNames_ne hfields.names_eq.symm
  have hnames : ∀ batch ∈ bs, batch.schema.names = fieldNames names := by
    intro batch hb
    rw [(hschema batch hb).1]
    exact hfields.names_eq
  have hrecord : ∀ batch ∈ bs, ∃ record, decodeBatch batch.toNative arrows settings.maxBatchRows = .ok record ∧
      (record.Holds arrows ∧
        ∀ name ∈ fieldNames names, record.terms name = (batch.toRows.map fun row => row.get name).map .ok) := by
    intro batch hb
    have hinputs : ∀ row ∈ batch.toRows, ∃ input ∈ rows, row = encodedRow names input := by
      intro row hrow
      have hmem : row ∈ rows.map (encodedRow names) := hrows ▸ List.mem_flatMap.mpr ⟨batch, hb, hrow⟩
      obtain ⟨input, hinput, rfl⟩ := List.mem_map.mp hmem
      exact ⟨input, hinput, rfl⟩
    have harrowsNe : arrows ≠ [] := by
      rintro rfl
      exact h.fieldNames_ne hof.names_eq.symm
    obtain ⟨record, hdecoded, hholds, hterms⟩ := Batch.decodeBatch_takes (hof.names_eq.trans (hnames batch hb).symm)
      harrowsNe (hnames batch hb ▸ h.fieldNames_nodup) ((hschema batch hb).2.trans hle) hmax
      (hof.takes (hnames batch hb) hinputs)
    refine ⟨record, hdecoded, hholds, fun name hname => ?_⟩
    rw [hterms name (hnames batch hb ▸ hname), Batch.column_eq (hnames batch hb ▸ hname)]
  obtain ⟨records, hrecords, hterms⟩ := exists_mapM_related hrecord
  obtain ⟨first, hopen, hfirst⟩ :=
    @openWriter_writing settings fields arrows hne (hfields.names_eq ▸ h.fieldNames_nodup) hdecode hvalid hfits harrows
  obtain ⟨last, hwritten, hlast⟩ := writeBatches_writing hrecords (fun batch hb => (hschema batch hb).1)
    (fun batch hb => (hschema batch hb).2.trans hle) hfirst
  obtain ⟨closed, hclosed, rfl, hdestination⟩ := closeWriter_writing hlast
  have hholds : ∀ record ∈ records, record.Holds closed.fields := by
    intro record hmem
    obtain ⟨batch, -, hr, -⟩ := exists_of_forall₂_right hterms hmem
    exact hr
  refine ⟨fields, records, closed, ⟨?_, ⟨_, bs, hbatches, hrecords⟩, hdestination⟩, hfields, harrows, hholds,
    fun name hname => ?_⟩
  · refine except_bind_eq_ok.mpr ⟨_, hbatches, except_bind_eq_ok.mpr ⟨_, hopen, ?_⟩⟩
    exact except_bind_eq_ok.mpr ⟨_, hwritten, hclosed⟩
  · rw [flatMap_eq_of_forall₂ (hterms.imp fun batch record hr => hr.2 name hname), ← List.map_flatMap,
      ← List.map_flatMap, hrows, List.map_map, List.map_map]
    refine List.map_congr_left fun row _ => ?_
    exact congrArg Except.ok (Row.get_map (fun name => encoded ((named row).get name)) hname)

end

/-! ## Reading -/

/-- The file has the fields, and its columns encode what those of the records do, in batches of its own. -/
structure Stores (file : ParquetFile) (fields : List Field) (records : List RecordBatch) : Prop where
  schema : file.schema = fields
  batches : ∃ stored : List RecordBatch, file.batches (selectRowGroups file.metaData none) = stored.map .ok ∧
    ∀ name ∈ fields.map Field.name, (stored.flatMap fun record => record.terms name) =
      records.flatMap fun record => record.terms name

section
variable {m : RecordBatch → Nat}

theorem toList_of_answers {schema : Schema} {given : List RecordBatch} {bs : List Batch}
    (h : List.Forall₂ (fun record batch => receiveBatch schema record = .ok batch) given bs) {fuel : Nat}
    {state : ReaderState}
    (hanswers : state.answers m fuel = given.map (fun record => .ok (some record)) ++ [.ok none]) :
    toList m schema fuel state = some (.ok bs) := by
  induction h generalizing fuel state with
  | nil =>
    cases fuel with
    | zero => cases hanswers
    | succ fuel =>
      rw [ReaderState.answers] at hanswers
      rw [toList]
      generalize state.nextBatch m = step at hanswers
      obtain ⟨answer, next⟩ := step
      cases answer with
      | error failure => cases hanswers
      | ok answer =>
        cases answer with
        | none => rfl
        | some record => cases hanswers
  | cons hhead _ ih =>
    cases fuel with
    | zero => cases hanswers
    | succ fuel =>
      rw [ReaderState.answers] at hanswers
      rw [toList]
      generalize state.nextBatch m = step at hanswers
      obtain ⟨answer, next⟩ := step
      cases answer with
      | error failure => cases hanswers
      | ok answer =>
        cases answer with
        | none => cases hanswers
        | some record =>
          obtain ⟨hrecord, hrest⟩ := List.cons.inj hanswers
          cases hrecord
          simp only [hhead, ih hrest]
          rfl

theorem untilFailure_stored {n : Nat} {stored : List RecordBatch} (h : ∀ record ∈ stored, record.columns.length = n) :
    untilFailure ((stored.map Except.ok).map (outcome none (List.range n))) =
      (stored.filter fun record => decide (record.numRows ≠ 0), none) := by
  induction stored with
  | nil => rfl
  | cons record stored ih =>
    rw [List.forall_mem_cons] at h
    have happly : applyPredicateAndProjection record none (List.range n) = .ok record := by
      rw [← h.1]
      exact if_pos rfl
    rw [List.map_cons, List.map_cons]
    unfold outcome at ih ⊢
    simp only [happly]
    by_cases h0 : record.numRows = 0
    · simp only [h0, if_true, untilFailure]
      rw [ih h.2]
      simp [h0]
    · simp only [h0, if_false, untilFailure]
      rw [ih h.2]
      simp [h0]

theorem receiveBatch_stored {schema : Schema} {arrows : List Field} {record : RecordBatch}
    (hholds : record.Holds arrows) (hnames : arrows.map Field.name = schema.names) (hnodup : schema.names.Nodup)
    (hok : ∀ name ∈ schema.names, ∀ result ∈ record.terms name, ∃ term, result = .ok term) :
    ∃ batch, receiveBatch schema record = .ok batch ∧ batch.schema = schema ∧
      ∀ name ∈ schema.names, (batch.column name).map .ok = record.terms name := by
  let values : String → List Term := fun name => (record.terms name).map fun result => result.toOption.getD .nil
  have hvalues : ∀ name ∈ schema.names, record.terms name = (values name).map .ok := by
    intro name hname
    rw [List.map_map]
    refine Eq.trans (List.map_id _).symm (List.map_congr_left fun result hresult => ?_)
    obtain ⟨term, rfl⟩ := hok name hname result hresult
    rfl
  have hlength : ∀ array ∈ record.columns, array.length = record.numRows := by
    intro array harray
    obtain ⟨field, -, -, hlength, -⟩ := exists_of_forall₂_right hholds.columns harray
    exact hlength
  obtain ⟨rfl, hcolumns⟩ := hholds
  have hnamed := forall₂_columnNamed record.numRows (hnames ▸ hnodup) hcolumns.length_eq
  have hterms : List.Forall₂ (fun field array => array.terms = (values (Field.name field)).map .ok) record.schema
      record.columns := by
    refine forall₂_of_mem hnamed fun field hfield array _ harray => ?_
    rw [← hvalues field.name (hnames ▸ List.mem_map_of_mem hfield)]
    exact (congrArg (fun column : Option ArrowArray => column.elim [] ArrowArray.terms) harray).symm
  obtain ⟨native, batch, hencode, hfrom, hschema, hcolumn⟩ := Batch.fromNative_encodeBatch hnames hterms hlength
  refine ⟨batch, ?_, hschema, fun name hname => by rw [hcolumn name hname, hvalues name hname]⟩
  unfold receiveBatch
  rw [hencode]
  exact except_bind_eq_ok.mpr ⟨native, rfl, TimePartition.liftError_eq_ok.mpr hfrom⟩

/-- An empty batch has nothing under a name. -/
theorem terms_of_empty {record : RecordBatch} {arrows : List Field} (hholds : record.Holds arrows)
    (hempty : record.numRows = 0) (name : String) : record.terms name = [] := by
  unfold RecordBatch.terms
  cases hnamed : record.columnNamed name with
  | none => rfl
  | some array =>
    obtain ⟨entry, hentry, rfl⟩ := Option.map_eq_some_iff.mp hnamed
    have hmem := (List.of_mem_zip (List.mem_of_find?_eq_some hentry)).2
    obtain ⟨field, -, -, hlength, -⟩ := exists_of_forall₂_right hholds.columns hmem
    rw [hempty] at hlength
    simp [ArrowArray.terms, hlength]

theorem flatMap_filter_terms {stored : List RecordBatch} {arrows : List Field}
    (hholds : ∀ record ∈ stored, record.Holds arrows) (name : String) :
    ((stored.filter fun record => decide (record.numRows ≠ 0)).flatMap fun record => record.terms name) =
      stored.flatMap fun record => record.terms name := by
  induction stored with
  | nil => rfl
  | cons record stored ih =>
    rw [List.forall_mem_cons] at hholds
    rw [List.flatMap_cons, ← ih hholds.2, List.filter_cons]
    by_cases h0 : record.numRows = 0
    · simp [h0, terms_of_empty hholds.1 h0 name]
    · simp [h0]

theorem decodeRows_eq {schema : Schema} {bs : List Batch} (h : ∀ batch ∈ bs, batch.schema = schema) :
    decodeRows bs = (bs.flatMap Batch.toRows).map (decodeRow schema) := by
  unfold decodeRows
  rw [List.map_flatMap]
  exact List.flatMap_congr fun batch hb => by rw [h batch hb]

/-- The batches of records whose columns are those of some rows expand to the rows. -/
theorem receive_stored {schema : Schema} {arrows : List Field} {stored : List RecordBatch}
    (hholds : ∀ record ∈ stored, record.Holds arrows) (hnames : arrows.map Field.name = schema.names)
    (hne : schema.names ≠ []) (hnodup : schema.names.Nodup) {rows : List Row}
    (hrows : ∀ row ∈ rows, row.map Prod.fst = schema.names)
    (hterms : ∀ name ∈ schema.names, (stored.flatMap fun record => record.terms name) =
      rows.map fun row => .ok (row.get name)) :
    ∃ bs, List.Forall₂ (fun record batch => receiveBatch schema record = .ok batch)
        (stored.filter fun record => decide (record.numRows ≠ 0)) bs ∧
      (∀ batch ∈ bs, batch.schema = schema) ∧ bs.flatMap Batch.toRows = rows := by
  have hreceive : ∀ record ∈ stored.filter fun record => decide (record.numRows ≠ 0),
      ∃ batch, receiveBatch schema record = .ok batch ∧ (batch.schema = schema ∧ ∀ name ∈ schema.names,
        (batch.column name).map .ok = record.terms name) := by
    intro record hrecord
    have hmem := (List.mem_filter.mp hrecord).1
    refine receiveBatch_stored (hholds record hmem) hnames hnodup fun name hname result hresult => ?_
    have hall : result ∈ stored.flatMap fun record => record.terms name :=
      List.mem_flatMap.mpr ⟨record, hmem, hresult⟩
    rw [hterms name hname] at hall
    obtain ⟨row, -, rfl⟩ := List.mem_map.mp hall
    exact ⟨_, rfl⟩
  obtain ⟨bs, hbs, hall⟩ := exists_mapM_related hreceive
  have hschema : ∀ batch ∈ bs, batch.schema = schema := by
    intro batch hb
    obtain ⟨record, -, hr, -⟩ := exists_of_forall₂_right hall hb
    exact hr
  have hcolumns : ∀ name ∈ schema.names,
      (bs.flatMap fun batch => batch.column name) = rows.map fun row => row.get name := by
    intro name hname
    have hmaps : (bs.flatMap fun batch => (batch.column name).map Except.ok) =
        rows.map fun row => (.ok (row.get name) : Except (Stop NativeFailure) Term) := by
      rw [flatMap_eq_of_forall₂ (hall.imp fun record batch hr => hr.2 name hname), flatMap_filter_terms hholds,
        hterms name hname]
    apply List.map_injective_iff.mpr fun _ _ => Except.ok.inj
    rw [List.map_flatMap, hmaps, List.map_map]
    rfl
  refine ⟨bs, mapM_eq_ok.mp hbs, hschema, ?_⟩
  rw [Batch.flatMap_toRows hne hschema hcolumns]
  refine Eq.trans (List.map_congr_left fun row hrow => ?_) (List.map_id _)
  have heq := Row.eq_map_get row (hrows row hrow ▸ hnodup)
  rwa [hrows row hrow] at heq

/-- A reader of all columns is opened over what the file stores. -/
theorem openBackend_stored {file : ParquetFile} {stored : List RecordBatch} {native : List NativeField}
    (hnative : nativeFields file.schema = .ok native)
    (hstored : file.batches (selectRowGroups file.metaData none) = stored.map .ok) (depth : Nat) :
    openBackend file { prefetchDepth := depth, columns := [], predicate := none } =
      .ok (openedReader (stored.map .ok) depth none (List.range file.schema.length), native) := by
  have hresults : file.decode .all (selectRowGroups file.metaData none) = stored.map .ok := by
    unfold ParquetFile.decode
    rw [hstored, List.map_map]
    rfl
  rw [← hresults]
  unfold openBackend
  simp only [native_eq_ok.mpr hnative, projectionIndices, compileOptional]
  rfl

/-- A file that stores the columns of some rows is read back as the decoded rows. -/
theorem read_stored {file : ParquetFile} {fields : List SchemaField} {arrows : List Field} {records : List RecordBatch}
    (hfile : Stores file arrows records) (hdecode : decodeFields (encodeFields fields) = .ok fields)
    (harrows : arrowFields fields = .ok arrows) (hnames : arrows.map Field.name = fields.map SchemaField.name)
    (hne : fields ≠ []) (hnodup : (fields.map SchemaField.name).Nodup) {rows : List Row}
    (hrows : ∀ row ∈ rows, row.map Prod.fst = fields.map SchemaField.name)
    (hterms : ∀ name ∈ fields.map SchemaField.name, (records.flatMap fun record => record.terms name) =
      rows.map fun row => .ok (row.get name)) {depth : Nat} (hdepth : 1 ≤ depth) {fuel : Nat}
    (hfuel : (file.batches (selectRowGroups file.metaData none)).length < fuel) :
    read m file depth fuel = some (.ok (rows.map (decodeRow { fields }))) := by
  obtain ⟨rfl, stored, hstored, hsame⟩ := hfile
  obtain ⟨-, ⟨arrows', harrows', hnative⟩, -⟩ := fields_comeBack fields hdecode
  rw [arrowChildren_encodeFields] at harrows'
  cases harrows.symm.trans harrows'
  have hholds : ∀ record ∈ stored, record.Holds file.schema := fun record hrecord =>
    file.holds _ record (hstored ▸ List.mem_map_of_mem hrecord)
  obtain ⟨bs, hreceived, hschema, rfl⟩ := @receive_stored { fields } _ _ hholds hnames
    (by simpa [Schema.names] using hne) hnodup _ hrows fun name hname => by
      rw [hsame name (hnames ▸ hname), hterms name hname]
  have hanswers : (openedReader (stored.map .ok) depth none (List.range file.schema.length)).answers m fuel =
      (stored.filter fun record => decide (record.numRows ≠ 0)).map (fun record => .ok (some record)) ++
        [.ok none] := by
    rw [openedReader_answers hdepth (hstored ▸ hfuel), untilFailure_stored fun record hrecord =>
      (hholds record hrecord).length]
    rfl
  have hfrom : Schema.fromNative (encodeFields fields) = .ok { fields } := except_map_eq_ok.mpr ⟨_, hdecode, rfl⟩
  unfold read
  rw [openBackend_stored hnative hstored]
  simp only [hfrom]
  rw [toList_of_answers hreceived hanswers, ← decodeRows_eq hschema]
  rfl

/-- Records of some fields are stored by a file that has them as its batches. -/
theorem exists_stores {arrows : List Field} {records : List RecordBatch}
    (h : ∀ record ∈ records, record.Holds arrows) : ∃ file, Stores file arrows records := by
  refine ⟨{
    schema := arrows
    metaData := { columns := [], rowGroups := [] }
    batches := fun _ => records.map .ok
    holds := fun rowGroups batch hbatch => ?_ }, rfl, records, rfl, fun _ _ => rfl⟩
  obtain ⟨record, hrecord, he⟩ := List.mem_map.mp hbatch
  exact Except.ok.inj he ▸ h record hrecord

end

/-! ## Round trip -/

/-- An instant in the years that the library counts from the epoch. -/
def InCalendar (d : DateTime) : Prop :=
  -377705116800000000 ≤ d.microseconds ∧ d.microseconds ≤ 253402300799999999

instance (d : DateTime) : Decidable (InCalendar d) := inferInstanceAs (Decidable (_ ∧ _))

/-- A date and time comes back in UTC to the microsecond, one outside the years as its count of microseconds. -/
def returned : Term → Term
  | .dateTime d =>
    if InCalendar d then .dateTime { microseconds := d.microseconds, precision := 6 } else .int d.microseconds
  | value => value

def returnedRow (names : List String) (row : InputRow) : Row :=
  (fieldNames names).map fun name => (name, returned ((named row).get name))

theorem fromUnix_microsecond (d : DateTime) : DateTime.fromUnix d.microseconds .microsecond =
    if InCalendar d then some { microseconds := d.microseconds, precision := 6 } else none := by
  have htotal : d.microseconds * TimeUnit.factor .microsecond / 1000 = d.microseconds := by
    simp [TimeUnit.factor]
  unfold DateTime.fromUnix
  rw [htotal]
  rfl

theorem decodeValue_encoded {kind : ColumnKind} {values : List Term} (h : Column kind values) {value : Term}
    (hv : value ∈ values) : decodeValue (encoded value) (.flat kind.type) = returned value := by
  rcases h.each value hv with rfl | hhas
  · rfl
  · cases kind with
    | boolean =>
      obtain ⟨b, rfl⟩ := hhas
      rfl
    | integer =>
      obtain ⟨n, -, rfl⟩ := hhas
      rfl
    | utf8 =>
      obtain ⟨s, rfl⟩ := hhas
      rfl
    | binary =>
      obtain ⟨s, rfl⟩ := hhas
      rfl
    | datetime =>
      obtain ⟨d, -, rfl⟩ := hhas
      simp only [encoded, ColumnKind.type, decodeValue, fromUnix_microsecond, returned]
      by_cases hd : InCalendar d <;> simp [hd]

theorem decodeRow_encoded {rows : List InputRow} {names : List String} {fields : List SchemaField}
    (h : FieldsOf rows names fields) {row : InputRow} (hrow : row ∈ rows) :
    decodeRow { fields } (encodedRow names row) = returnedRow names row := by
  unfold decodeRow returnedRow
  rw [← List.forall₂_eq_eq_eq, List.forall₂_map_left_iff, List.forall₂_map_right_iff]
  refine (forall₂_of_mem h fun name hname field _ hfield => ?_).flip
  obtain ⟨type, nullable, rfl, ⟨kind, hcolumn, rfl⟩, -⟩ := hfield
  have hget : (encodedRow names row).get name = encoded ((named row).get name) :=
    Row.get_map (fun name => encoded ((named row).get name)) hname
  change (name, decodeValue ((encodedRow names row).get name) (.flat kind.type)) = _
  rw [hget, decodeValue_encoded hcolumn (List.mem_map_of_mem hrow)]

theorem encodedRow_names (names : List String) (row : InputRow) :
    (encodedRow names row).map Prod.fst = fieldNames names := by
  unfold encodedRow
  rw [List.map_map]
  exact List.map_id _

/-- A file that stores the encoded rows is read back as what the rows come back as. -/
theorem read_encoded {m : RecordBatch → Nat} {rows : List InputRow} {names : List String} (h : Uniform rows names)
    {fields : List SchemaField} {arrows : List Field} (hfields : FieldsOf rows names fields)
    (harrows : arrowFields fields = .ok arrows) {records : List RecordBatch}
    (hterms : ∀ name ∈ fieldNames names, (records.flatMap fun record => record.terms name) =
      rows.map fun row => .ok (encoded ((named row).get name)))
    {file : ParquetFile} (hfile : Stores file arrows records) {depth : Nat} (hdepth : 1 ≤ depth) {fuel : Nat}
    (hfuel : (file.batches (selectRowGroups file.metaData none)).length < fuel) :
    read m file depth fuel = some (.ok (rows.map (returnedRow names))) := by
  obtain ⟨hdecode, -, -, arrows', harrows', hof⟩ := hfields.valid h.fieldNames_nonempty
  cases harrows.symm.trans harrows'
  have hne : fields ≠ [] := by
    rintro rfl
    exact h.fieldNames_ne hfields.names_eq.symm
  have hrows : ∀ row ∈ rows.map (encodedRow names), row.map Prod.fst = fields.map SchemaField.name := by
    intro row hrow
    obtain ⟨input, -, rfl⟩ := List.mem_map.mp hrow
    rw [encodedRow_names, hfields.names_eq]
  have hencoded : ∀ name ∈ fields.map SchemaField.name, (records.flatMap fun record => record.terms name) =
      (rows.map (encodedRow names)).map fun row => .ok (row.get name) := by
    intro name hname
    rw [hfields.names_eq] at hname
    rw [hterms name hname, List.map_map]
    refine List.map_congr_left fun row _ => congrArg Except.ok ?_
    exact (Row.get_map (fun name => encoded ((named row).get name)) hname).symm
  rw [read_stored hfile hdecode harrows (hof.names_eq.trans hfields.names_eq.symm) hne
    (hfields.names_eq ▸ h.fieldNames_nodup) hrows hencoded hdepth hfuel, List.map_map]
  have hreturned := List.map_congr_left fun row hrow => decodeRow_encoded hfields hrow
  exact congrArg (fun rows => some (Except.ok rows)) hreturned

/-- The same value, or the same instant. -/
def SameValue : Term → Term → Prop
  | .dateTime d, value => ∃ precision, value = .dateTime { microseconds := d.microseconds, precision }
  | given, value => value = given

def SameRow (row : InputRow) (row' : Row) : Prop :=
  (row'.map Prod.fst).Perm ((named row).map Prod.fst) ∧
    ∀ name ∈ row'.map Prod.fst, SameValue ((named row).get name) (row'.get name)

theorem sameRow_returned {rows : List InputRow} {names : List String} (h : Uniform rows names) {row : InputRow}
    (hrow : row ∈ rows) (hcalendar : ∀ name d, (named row).get name = .dateTime d → InCalendar d) :
    SameRow row (returnedRow names row) := by
  have hnames : (returnedRow names row).map Prod.fst = fieldNames names := by
    unfold returnedRow
    rw [List.map_map]
    exact List.map_id _
  refine ⟨?_, fun name hname => ?_⟩
  · rw [hnames]
    exact (fieldNames_perm names).trans (h.keys row hrow).symm
  · rw [hnames] at hname
    have hget : (returnedRow names row).get name = returned ((named row).get name) :=
      Row.get_map (fun name => returned ((named row).get name)) hname
    rw [hget]
    cases hvalue : (named row).get name with
    | dateTime d => exact ⟨6, if_pos (hcalendar name d hvalue)⟩
    | _ => rfl

/-- Rows are written in any batches, and come back from whatever file stores them. -/
theorem finite_round_trip {rows : List InputRow} {names : List String} (h : Uniform rows names)
    (inspect : Binary → String) (settings : WriterSettings) (hmax : settings.maxBatchRows ≤ 4294967295)
    {batchRows : Nat} (hpos : 0 < batchRows) (hle : batchRows ≤ settings.maxBatchRows) :
    ∃ writer records, Written settings inspect (inputOf rows) batchRows writer records ∧
      (∃ file, Stores file writer.fields records) ∧
      ∀ (m : RecordBatch → Nat) (file : ParquetFile), Stores file writer.fields records →
        ∀ depth fuel, 1 ≤ depth → (file.batches (selectRowGroups file.metaData none)).length < fuel →
          read m file depth fuel = some (.ok (rows.map (returnedRow names))) := by
  obtain ⟨fields, records, writer, hwritten, hfields, harrows, hholds, hterms⟩ :=
    write_uniform h inspect hpos hle (by omega)
  exact ⟨writer, records, hwritten, exists_stores hholds, fun m file hfile depth fuel hdepth hfuel =>
    read_encoded h hfields harrows hterms hfile hdepth hfuel⟩

def exampleSettings : WriterSettings where
  encoder := fun _ => ParquetWriter.countingEncoder
  maxBatchRows := 65536
  multipartBufferLimitBytes := 0
  key := "events.parquet"
  destination := none

/-- Two events, under atoms and strings. -/
def eventRows : List InputRow := [
  [(.atom "id", .int 1), (.string "at", .dateTime { microseconds := 1500, precision := 3 })],
  [(.string "id", .int 2), (.atom "at", .nil)]]

theorem eventRows_uniform : Uniform eventRows ["id", "at"] where
  rows_ne := List.cons_ne_nil _ _
  names_ne := List.cons_ne_nil _ _
  nodup := by decide
  nonempty := by decide
  keys := by decide
  column := by
    intro name hname
    simp only [List.mem_cons, List.not_mem_nil, or_false] at hname
    rcases hname with rfl | rfl
    · refine ⟨.integer, ?_, .int 1, List.mem_cons_self, 1, by decide, rfl⟩
      intro value hvalue
      simp only [eventRows, List.map_cons, List.map_nil, List.mem_cons, List.not_mem_nil, or_false] at hvalue
      rcases hvalue with rfl | rfl
      · exact .inr ⟨1, by decide, rfl⟩
      · exact .inr ⟨2, by decide, rfl⟩
    · refine ⟨.datetime, ?_, _, List.mem_cons_self, _, by decide, rfl⟩
      intro value hvalue
      simp only [eventRows, List.map_cons, List.map_nil, List.mem_cons, List.not_mem_nil, or_false] at hvalue
      rcases hvalue with rfl | rfl
      · exact .inr ⟨_, by decide, rfl⟩
      · exact .inl rfl

theorem finite_round_trip_two :
    ∃ writer records, Written exampleSettings (fun _ => "") (inputOf eventRows) 1 writer records ∧
      (∃ file, Stores file writer.fields records) ∧
      ∀ (m : RecordBatch → Nat) (file : ParquetFile), Stores file writer.fields records →
        ∀ depth fuel, 1 ≤ depth → (file.batches (selectRowGroups file.metaData none)).length < fuel →
          read m file depth fuel = some (.ok [
            [("at", .dateTime { microseconds := 1500, precision := 6 }), ("id", .int 1)],
            [("at", .nil), ("id", .int 2)]]) :=
  finite_round_trip eventRows_uniform (fun _ => "") exampleSettings (by decide) (by decide) (by decide)

/-- Half an hour before the end of the year 9999, an hour behind UTC. -/
def lateInstant : DateTime := { microseconds := 253402302600000000, precision := 0 }

def lateRows : List InputRow := [[(.atom "at", .dateTime lateInstant)]]

theorem lateRows_uniform : Uniform lateRows ["at"] where
  rows_ne := List.cons_ne_nil _ _
  names_ne := List.cons_ne_nil _ _
  nodup := by decide
  nonempty := by decide
  keys := by decide
  column := by
    intro name hname
    rw [List.mem_singleton.mp hname]
    refine ⟨.datetime, ?_, _, List.mem_cons_self, lateInstant, by decide, rfl⟩
    intro value hvalue
    rw [List.mem_singleton.mp hvalue]
    exact .inr ⟨lateInstant, by decide, rfl⟩

/-- An instant of the year 10000 in UTC comes back as an integer. -/
theorem late_instant_not_returned :
    ¬ ∀ (rows : List InputRow) (names : List String) (inspect : Binary → String) (settings : WriterSettings)
      (batchRows : Nat) (writer : Writer) (records : List RecordBatch) (m : RecordBatch → Nat) (file : ParquetFile)
      (depth fuel : Nat), Uniform rows names → settings.maxBatchRows ≤ 4294967295 → 0 < batchRows →
      batchRows ≤ settings.maxBatchRows → Written settings inspect (inputOf rows) batchRows writer records →
      Stores file writer.fields records → 1 ≤ depth →
      (file.batches (selectRowGroups file.metaData none)).length < fuel →
      ∃ rows', read m file depth fuel = some (.ok rows') ∧ List.Forall₂ SameRow rows rows' := by
  intro h
  obtain ⟨fields, records, writer, hwritten, hfields, harrows, hholds, hterms⟩ :=
    @write_uniform exampleSettings lateRows ["at"] lateRows_uniform (fun _ => "") 1 (by decide) (by decide) (by decide)
  obtain ⟨file, hfile⟩ := exists_stores hholds
  obtain ⟨rows', hread, hrows⟩ := h lateRows ["at"] (fun _ => "") exampleSettings 1 writer records (fun _ => 0) file 1 _
    lateRows_uniform (by decide) (by decide) (by decide) hwritten hfile (Nat.le_refl 1) (Nat.lt_succ_self _)
  rw [read_encoded lateRows_uniform hfields harrows hterms hfile (Nat.le_refl 1) (Nat.lt_succ_self _)] at hread
  cases hread
  obtain ⟨⟨-, hvalue⟩, -⟩ := List.forall₂_cons.mp hrows
  obtain ⟨precision, hinstant⟩ := hvalue "at" (by decide)
  cases hinstant

end Finite

end Parquex
