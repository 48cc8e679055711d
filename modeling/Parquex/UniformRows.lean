import Parquex.FiniteRows
import Parquex.InferSound
import Parquex.Utf8Order

/-!
# Rows of one shape

Rows that have the same names, each of which holds values of one kind and nils,
have an inferred schema, and make batches of it that hold the encoded rows.
-/

namespace Parquex

namespace Finite

/-! ## Rows -/

/-- A key of a row map. -/
inductive RowKey
  | atom (name : String)
  | string (name : String)
  deriving DecidableEq, Repr

def RowKey.name : RowKey → String
  | .atom name => name
  | .string name => name

def RowKey.term : RowKey → Term
  | .atom name => .atom name
  | .string name => .text name

abbrev InputRow := List (RowKey × Term)

/-- The row under the names of its keys. -/
def named (row : InputRow) : Row := row.map fun entry => (entry.1.name, entry.2)

def rowTerm (row : InputRow) : Term := .map (row.map fun entry => (entry.1.term, entry.2))

def inputOf (rows : List InputRow) : Term := .list (rows.map rowTerm)

/-! ## Columns -/

/-- The kinds of values that a column can hold. -/
inductive ColumnKind
  | boolean | integer | utf8 | binary | datetime
  deriving DecidableEq, Repr

namespace ColumnKind

def Has : ColumnKind → Term → Prop
  | .boolean, value => ∃ b, value = encodeBoolean b
  | .integer, value => ∃ n, inI64 n = true ∧ value = .int n
  | .utf8, value => ∃ s, value = .binary (.text s)
  | .binary, value => ∃ s, value = .binary (.raw s)
  | .datetime, value => ∃ d, inI64 d.microseconds = true ∧ value = .dateTime d

def kind : ColumnKind → Input.ValueKind
  | .boolean => .boolean
  | .integer => .integer
  | .utf8 => .utf8
  | .binary => .binary
  | .datetime => .datetime

def type : ColumnKind → FlatType
  | .boolean => .boolean
  | .integer => .integer 64 true
  | .utf8 => .utf8
  | .binary => .binary
  | .datetime => .timestamp .microsecond (some "UTC")

end ColumnKind

/-- Values of one kind and nils. -/
structure Column (kind : ColumnKind) (values : List Term) : Prop where
  each : ∀ value ∈ values, value = .nil ∨ kind.Has value
  some : ∃ value ∈ values, kind.Has value

/-- Rows with the same names, and a column of one kind under each. -/
structure Uniform (rows : List InputRow) (names : List String) : Prop where
  rows_ne : rows ≠ []
  names_ne : names ≠ []
  nodup : names.Nodup
  nonempty : "" ∉ names
  keys : ∀ row ∈ rows, ((named row).map Prod.fst).Perm names
  column : ∀ name ∈ names, ∃ kind, Column kind (rows.map fun row => (named row).get name)

/-! ## Names -/

/-- The entries of a row under its normalized names. -/
def pairsOf (row : InputRow) : List (Binary × Term) := (named row).map fun entry => (.text entry.1, entry.2)

theorem pairsOf_keys (row : InputRow) : (pairsOf row).map Prod.fst = ((named row).map Prod.fst).map Binary.text := by
  unfold pairsOf
  rw [List.map_map, List.map_map]
  rfl

theorem lookup_pairsOf (row : InputRow) (name : String) :
    (pairsOf row).lookup (.text name) = (named row).lookup name := by
  unfold pairsOf
  induction named row with
  | nil => rfl
  | cons entry entries ih =>
    obtain ⟨key, value⟩ := entry
    rw [List.map_cons, List.lookup_cons, List.lookup_cons, ih]
    by_cases hn : name = key
    · simp [hn]
    · have htext : Binary.text name ≠ .text key := fun h => hn (Binary.text.inj h)
      simp [beq_eq_false_iff_ne.mpr hn, beq_eq_false_iff_ne.mpr htext]

theorem normalizeRow_rowTerm {row : InputRow} (hnodup : ((named row).map Prod.fst).Nodup)
    (hne : "" ∉ (named row).map Prod.fst) : Input.normalizeRow (rowTerm row) = .ok (pairsOf row) := by
  refine Input.normalizeRow_map_eq_ok.mpr ⟨?_, ?_⟩
  · unfold pairsOf named
    rw [List.map_map, List.map_map, List.map_map]
    refine List.map_congr_left fun entry he => ?_
    have hname : entry.1.name ≠ "" := by
      intro h
      refine hne (h ▸ ?_)
      rw [named, List.map_map]
      exact List.mem_map_of_mem he
    obtain ⟨key, value⟩ := entry
    cases key with
    | atom name => rfl
    | string name =>
      have htext : Binary.text name ≠ .text "" := fun h => hname (Binary.text.inj h)
      simp [RowKey.term, RowKey.name, Term.text, Input.normalizeName, htext]
  · rw [pairsOf_keys]
    exact hnodup.map fun _ _ => Binary.text.inj

/-- The names in the order of the inferred fields. -/
def fieldNames (names : List String) : List String := names.insertionSort (· ≤ ·)

theorem fieldNames_perm (names : List String) : (fieldNames names).Perm names := List.perm_insertionSort _ _

theorem fieldNames_eq {names names' : List String} (h : names.Perm names') : fieldNames names = fieldNames names' := by
  refine List.Perm.eq_of_pairwise' (List.pairwise_insertionSort (· ≤ ·) _) (List.pairwise_insertionSort (· ≤ ·) _) ?_
  exact (fieldNames_perm names).trans (h.trans (fieldNames_perm names').symm)

theorem sortNames_text (names : List String) :
    Input.sortNames (names.map .text) = (fieldNames names).map .text := by
  unfold Input.sortNames fieldNames
  refine (List.map_insertionSort _ _ _ _ fun left _ right _ => ?_).symm
  change left ≤ right ↔ ¬ utf8Bytes right < utf8Bytes left
  rw [utf8Bytes_lt_iff, not_lt]

theorem Uniform.fieldNames_ne {rows : List InputRow} {names : List String} (h : Uniform rows names) :
    fieldNames names ≠ [] := by
  intro hnil
  exact h.names_ne (List.Perm.nil_eq (hnil ▸ fieldNames_perm names)).symm

theorem Uniform.fieldNames_nodup {rows : List InputRow} {names : List String} (h : Uniform rows names) :
    (fieldNames names).Nodup := (fieldNames_perm names).nodup_iff.mpr h.nodup

theorem Uniform.fieldNames_nonempty {rows : List InputRow} {names : List String} (h : Uniform rows names) :
    ∀ name ∈ fieldNames names, name ≠ "" :=
  fun _ hname he => h.nonempty (he ▸ (fieldNames_perm names).mem_iff.mp hname)

theorem consistentNames_uniform {rows : List InputRow} {names : List String} (h : Uniform rows names) :
    Input.consistentNames (rows.map pairsOf) = .ok ((fieldNames names).map .text) := by
  have hsorted : ∀ row ∈ rows, Input.sortNames ((pairsOf row).map Prod.fst) = (fieldNames names).map .text := by
    intro row hrow
    rw [pairsOf_keys, sortNames_text, fieldNames_eq (h.keys row hrow)]
  obtain ⟨row, rest, rfl⟩ := List.exists_cons_of_ne_nil h.rows_ne
  have hne : (fieldNames names).map Binary.text ≠ [] := by simpa using h.fieldNames_ne
  unfold Input.consistentNames
  simp only [List.map_cons, List.headD_cons, hsorted row List.mem_cons_self]
  refine if_pos ⟨hne, fun pairs hp => ?_⟩
  rw [← List.map_cons] at hp
  obtain ⟨row', hrow', rfl⟩ := List.mem_map.mp hp
  exact hsorted row' hrow'

/-! ## Inference -/

namespace ColumnKind

variable {kind : ColumnKind} {value : Term}

theorem valueKind_of_has (h : kind.Has value) : Input.valueKind value = kind.kind ∧ value.isNil = false := by
  cases kind with
  | boolean =>
    obtain ⟨b, rfl⟩ := h
    cases b <;> exact ⟨rfl, rfl⟩
  | integer =>
    obtain ⟨n, -, rfl⟩ := h
    exact ⟨rfl, rfl⟩
  | utf8 =>
    obtain ⟨s, rfl⟩ := h
    exact ⟨rfl, rfl⟩
  | binary =>
    obtain ⟨s, rfl⟩ := h
    exact ⟨rfl, rfl⟩
  | datetime =>
    obtain ⟨d, -, rfl⟩ := h
    exact ⟨rfl, rfl⟩

theorem kindsType_of_kind {kinds : List Input.ValueKind} (hne : kinds ≠ []) (h : ∀ k ∈ kinds, k = kind.kind) :
    Input.kindsType kinds = some kind.type := by
  obtain ⟨first, hfirst⟩ := List.exists_mem_of_ne_nil _ hne
  have hall : ∀ P : Input.ValueKind → Prop, (∀ k ∈ kinds, P k) ↔ P kind.kind := fun P =>
    ⟨fun hP => h first hfirst ▸ hP first hfirst, fun hP k hk => (h k hk).symm ▸ hP⟩
  unfold Input.kindsType
  simp only [hall (· = .integer), hall (fun k => k = .integer ∨ k = .float), hall (· = .boolean), hall (· = .utf8),
    hall (· = .binary), hall (· = .datetime)]
  cases kind <;> rfl

end ColumnKind

theorem inferField_column (inspect : Binary → String) (name : Binary) {kind : ColumnKind} {values : List Term}
    (h : Column kind values) : ∃ nullable, Input.inferField inspect name values = .ok ⟨name, kind.type, nullable⟩ := by
  have hkinds : ∀ k ∈ (values.filter fun value => !value.isNil).map Input.valueKind, k = kind.kind := by
    intro k hk
    obtain ⟨value, hvalue, rfl⟩ := List.mem_map.mp hk
    obtain ⟨hvalue, hnil⟩ := List.mem_filter.mp hvalue
    rcases h.each value hvalue with rfl | hhas
    · cases hnil
    · exact (ColumnKind.valueKind_of_has hhas).1
  obtain ⟨value, hvalue, hhas⟩ := h.some
  have hmem : value ∈ values.filter fun value => !value.isNil :=
    List.mem_filter.mpr ⟨hvalue, by simp [(ColumnKind.valueKind_of_has hhas).2]⟩
  have hne : (values.filter fun value => !value.isNil) ≠ [] := List.ne_nil_of_mem hmem
  refine ⟨_, except_map_eq_ok.mpr ⟨kind.type, ?_, rfl⟩⟩
  unfold Input.inferType
  rw [if_neg hne, ColumnKind.kindsType_of_kind (by simpa using hne) hkinds]

/-- The values of the rows under a name. -/
def valuesOf (rows : List InputRow) (name : String) : List Term := rows.map fun row => (named row).get name

theorem lookup_of_key {row : Row} {name : String} (h : name ∈ row.map Prod.fst) :
    row.lookup name = some (row.get name) := by
  obtain ⟨entry, hentry, rfl⟩ := List.mem_map.mp h
  unfold Row.get
  cases hl : row.lookup entry.1 with
  | none =>
    have hne := List.lookup_eq_none_iff.mp hl entry hentry
    simp at hne
  | some value => rfl

/-- A field for the values of the rows under a name. -/
structure FieldOf (rows : List InputRow) (name : String) (type : FlatType) (nullable : Bool) : Prop where
  type : ∃ kind, Column kind (valuesOf rows name) ∧ type = kind.type
  nullable : .nil ∈ valuesOf rows name → nullable = true

theorem infer_uniform {rows : List InputRow} {names : List String} (h : Uniform rows names)
    (inspect : Binary → String) :
    ∃ inferred, Input.infer inspect (rows.map rowTerm) = .ok inferred ∧ List.Forall₂
      (fun name field => field.name = .text name ∧ FieldOf rows name field.type field.nullable)
      (fieldNames names) inferred := by
  have hnormal : (rows.map rowTerm).mapM Input.normalizeRow = .ok (rows.map pairsOf) := by
    rw [mapM_eq_ok, List.forall₂_map_left_iff, List.forall₂_map_right_iff, List.forall₂_same]
    intro row hrow
    have hperm := h.keys row hrow
    exact normalizeRow_rowTerm (hperm.nodup_iff.mpr h.nodup) fun hempty => h.nonempty (hperm.mem_iff.mp hempty)
  have hfield : ∀ name ∈ fieldNames names, ∃ field : Input.InferredField,
      ((rows.map pairsOf).mapM (fun row => Input.fetchField row (.text name)) >>= fun values =>
        TimePartition.liftError (Input.inferField inspect (.text name) values)) = .ok field ∧
      field.name = .text name ∧ FieldOf rows name field.type field.nullable := by
    intro name hname
    have hname' : name ∈ names := (fieldNames_perm names).mem_iff.mp hname
    have hvalues : (rows.map pairsOf).mapM (fun row => Input.fetchField row (.text name)) =
        .ok (valuesOf rows name) := by
      unfold valuesOf
      rw [mapM_eq_ok, List.forall₂_map_left_iff, List.forall₂_map_right_iff, List.forall₂_same]
      intro row hrow
      rw [Input.fetchField_eq_ok, lookup_pairsOf]
      exact lookup_of_key ((h.keys row hrow).mem_iff.mpr hname')
    obtain ⟨kind, hcolumn⟩ := h.column name hname'
    obtain ⟨nullable, hfield⟩ := inferField_column inspect (.text name) hcolumn
    have hlifted := TimePartition.liftError_eq_ok.mpr hfield
    refine ⟨_, except_bind_eq_ok.mpr ⟨_, hvalues, hlifted⟩, rfl, ⟨kind, hcolumn, rfl⟩, ?_⟩
    exact fun hnil => (Input.inferField_eq_ok hfield).2.2 .nil hnil rfl
  obtain ⟨inferred, hinferred, hall⟩ := exists_mapM_related hfield
  refine ⟨inferred, ?_, hall⟩
  have hnames := TimePartition.liftError_eq_ok.mpr (consistentNames_uniform h)
  unfold Input.infer
  rw [if_neg (by simpa using h.rows_ne)]
  refine except_bind_eq_ok.mpr ⟨_, hnormal, except_bind_eq_ok.mpr ⟨_, hnames, mapM_eq_ok.mpr ?_⟩⟩
  rw [List.forall₂_map_left_iff]
  exact mapM_eq_ok.mp hinferred

/-! ## Batches -/

/-- A date and time is encoded by its count of microseconds. -/
def encoded : Term → Term
  | .dateTime d => .int d.microseconds
  | value => value

def encodedRow (names : List String) (row : InputRow) : Row :=
  (fieldNames names).map fun name => (name, encoded ((named row).get name))

theorem encodeValue_column {kind : ColumnKind} {values : List Term} (h : Column kind values) {value : Term}
    (hv : value ∈ values) : Input.encodeValue value (.flat kind.type) = .ok (encoded value) := by
  rcases h.each value hv with rfl | hhas
  · cases kind <;> rfl
  · cases kind with
    | boolean =>
      obtain ⟨b, rfl⟩ := hhas
      rfl
    | integer =>
      obtain ⟨n, -, rfl⟩ := hhas
      rfl
    | utf8 =>
      obtain ⟨s, rfl⟩ := hhas
      rfl
    | binary =>
      obtain ⟨s, rfl⟩ := hhas
      rfl
    | datetime =>
      obtain ⟨d, -, rfl⟩ := hhas
      exact congrArg (fun n => Except.ok (Term.int n)) (Input.toUnix_microsecond d)

/-- The fields of a schema for the rows. -/
def FieldsOf (rows : List InputRow) (names : List String) (fields : List SchemaField) : Prop :=
  List.Forall₂ (fun name field => ∃ type nullable, field = .mk name (.flat type) nullable ∧
    FieldOf rows name type nullable) (fieldNames names) fields

namespace FieldsOf

variable {rows : List InputRow} {names : List String} {fields : List SchemaField}

theorem names_eq (h : FieldsOf rows names fields) : fields.map SchemaField.name = fieldNames names := by
  refine Eq.symm (List.forall₂_eq_eq_eq ▸ List.forall₂_map_right_iff.mpr (List.Forall₂.imp ?_ h))
  rintro name field ⟨type, nullable, rfl, -⟩
  rfl

theorem encodeRow (h : FieldsOf rows names fields) (hrows : Uniform rows names) {row : InputRow} (hrow : row ∈ rows) :
    Input.encodeRow { fields } (pairsOf row) = .ok (encodedRow names row) := by
  refine mapM_eq_ok.mpr ?_
  unfold encodedRow
  rw [List.forall₂_map_right_iff]
  refine (forall₂_of_mem h fun name hname field _ hfield => ?_).flip
  obtain ⟨type, nullable, rfl, ⟨kind, hcolumn, rfl⟩, -⟩ := hfield
  have hkey := (hrows.keys row hrow).mem_iff.mpr ((fieldNames_perm names).mem_iff.mp hname)
  refine Input.encodeField_eq_ok.mpr ⟨_, _, ?_, encodeValue_column hcolumn ?_, rfl⟩
  · rw [← lookup_of_key hkey]
    exact lookup_pairsOf row name
  · exact List.mem_map_of_mem hrow

end FieldsOf

theorem exists_fields {inferred : List Input.InferredField} {rows : List InputRow} {names : List String}
    (h : List.Forall₂ (fun name field => Input.InferredField.name field = .text name ∧
      FieldOf rows name field.type field.nullable) (fieldNames names) inferred) :
    ∃ fields, inferred.mapM inferredField = .ok fields ∧ FieldsOf rows names fields := by
  unfold FieldsOf
  generalize fieldNames names = fieldNames at h
  induction h with
  | nil => exact ⟨[], rfl, .nil⟩
  | @cons name field _ _ hhead _ ih =>
    obtain ⟨fields, hfields, hall⟩ := ih
    obtain ⟨hname, hfield⟩ := hhead
    refine ⟨.mk name (.flat field.type) field.nullable :: fields, ?_, .cons ⟨_, _, rfl, hfield⟩ hall⟩
    rw [List.mapM_cons, inferredField, hname]
    simp only [hfields, bind, Except.bind, pure, Except.pure]

theorem finiteRows_inputOf (rows : List InputRow) : Input.finiteRows (inputOf rows) = .ok (rows.map rowTerm) := by
  unfold Input.finiteRows inputOf
  refine if_pos ?_
  simp [rowTerm, Input.isMap, List.all_map, Function.comp_def]

theorem batches_uniform {rows : List InputRow} {names : List String} (h : Uniform rows names)
    {fields : List SchemaField} (hfields : FieldsOf rows names fields) {batchRows : Nat} (hpos : 0 < batchRows) :
    ∃ bs, Input.batches (.list (rows.map rowTerm)) { fields } batchRows = .ok bs ∧
      (∀ batch ∈ bs, batch.schema = { fields } ∧ batch.rowCount ≤ batchRows) ∧
      bs.flatMap Batch.toRows = rows.map (encodedRow names) := by
  have hschema : Schema.names { fields } = fieldNames names := hfields.names_eq
  have hperm := fieldNames_perm names
  have hne : Schema.names { fields } ≠ [] := hschema ▸ h.fieldNames_ne
  have hnormal : ∀ row ∈ rows, Input.normalizeRow (rowTerm row) = .ok (pairsOf row) := fun row hrow =>
    normalizeRow_rowTerm ((h.keys row hrow).nodup_iff.mpr h.nodup) fun hempty =>
      h.nonempty ((h.keys row hrow).mem_iff.mp hempty)
  have hkeys : ∀ row ∈ rows, ((pairsOf row).map Prod.fst).Perm ((Schema.names { fields }).map .text) := by
    intro row hrow
    rw [pairsOf_keys, hschema]
    exact ((h.keys row hrow).trans hperm.symm).map _
  have hexists : ∃ bs, Input.batches (.list (rows.map rowTerm)) { fields } batchRows = .ok bs := by
    refine Input.exists_batches (finiteRows_inputOf rows) hpos hne (hschema ▸ h.fieldNames_nodup) ?_
    intro term hterm
    obtain ⟨row, hrow, rfl⟩ := List.mem_map.mp hterm
    exact ⟨pairsOf row, hnormal row hrow, fun key => (hkeys row hrow).mem_iff, _, hfields.encodeRow h hrow⟩
  obtain ⟨bs, hbs⟩ := hexists
  obtain ⟨hsame, hencoded⟩ := Input.batches_eq_ok hpos hne hbs
  have hcounts := Input.batches_rowCount hpos hne (by simpa using h.rows_ne) hbs
  refine ⟨bs, hbs, fun batch hb => ⟨hsame batch hb, (hcounts batch hb).2⟩, ?_⟩
  rw [List.forall₂_map_left_iff] at hencoded
  symm
  rw [← List.forall₂_eq_eq_eq, List.forall₂_map_left_iff]
  refine forall₂_of_mem hencoded fun row hrow e _ he => ?_
  obtain ⟨pairs, hpairs, -, he⟩ := Input.encodedRow_eq_ok.mp he
  cases (hnormal row hrow).symm.trans hpairs
  exact Except.ok.inj ((hfields.encodeRow h hrow).symm.trans he)

/-- The rows have an inferred schema, and batches under it that hold them encoded. -/
theorem inferAndBatches_uniform {rows : List InputRow} {names : List String} (h : Uniform rows names)
    (inspect : Binary → String) {batchRows : Nat} (hpos : 0 < batchRows) :
    ∃ fields bs, inferAndBatches inspect (inputOf rows) batchRows = .ok ({ fields }, bs) ∧ FieldsOf rows names fields ∧
      (∀ batch ∈ bs, batch.schema = { fields } ∧ batch.rowCount ≤ batchRows) ∧
      bs.flatMap Batch.toRows = rows.map (encodedRow names) := by
  obtain ⟨inferred, hinferred, hall⟩ := infer_uniform h inspect
  obtain ⟨fields, hfields, hof⟩ := exists_fields hall
  obtain ⟨bs, hbs, hschema, hrows⟩ := batches_uniform h hof hpos
  refine ⟨fields, bs, ?_, hof, hschema, hrows⟩
  unfold inferAndBatches
  refine except_bind_eq_ok.mpr ⟨_, TimePartition.liftError_eq_ok.mpr (finiteRows_inputOf rows), ?_⟩
  refine except_bind_eq_ok.mpr ⟨_, hinferred, except_bind_eq_ok.mpr ⟨_, hfields, ?_⟩⟩
  exact except_bind_eq_ok.mpr ⟨_, TimePartition.liftError_eq_ok.mpr hbs, rfl⟩

end Finite

end Parquex
