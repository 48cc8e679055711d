import Parquex.ColumnRows
import Parquex.FlatBuilder
import Parquex.TimePartition

/-!
# Inferred columns in the native decoder

A column of an inferred schema is handed to a flat builder of its inferred type.
The builder takes each value of each kind, but for the width of an integer:
inference makes a column of integers one of 64 bits whatever they are.
-/

namespace Parquex

namespace Input

/-! ## Kinds and types -/

/-- The kinds of a column and the type inferred of them. -/
inductive Inferred (kinds : List ValueKind) : FlatType → Prop
  | integer : (∀ kind ∈ kinds, kind = .integer) → Inferred kinds (.integer 64 true)
  | float : (∃ kind ∈ kinds, kind ≠ .integer) → (∀ kind ∈ kinds, kind = .integer ∨ kind = .float) →
    Inferred kinds (.float 64)
  | boolean : (∀ kind ∈ kinds, kind = .boolean) → Inferred kinds .boolean
  | utf8 : (∀ kind ∈ kinds, kind = .utf8) → Inferred kinds .utf8
  | binary : (∀ kind ∈ kinds, kind = .binary) → Inferred kinds .binary
  | datetime : (∀ kind ∈ kinds, kind = .datetime) → Inferred kinds (.timestamp .microsecond (some "UTC"))

theorem inferred_of_kindsType {kinds : List ValueKind} {type : FlatType} (h : kindsType kinds = some type) :
    Inferred kinds type := by
  unfold kindsType at h
  split at h
  · next hkinds => exact Option.some.inj h ▸ .integer hkinds
  · next hinteger =>
    split at h
    · next hkinds => exact Option.some.inj h ▸ .float (by simpa using hinteger) hkinds
    · split at h
      · next hkinds => exact Option.some.inj h ▸ .boolean hkinds
      · split at h
        · next hkinds => exact Option.some.inj h ▸ .utf8 hkinds
        · split at h
          · next hkinds => exact Option.some.inj h ▸ .binary hkinds
          · split at h
            · next hkinds => exact Option.some.inj h ▸ .datetime hkinds
            · cases h

/-- What the values of a kind are. -/
def ValueKind.Holds : ValueKind → Term → Prop
  | .boolean, value => value = .atom "true" ∨ value = .atom "false"
  | .integer, value => ∃ n, value = .int n
  | .float, value => ∃ x, value = .float x
  | .datetime, value => ∃ d, value = .dateTime d
  | .utf8, value => ∃ s, value = .binary (.text s)
  | .binary, value => ∃ s, value = .binary (.raw s)
  | .unsupported, _ => True

theorem valueKind_holds (value : Term) : (valueKind value).Holds value := by
  cases value with
  | atom name =>
    by_cases hname : name = "true" ∨ name = "false"
    · simp only [valueKind, hname, if_true]
      exact hname.imp (congrArg _) (congrArg _)
    · simp only [valueKind, hname, if_false]
      exact trivial
  | binary value => cases value <;> exact ⟨_, rfl⟩
  | int | float | dateTime => exact ⟨_, rfl⟩
  | _ => exact trivial

/-- A value of the kinds of a column that fits the width of its type. -/
def FitsType (type : FlatType) (value : Term) : Prop :=
  match type, value with
  | .integer _ _, .int value => inI64 value = true
  | .timestamp _ _, .dateTime value => inI64 value.microseconds = true
  | _, _ => True

theorem int64_takes (value : Int) : (Storage.integer .int64).takes (.int value) = inI64 value := by
  simp only [Storage.takes, Term.isNil, integer?, Term.int?, Bool.false_or, Option.filter]
  have hholds : IntegerType.int64.holds value = inI64 value := rfl
  rw [hholds]
  cases inI64 value <;> rfl

theorem toUnix_microsecond (value : DateTime) : value.toUnix .microsecond = value.microseconds := by
  simp [DateTime.toUnix, TimeUnit.factor]

/-- A value of one of the kinds is encoded to one that the builder of the type takes when it fits. -/
theorem takes_inferred {kinds : List ValueKind} {type : FlatType} (htype : Inferred kinds type) {value encoded : Term}
    (hkind : valueKind value ∈ kinds) (hencode : encodeValue value (.flat type) = .ok encoded) :
    ∃ scalar, type.arrow? = some scalar ∧ encoded.isNil = false ∧
      (scalar.storage.takes encoded = true ↔ FitsType type value) := by
  have hholds := valueKind_holds value
  cases htype with
  | integer hkinds =>
    rw [hkinds _ hkind] at hholds
    obtain ⟨value, rfl⟩ := hholds
    cases hencode
    exact ⟨_, rfl, rfl, by rw [ScalarType.storage, int64_takes]; rfl⟩
  | float _ hkinds =>
    rcases hkinds _ hkind with hk | hk <;> rw [hk] at hholds <;> obtain ⟨value, rfl⟩ := hholds
    · simp only [encodeValue] at hencode
      cases hf : float64? value with
      | none =>
        rw [hf] at hencode
        cases hencode
      | some double =>
        rw [hf] at hencode
        cases hencode
        exact ⟨_, rfl, rfl, iff_of_true rfl trivial⟩
    · cases hencode
      exact ⟨_, rfl, rfl, iff_of_true rfl trivial⟩
  | boolean hkinds =>
    rw [hkinds _ hkind] at hholds
    rcases hholds with rfl | rfl <;> cases hencode
    · exact ⟨_, rfl, rfl, iff_of_true rfl trivial⟩
    · exact ⟨_, rfl, rfl, iff_of_true rfl trivial⟩
  | utf8 hkinds =>
    rw [hkinds _ hkind] at hholds
    obtain ⟨value, rfl⟩ := hholds
    cases hencode
    exact ⟨_, rfl, rfl, iff_of_true rfl trivial⟩
  | binary hkinds =>
    rw [hkinds _ hkind] at hholds
    obtain ⟨value, rfl⟩ := hholds
    cases hencode
    exact ⟨_, rfl, rfl, iff_of_true rfl trivial⟩
  | datetime hkinds =>
    rw [hkinds _ hkind] at hholds
    obtain ⟨value, rfl⟩ := hholds
    cases hencode
    exact ⟨_, rfl, rfl, by rw [ScalarType.storage, int64_takes, toUnix_microsecond]; rfl⟩

/-- The integers of a column of integers, and dates and times in microseconds, fit 64 bits. -/
def Fits64 (values : List Term) : Prop :=
  ((∀ value ∈ values, value.isNil = true ∨ ∃ n, value = .int n) → ∀ n, .int n ∈ values → inI64 n = true) ∧
    ∀ d, .dateTime d ∈ values → inI64 d.microseconds = true

section
variable {values : List Term} {type : FlatType}

theorem nonNil_of_kind (h : ∀ kind ∈ (values.filter fun value => !value.isNil).map valueKind, kind = .integer)
    {value : Term} (hv : value ∈ values) : value.isNil = true ∨ ∃ n, value = .int n := by
  by_cases hn : value.isNil = true
  · exact Or.inl hn
  · have hkind := h (valueKind value) (List.mem_map_of_mem (List.mem_filter.mpr ⟨hv, by simpa using hn⟩))
    have hholds := valueKind_holds value
    rw [hkind] at hholds
    exact Or.inr hholds

theorem fits_iff (htype : Inferred ((values.filter fun value => !value.isNil).map valueKind) type) :
    (∀ value ∈ values, value.isNil = false → FitsType type value) ↔ Fits64 values := by
  have hmem : ∀ value ∈ values, value.isNil = false →
      valueKind value ∈ (values.filter fun value => !value.isNil).map valueKind :=
    fun value hv hn => List.mem_map_of_mem (List.mem_filter.mpr ⟨hv, by simp [hn]⟩)
  have hother : ∀ kind : ValueKind, kind ≠ .integer → kind ≠ .datetime →
      (∀ k ∈ (values.filter fun value => !value.isNil).map valueKind, k = kind) → Fits64 values := by
    intro kind hint hdate hkinds
    refine ⟨fun _ n hn => absurd (hkinds _ (hmem _ hn rfl)).symm hint, fun d hd => ?_⟩
    exact absurd (hkinds _ (hmem _ hd rfl)).symm hdate
  cases htype with
  | integer hkinds =>
    constructor
    · intro h
      refine ⟨fun _ n hn => h _ hn rfl, fun d hd => ?_⟩
      cases hkinds _ (hmem _ hd rfl)
    · intro h value hv hn
      rcases nonNil_of_kind hkinds hv with hnil | ⟨n, rfl⟩
      · rw [hn] at hnil
        cases hnil
      · exact h.1 (fun value hv => nonNil_of_kind hkinds hv) n hv
  | float hsome hkinds =>
    refine iff_of_true (fun _ _ _ => trivial) ⟨fun hall => ?_, fun d hd => ?_⟩
    · obtain ⟨kind, hkind, hne⟩ := hsome
      obtain ⟨value, hv, rfl⟩ := List.mem_map.mp hkind
      obtain ⟨hv, hn⟩ := List.mem_filter.mp hv
      rcases hall value hv with hnil | ⟨n, rfl⟩
      · simp [hnil] at hn
      · exact absurd rfl hne
    · rcases hkinds _ (hmem _ hd rfl) with hk | hk <;> cases hk
  | boolean hkinds => exact iff_of_true (fun _ _ _ => trivial) (hother _ (by decide) (by decide) hkinds)
  | utf8 hkinds => exact iff_of_true (fun _ _ _ => trivial) (hother _ (by decide) (by decide) hkinds)
  | binary hkinds => exact iff_of_true (fun _ _ _ => trivial) (hother _ (by decide) (by decide) hkinds)
  | datetime hkinds =>
    constructor
    · intro h
      refine ⟨fun _ n hn => ?_, fun d hd => h _ hd rfl⟩
      cases hkinds _ (hmem _ hn rfl)
    · intro h value hv hn
      have hholds := valueKind_holds value
      rw [hkinds _ (hmem _ hv hn)] at hholds
      obtain ⟨d, rfl⟩ := hholds
      exact h.2 d hv

end

/-! ## Columns of an inferred field -/

/-- The native decoder appends every value of the column to the builder of the field. -/
def TakesColumn (field : InferredField) (values : List Term) : Prop :=
  ∃ type array, field.type.arrow? = some type ∧
    values.foldlM (fun builder term => appendValue (.scalar type) field.nullable term builder)
      (makeBuilder (.scalar type)) = .ok array

theorem takesColumn_iff {field : InferredField} {type : ScalarType} (htype : field.type.arrow? = some type)
    (values : List Term) : TakesColumn field values ↔
      ∀ value ∈ values, (value.isNil = true → field.nullable = true) ∧ type.storage.takes value = true := by
  rw [← flat_column_iff type values (Storage.fills_empty type.storage)]
  unfold TakesColumn
  simp only [htype, Option.some.injEq, exists_and_left, exists_eq_left', makeBuilder]

theorem Inferred.arrow {kinds : List ValueKind} {type : FlatType} (h : Inferred kinds type) :
    ∃ scalar, type.arrow? = some scalar := by
  cases h <;> exact ⟨_, rfl⟩

section
variable {inspect : Binary → String} {name : Binary} {values : List Term} {field : InferredField}

theorem inferField_eq_ok (h : inferField inspect name values = .ok field) :
    field.name = name ∧ Inferred ((values.filter fun value => !value.isNil).map valueKind) field.type ∧
      ∀ value ∈ values, value.isNil = true → field.nullable = true := by
  obtain ⟨type, htype, rfl⟩ := except_map_eq_ok.mp h
  refine ⟨rfl, ?_, fun value hv hnil => ?_⟩
  · unfold inferType at htype
    split at htype
    · cases htype
    · cases hkinds : kindsType ((values.filter fun value => !value.isNil).map valueKind) with
      | none =>
        rw [hkinds] at htype
        cases htype
      | some type' =>
        rw [hkinds] at htype
        cases htype
        exact inferred_of_kindsType hkinds
  · have hlt : (values.filter fun value => !value.isNil).length < values.length :=
      List.length_filter_lt_length_iff_exists.mpr ⟨value, hv, by simp [hnil]⟩
    simpa using Nat.ne_of_lt hlt

/-- A nil is encoded as it is. -/
theorem encodeValue_nil {value encoded : Term} {type : FieldType} (hnil : value.isNil = true)
    (h : encodeValue value type = .ok encoded) : encoded = value := by
  cases value with
  | atom name =>
    cases type with
    | flat type => cases type <;> exact (Except.ok.inj h).symm
    | _ => exact (Except.ok.inj h).symm
  | _ => cases hnil

theorem takes_nil {type : FlatType} {kinds : List ValueKind} (htype : Inferred kinds type) {scalar : ScalarType}
    (hscalar : type.arrow? = some scalar) {value : Term} (hnil : value.isNil = true) :
    scalar.storage.takes value = true := by
  cases htype <;> cases hscalar <;> simp [ScalarType.storage, Storage.takes, hnil]

/-- The decoder takes the encoded values of an inferred field exactly when they fit. -/
theorem inferred_column_iff {encoded : List Term} (hfield : inferField inspect name values = .ok field)
    (hencode : List.Forall₂ (fun value encoded => encodeValue value (.flat field.type) = .ok encoded) values encoded) :
    TakesColumn field encoded ↔ Fits64 values := by
  obtain ⟨-, htype, hnullable⟩ := inferField_eq_ok hfield
  obtain ⟨scalar, hscalar⟩ := htype.arrow
  rw [takesColumn_iff hscalar, ← fits_iff htype]
  have heach : ∀ value ∈ values, ∀ encoded, encodeValue value (.flat field.type) = .ok encoded →
      (((encoded.isNil = true → field.nullable = true) ∧ scalar.storage.takes encoded = true) ↔
        (value.isNil = false → FitsType field.type value)) := by
    intro value hv encoded he
    cases hn : value.isNil with
    | true =>
      have hsame := encodeValue_nil hn he
      subst hsame
      exact iff_of_true ⟨fun _ => hnullable _ hv hn, takes_nil htype hscalar hn⟩ (by simp)
    | false =>
      have hkind : valueKind value ∈ (values.filter fun value => !value.isNil).map valueKind :=
        List.mem_map_of_mem (List.mem_filter.mpr ⟨hv, by simp [hn]⟩)
      obtain ⟨scalar', hscalar', hnonNil, htakes⟩ := takes_inferred htype hkind he
      cases hscalar.symm.trans hscalar'
      simp [hnonNil, htakes]
  constructor
  · intro h value hv
    obtain ⟨e, he, hr⟩ := exists_of_forall₂_left hencode hv
    exact (heach value hv e hr).mp (h e he)
  · intro h e he
    obtain ⟨value, hv, hr⟩ := exists_of_forall₂_right hencode he
    exact (heach value hv e hr).mpr (h value hv)

end

/-! ## Rows of an inferred schema -/

/-- The values of the rows under a name. -/
def valuesUnder (rows : List (List (Binary × Term))) (name : Binary) : List Term :=
  rows.map fun row => (row.lookup name).getD .nil

/-- The rows of the input under their normalized names. -/
def namedRows (input : Term) : List (List (Binary × Term)) :=
  match finiteRows input with
  | .ok rows => ((rows.mapM normalizeRow).toOption).getD []
  | .error _ => []

theorem fetchField_eq_ok {row : List (Binary × Term)} {name : Binary} {value : Term} :
    fetchField row name = .ok value ↔ row.lookup name = some value := by
  unfold fetchField
  cases row.lookup name <;> simp

theorem normalizeRow_nodup {row : Term} {pairs : List (Binary × Term)} (h : normalizeRow row = .ok pairs) :
    (pairs.map Prod.fst).Nodup := by
  cases row with
  | map entries => exact (normalizeRow_keys h).1
  | _ => cases h

theorem sortNames_perm (names : List Binary) : (sortNames names).Perm names := List.perm_insertionSort _ _

/-- What an inferred schema says of the rows. -/
structure InferredOf (inspect : Binary → String) (rows : List (List (Binary × Term))) (fields : List InferredField) :
    Prop where
  nodup : (fields.map InferredField.name).Nodup
  column : ∀ field ∈ fields, inferField inspect field.name (valuesUnder rows field.name) = .ok field
  covers : ∀ row ∈ rows, ∀ name ∈ row.map Prod.fst, name ∈ fields.map InferredField.name

theorem consistentNames_eq_ok {rows : List (List (Binary × Term))} {names : List Binary}
    (h : consistentNames rows = .ok names) :
    names = sortNames ((rows.headD []).map Prod.fst) ∧ ∀ row ∈ rows, sortNames (row.map Prod.fst) = names := by
  unfold consistentNames at h
  simp only at h
  split at h
  · next hconsistent =>
    cases h
    exact ⟨rfl, hconsistent.2⟩
  · cases h

theorem valuesUnder_of_fetch {rows : List (List (Binary × Term))} {name : Binary} {values : List Term}
    (h : rows.mapM (fun row => fetchField row name) = .ok values) : values = valuesUnder rows name := by
  unfold valuesUnder
  have hall := mapM_eq_ok.mp h
  induction hall with
  | nil => rfl
  | cons hhead _ ih =>
    rw [List.map_cons, fetchField_eq_ok.mp hhead, ← ih (mapM_eq_ok.mpr ‹_›)]
    rfl

theorem infer_eq_ok {inspect : Binary → String} {terms : List Term} {fields : List InferredField}
    (h : infer inspect terms = .ok fields) :
    ∃ rows, terms.mapM normalizeRow = .ok rows ∧ InferredOf inspect rows fields := by
  unfold infer at h
  split at h
  · cases h
  · obtain ⟨rows, hrows, h⟩ := except_bind_eq_ok.mp h
    obtain ⟨names, hnames, h⟩ := except_bind_eq_ok.mp h
    obtain ⟨hsorted, hconsistent⟩ := consistentNames_eq_ok (TimePartition.liftError_eq_ok.mp hnames)
    have hfields : List.Forall₂ (fun name field => inferField inspect name (valuesUnder rows name) = .ok field)
        names fields := by
      refine (mapM_eq_ok.mp h).imp fun name field hf => ?_
      obtain ⟨values, hvalues, hf⟩ := except_bind_eq_ok.mp hf
      rw [← valuesUnder_of_fetch hvalues]
      exact TimePartition.liftError_eq_ok.mp hf
    have hsame : names = fields.map InferredField.name := by
      rw [← List.forall₂_eq_eq_eq, List.forall₂_map_right_iff]
      exact hfields.imp fun name field hf => (inferField_eq_ok hf).1.symm
    refine ⟨rows, hrows, ?_, ?_, ?_⟩
    · rw [← hsame, hsorted, (sortNames_perm _).nodup_iff]
      cases rows with
      | nil => exact List.nodup_nil
      | cons row rest =>
        obtain ⟨term, -, hterm⟩ := exists_of_forall₂_right (mapM_eq_ok.mp hrows) List.mem_cons_self
        exact normalizeRow_nodup hterm
    · intro field hf
      obtain ⟨name, -, hr⟩ := exists_of_forall₂_right hfields hf
      rw [(inferField_eq_ok hr).1]
      exact hr
    · intro row hrow name hname
      rw [← hsame, ← hconsistent row hrow]
      exact (sortNames_perm _).mem_iff.mpr hname

/-- The encoded row has under each field what the field makes of the row's value. -/
theorem encodeInferred_lookup {fields : List InferredField} {row encoded : List (Binary × Term)}
    (hnodup : (fields.map InferredField.name).Nodup) (h : encodeInferred fields row = .ok encoded)
    {field : InferredField} (hf : field ∈ fields) :
    encodeValue ((row.lookup field.name).getD .nil) (.flat field.type) =
      .ok ((encoded.lookup field.name).getD .nil) := by
  have hall := mapM_eq_ok.mp h
  induction hall with
  | nil => cases hf
  | @cons head entry fields entries hhead htail ih =>
    obtain ⟨value, hvalue, hhead⟩ := except_bind_eq_ok.mp hhead
    obtain ⟨term, hterm, rfl⟩ := except_map_eq_ok.mp hhead
    rw [List.map_cons, List.nodup_cons] at hnodup
    rcases List.mem_cons.mp hf with rfl | hf
    · rw [fetchField_eq_ok.mp hvalue, List.lookup_cons_self]
      exact hterm
    · have hne : (field.name == head.name) = false := by
        rw [beq_eq_false_iff_ne]
        exact fun he => hnodup.1 (he ▸ List.mem_map_of_mem hf)
      rw [List.lookup_cons, hne]
      exact ih hnodup.2 (mapM_eq_ok.mpr htail) hf

theorem inferAndBatches_eq_ok {inspect : Binary → String} {input : Term} {batchRows : Nat}
    {fields : List InferredField} {chunks : List (List (List (Binary × Term)))}
    (h : inferAndBatches inspect input batchRows = .ok (fields, chunks)) :
    InferredOf inspect (namedRows input) fields ∧
      ∃ encoded, List.Forall₂ (fun row encoded => encodeInferred fields row = .ok encoded) (namedRows input) encoded ∧
        chunks = chunkEvery batchRows encoded.length encoded := by
  unfold inferAndBatches at h
  obtain ⟨terms, hterms, h⟩ := except_bind_eq_ok.mp h
  obtain ⟨fields', hinfer, h⟩ := except_bind_eq_ok.mp h
  obtain ⟨encoded, hencoded, h⟩ := except_bind_eq_ok.mp h
  cases h
  obtain ⟨rows, hrows, hof⟩ := infer_eq_ok hinfer
  have hnamed : namedRows input = rows := by
    unfold namedRows
    rw [TimePartition.liftError_eq_ok.mp hterms]
    simp only [hrows, Except.toOption, Option.getD_some]
  rw [hnamed]
  refine ⟨hof, encoded, ?_, rfl⟩
  have hencoded := TimePartition.liftError_eq_ok.mp hencoded
  unfold normalizeInferred at hencoded
  simp only [hrows, bind, Except.bind] at hencoded
  cases hmap : rows.mapM (encodeInferred fields) with
  | ok encoded' =>
    rw [hmap] at hencoded
    cases hencoded
    exact mapM_eq_ok.mp hmap
  | error stop =>
    rw [hmap] at hencoded
    cases stop <;> cases hencoded

theorem fits64_of_nil {values : List Term} (h : ∀ value ∈ values, value = .nil) : Fits64 values := by
  refine ⟨fun _ n hn => ?_, fun d hd => ?_⟩
  · cases h _ hn
  · cases h _ hd

/-- The native decoder takes each batch of an inferred schema exactly when the rows' integers fit. -/
theorem inferred_batches_taken_iff (inspect : Binary → String) {input : Term} (batchRows : Nat)
    (hpos : 0 < batchRows) {fields : List InferredField} {chunks : List (List (List (Binary × Term)))}
    (h : inferAndBatches inspect input batchRows = .ok (fields, chunks)) :
    (∀ chunk ∈ chunks, ∀ field ∈ fields, TakesColumn field (valuesUnder chunk field.name)) ↔
      ∀ name, Fits64 (valuesUnder (namedRows input) name) := by
  obtain ⟨hof, encoded, hencoded, rfl⟩ := inferAndBatches_eq_ok h
  have hflat := flatten_chunkEvery hpos encoded.length encoded (Nat.le_refl _)
  have hcolumn : ∀ field ∈ fields, TakesColumn field (valuesUnder encoded field.name) ↔
      Fits64 (valuesUnder (namedRows input) field.name) := by
    intro field hf
    apply inferred_column_iff (hof.column field hf)
    unfold valuesUnder
    rw [List.forall₂_map_left_iff, List.forall₂_map_right_iff]
    exact hencoded.imp fun row encoded he => encodeInferred_lookup hof.nodup he hf
  have hchunks : ∀ field ∈ fields, (∀ chunk ∈ chunkEvery batchRows encoded.length encoded,
      TakesColumn field (valuesUnder chunk field.name)) ↔ TakesColumn field (valuesUnder encoded field.name) := by
    intro field hf
    obtain ⟨scalar, hscalar⟩ := (inferField_eq_ok (hof.column field hf)).2.1.arrow
    simp only [takesColumn_iff hscalar]
    constructor
    · intro hall value hv
      obtain ⟨row, hrow, rfl⟩ := List.mem_map.mp hv
      rw [← hflat] at hrow
      obtain ⟨chunk, hchunk, hrow⟩ := List.mem_flatten.mp hrow
      exact hall chunk hchunk _ (List.mem_map_of_mem hrow)
    · intro hall chunk hchunk value hv
      obtain ⟨row, hrow, rfl⟩ := List.mem_map.mp hv
      have hmem : row ∈ encoded := hflat ▸ List.mem_flatten.mpr ⟨chunk, hchunk, hrow⟩
      exact hall _ (List.mem_map_of_mem hmem)
  constructor
  · intro htaken name
    by_cases hname : name ∈ fields.map InferredField.name
    · obtain ⟨field, hf, rfl⟩ := List.mem_map.mp hname
      exact (hcolumn field hf).mp ((hchunks field hf).mp fun chunk hchunk => htaken chunk hchunk field hf)
    · apply fits64_of_nil
      intro value hv
      obtain ⟨row, hrow, rfl⟩ := List.mem_map.mp hv
      cases hl : row.lookup name with
      | none => rfl
      | some value =>
        obtain ⟨before, after, hsplit, -⟩ := List.lookup_eq_some_iff.mp hl
        have hkey : name ∈ row.map Prod.fst := by
          rw [hsplit]
          simp
        exact absurd (hof.covers row hrow name hkey) hname
  · intro hfits chunk hchunk field hf
    exact (hchunks field hf).mpr ((hcolumn field hf).mpr (hfits field.name)) chunk hchunk

theorem inferred_batches_taken_one :
    (∀ chunk ∈ [[[(Binary.text "a", Term.int 1)]]],
      ∀ field ∈ [InferredField.mk (.text "a") (.integer 64 true) false],
        TakesColumn field (valuesUnder chunk field.name)) ↔
    ∀ name, Fits64 (valuesUnder (namedRows (.list [.map [(.atom "a", .int 1)]])) name) :=
  inferred_batches_taken_iff (fun _ => "") 1 (by decide) rfl

/-- A column of one integer beyond 64 bits is inferred to be one of 64. -/
theorem wide_integer_refused :
    ¬ ∀ (inspect : Binary → String) (input : Term) (batchRows : Nat) (fields : List InferredField)
      (chunks : List (List (List (Binary × Term)))), 0 < batchRows →
      inferAndBatches inspect input batchRows = .ok (fields, chunks) →
      ∀ chunk ∈ chunks, ∀ field ∈ fields, TakesColumn field (valuesUnder chunk field.name) := by
  intro h
  obtain ⟨type, array, htype, harray⟩ := h (fun _ => "") (.list [.map [(.atom "a", .int 9223372036854775808)]]) 1
    [⟨.text "a", .integer 64 true, false⟩] [[[(.text "a", .int 9223372036854775808)]]] (by decide) rfl _
    List.mem_cons_self _ List.mem_cons_self
  cases htype
  cases harray

end Input

end Parquex
