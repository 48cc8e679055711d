import Parquex.Fallible
import Parquex.Input

/-!
# Batches hold the input rows

The batches of a list of rows expand to the encoded rows in order, and an encoded
row holds under each field's name the encoded value of the row.
-/

namespace Parquex

theorem lookup_of_mem {κ α : Type} [DecidableEq κ] {pairs : List (κ × α)} {key : κ} {value : α}
    (hnodup : (pairs.map Prod.fst).Nodup) (h : (key, value) ∈ pairs) : pairs.lookup key = some value := by
  induction pairs with
  | nil => cases h
  | cons pair pairs ih =>
    obtain ⟨key', value'⟩ := pair
    simp only [List.map_cons, List.nodup_cons] at hnodup
    rcases List.mem_cons.mp h with he | h
    · cases he
      exact List.lookup_cons_self
    · have hne : key ≠ key' := fun he => hnodup.1 (he ▸ List.mem_map.mpr ⟨_, h, rfl⟩)
      have hb : (key == key') = false := by rw [beq_eq_false_iff_ne]; exact hne
      simp only [List.lookup_cons, hb]
      exact ih hnodup.2 h

namespace Input

/-! ## Maps of pairs -/

section
variable {κ α : Type} [DecidableEq κ]

theorem mapPut_of_not_mem {entries : List (κ × α)} {key : κ} (h : key ∉ entries.map Prod.fst) (value : α) :
    mapPut entries key value = entries ++ [(key, value)] := by
  unfold mapPut
  rw [if_neg h]

theorem foldl_mapPut {pairs : List (κ × α)} {entries : List (κ × α)}
    (h : (entries.map Prod.fst ++ pairs.map Prod.fst).Nodup) :
    pairs.foldl (fun entries pair => mapPut entries pair.1 pair.2) entries = entries ++ pairs := by
  induction pairs generalizing entries with
  | nil => simp
  | cons pair pairs ih =>
    have hnew : pair.1 ∉ entries.map Prod.fst := fun hm =>
      List.disjoint_of_nodup_append h hm (List.mem_map_of_mem List.mem_cons_self)
    rw [List.foldl_cons, mapPut_of_not_mem hnew, ih (by simpa using h)]
    simp

/-- Pairs with unique keys are their own map. -/
theorem mapNew_of_nodup {pairs : List (κ × α)} (h : (pairs.map Prod.fst).Nodup) : mapNew pairs = pairs := by
  unfold mapNew
  rw [foldl_mapPut (by simpa using h), List.nil_append]

end

/-! ## Chunks -/

theorem flatten_chunkEvery {α : Type} {count : Nat} (hpos : 0 < count) :
    ∀ (fuel : Nat) (items : List α), items.length ≤ fuel → (chunkEvery count fuel items).flatten = items
  | 0, items, h => by
    rw [List.length_eq_zero_iff.mp (Nat.le_zero.mp h)]
    rfl
  | fuel + 1, [], _ => rfl
  | fuel + 1, item :: items, h => by
    have hlen : ((item :: items).drop count).length ≤ fuel := by
      simp only [List.length_drop, List.length_cons] at h ⊢
      omega
    rw [chunkEvery, List.flatten_cons, flatten_chunkEvery hpos fuel _ hlen, List.take_append_drop]
    simp

/-! ## Encoded rows -/

section
variable {schema : Schema}

theorem encodeField_eq_ok {row : List (Binary × Term)} {field : SchemaField} {entry : String × Term} :
    encodeField row field = .ok entry ↔ ∃ value encoded, row.lookup (.text field.name) = some value ∧
      encodeValue value field.type = .ok encoded ∧ (field.name, encoded) = entry := by
  unfold encodeField
  cases row.lookup (.text field.name) with
  | none => simp
  | some value =>
    simp only [except_map_eq_ok, Option.some.injEq]
    refine ⟨?_, ?_⟩
    · rintro ⟨encoded, he, hp⟩
      exact ⟨value, encoded, rfl, he, hp⟩
    · rintro ⟨value', encoded, rfl, he, hp⟩
      exact ⟨encoded, he, hp⟩

theorem encodeRow_names {row : List (Binary × Term)} {encoded : Row} (h : encodeRow schema row = .ok encoded) :
    encoded.map Prod.fst = schema.names := by
  have hall := mapM_eq_ok.mp h
  unfold Schema.names
  clear h
  generalize schema.fields = fields at hall
  induction hall with
  | nil => rfl
  | cons hhead _ ih =>
    rw [encodeField_eq_ok] at hhead
    obtain ⟨value, encoded, -, -, he⟩ := hhead
    rw [List.map_cons, List.map_cons, ih, ← he]

theorem encodeRow_get {row : List (Binary × Term)} {encoded : Row} (h : encodeRow schema row = .ok encoded)
    (hnodup : schema.names.Nodup) {field : SchemaField} (hf : field ∈ schema.fields) :
    ∃ value, row.lookup (.text field.name) = some value ∧
      encodeValue value field.type = .ok (encoded.get field.name) := by
  have hall := mapM_eq_ok.mp h
  obtain ⟨i, hi, hget⟩ := List.getElem_of_mem hf
  have hlen := hall.length_eq
  have hfield := (List.forall₂_iff_get.mp hall).2 i hi (by omega)
  simp only [List.get_eq_getElem, hget] at hfield
  rw [encodeField_eq_ok] at hfield
  obtain ⟨value, enc, hv, he, hentry⟩ := hfield
  refine ⟨value, hv, ?_⟩
  have hmem : (field.name, enc) ∈ encoded := by
    rw [hentry]
    exact List.getElem_mem _
  have hlookup : encoded.lookup field.name = some enc :=
    lookup_of_mem (by rw [encodeRow_names h]; exact hnodup) hmem
  unfold Row.get
  rw [hlookup]
  exact he

theorem normalizeRow_eq_ok {row : Term} {pairs : List (Binary × Term)} (h : normalizeRow row = .ok pairs) :
    ∃ entries, row = .map entries ∧ entries.mapM normalizePair = some pairs ∧ (pairs.map Prod.fst).Nodup := by
  unfold normalizeRow at h
  cases row with
  | map entries =>
    simp only at h
    cases hp : entries.mapM normalizePair with
    | none =>
      rw [hp] at h
      cases h
    | some pairs' =>
      rw [hp] at h
      simp only at h
      by_cases hn : (pairs'.map Prod.fst).Nodup
      · rw [if_pos hn] at h
        cases h
        exact ⟨entries, rfl, hp, hn⟩
      · rw [if_neg hn] at h
        cases h
  | _ => cases h

theorem validateSchemaNames_eq_ok {rows : List (List (Binary × Term))} {u : Unit} :
    validateSchemaNames rows schema = .ok u ↔
      ∀ row ∈ rows, (row.map Prod.fst).isPerm (schema.names.map .text) = true := by
  unfold validateSchemaNames
  by_cases h : (rows.all fun row => (row.map Prod.fst).isPerm (schema.names.map .text)) = true
  · rw [if_pos h]
    exact ⟨fun _ => List.all_eq_true.mp h, fun _ => rfl⟩
  · rw [if_neg h]
    exact ⟨(fun h' => by cases h'), fun h' => absurd (List.all_eq_true.mpr h') h⟩

theorem encodedRow_eq_ok {row : Term} {encoded : Row} :
    encodedRow schema row = .ok encoded ↔ ∃ pairs, normalizeRow row = .ok pairs ∧
      (pairs.map Prod.fst).isPerm (schema.names.map .text) = true ∧ encodeRow schema pairs = .ok encoded := by
  unfold encodedRow
  rw [except_bind_eq_ok]
  apply exists_congr
  intro pairs
  rw [except_bind_eq_ok]
  refine and_congr_right fun _ => ?_
  refine ⟨fun h => ?_, fun h => ⟨(), validateSchemaNames_eq_ok.mpr (by simpa using h.1), h.2⟩⟩
  obtain ⟨u, hu, he⟩ := h
  exact ⟨validateSchemaNames_eq_ok.mp hu pairs (by simp), he⟩

theorem encodedRow_nodup {row : Term} {encoded : Row} (h : encodedRow schema row = .ok encoded) :
    schema.names.Nodup := by
  rw [encodedRow_eq_ok] at h
  obtain ⟨pairs, hn, hperm, -⟩ := h
  obtain ⟨entries, -, -, hnodup⟩ := normalizeRow_eq_ok hn
  exact List.Nodup.of_map _ ((List.isPerm_iff.mp hperm).nodup_iff.mp hnodup)

theorem encodedRow_names {row : Term} {encoded : Row} (h : encodedRow schema row = .ok encoded) :
    encoded.map Prod.fst = schema.names := by
  rw [encodedRow_eq_ok] at h
  obtain ⟨pairs, -, -, he⟩ := h
  exact encodeRow_names he

theorem normalizeRows_eq_ok {rows : List Term} {encoded : List Row} (h : normalizeRows rows schema = .ok encoded) :
    List.Forall₂ (fun row e => encodedRow schema row = .ok e) rows encoded := by
  unfold normalizeRows at h
  cases hn : (do
      let rows ← rows.mapM normalizeRow
      validateSchemaNames rows schema
      rows.mapM (encodeRow schema) : Except (Stop Error) (List Row)) with
  | error stop =>
    rw [hn] at h
    cases stop <;> cases h
  | ok out =>
    rw [hn] at h
    have hout : out = encoded := Except.ok.inj h
    obtain ⟨pairs, hp, hrest⟩ := except_bind_eq_ok.mp hn
    obtain ⟨u, hu, he⟩ := except_bind_eq_ok.mp hrest
    have hnames := validateSchemaNames_eq_ok.mp hu
    have hpairs := mapM_eq_ok.mp hp
    have hencoded := mapM_eq_ok.mp (hout ▸ he)
    clear hn hrest hu h hp hout he
    induction hpairs generalizing encoded with
    | nil =>
      rw [List.forall₂_nil_left_iff.mp hencoded]
      exact .nil
    | cons hhead _ ih =>
      obtain ⟨e, es, hencode, htail, rfl⟩ := List.forall₂_cons_left_iff.mp hencoded
      refine .cons (encodedRow_eq_ok.mpr ⟨_, hhead, hnames _ (by simp), hencode⟩) ?_
      exact ih (fun row hr => hnames row (by simp [hr])) htail

/-! ## Batches -/

/-- Only a schema with unique names has batches. -/
theorem new_names_nodup {pairs : List (String × Term)} {batch : Batch} (h : Batch.new schema pairs = .ok batch) :
    schema.names.Nodup := by
  unfold Batch.new at h
  obtain ⟨aligned, ha, -⟩ := except_bind_eq_ok.mp h
  unfold Batch.alignInputColumns at ha
  by_cases hn : (pairs.map Prod.fst).Nodup ∧ (pairs.map Prod.fst).isPerm schema.names = true
  · exact (List.isPerm_iff.mp hn.2).nodup_iff.mp hn.1
  · rw [if_neg hn] at ha
    cases ha

theorem new_columnsOf_eq_ok {rows : List Row} {batch : Batch} (hne : schema.names ≠ [])
    (hrows : ∀ row ∈ rows, row.map Prod.fst = schema.names) (h : Batch.new schema (columnsOf schema rows) = .ok batch) :
    batch.schema = schema ∧ batch.toRows = rows := by
  obtain ⟨batch', hb, hs, -, -, hr⟩ := Batch.new_columnsOf (new_names_nodup h) hne hrows
  rw [h] at hb
  cases hb
  exact ⟨hs, hr⟩

theorem forall₂_new_columnsOf {chunks : List (List Row)} {bs : List Batch} (hne : schema.names ≠ [])
    (h : List.Forall₂ (fun chunk batch => Batch.new schema (columnsOf schema chunk) = .ok batch) chunks bs)
    (hnames : ∀ row ∈ chunks.flatten, row.map Prod.fst = schema.names) :
    (∀ batch ∈ bs, batch.schema = schema) ∧ bs.flatMap Batch.toRows = chunks.flatten := by
  induction h with
  | nil => simp
  | cons hhead _ ih =>
    obtain ⟨hs, hr⟩ := new_columnsOf_eq_ok hne (fun row hr => hnames row (by simp [hr])) hhead
    obtain ⟨hs', hr'⟩ := ih fun row hr => hnames row (by
      rw [List.flatten_cons]
      exact List.mem_append_right _ hr)
    refine ⟨?_, ?_⟩
    · intro batch hb
      rcases List.mem_cons.mp hb with rfl | hb
      · exact hs
      · exact hs' batch hb
    · rw [List.flatMap_cons, hr, hr', List.flatten_cons]

/-- The rows are encoded one by one, and the batches are made of chunks of them. -/
theorem batches_encoded {rows : List Term} {batchRows : Nat} {bs : List Batch}
    (h : batches (.list rows) schema batchRows = .ok bs) :
    ∃ encoded, List.Forall₂ (fun row e => encodedRow schema row = .ok e) rows encoded ∧
      (∀ row ∈ encoded, row.map Prod.fst = schema.names) ∧
      (encoded = [] ∧ (∃ batch, Batch.new schema (columnsOf schema []) = .ok batch ∧ bs = [batch]) ∨
        encoded ≠ [] ∧ List.Forall₂ (fun chunk batch => Batch.new schema (columnsOf schema chunk) = .ok batch)
          (chunkEvery batchRows encoded.length encoded) bs) := by
  unfold batches at h
  obtain ⟨rows', hfinite, h⟩ := except_bind_eq_ok.mp h
  have hrows' : rows' = rows := by
    unfold finiteRows at hfinite
    simp only at hfinite
    by_cases hall : rows.all isMap = true
    · rw [if_pos hall] at hfinite
      exact (Except.ok.inj hfinite).symm
    · rw [if_neg hall] at hfinite
      cases hfinite
  obtain ⟨encoded, hencoded, h⟩ := except_bind_eq_ok.mp h
  rw [hrows'] at hencoded
  have hall := normalizeRows_eq_ok hencoded
  refine ⟨encoded, hall, ?_, ?_⟩
  · intro row hr
    obtain ⟨i, hi, rfl⟩ := List.getElem_of_mem hr
    exact encodedRow_names ((List.forall₂_iff_get.mp hall).2 i (by rw [hall.length_eq]; exact hi) hi)
  · cases encoded with
    | nil =>
      obtain ⟨batch, hb, hbs⟩ := except_map_eq_ok.mp h
      exact Or.inl ⟨rfl, batch, hb, hbs.symm⟩
    | cons row rest => exact Or.inr ⟨List.cons_ne_nil _ _, mapM_eq_ok.mp h⟩

theorem batches_eq_ok {rows : List Term} {batchRows : Nat} {bs : List Batch} (hpos : 0 < batchRows)
    (hne : schema.names ≠ []) (h : batches (.list rows) schema batchRows = .ok bs) :
    (∀ batch ∈ bs, batch.schema = schema) ∧
      List.Forall₂ (fun row e => encodedRow schema row = .ok e) rows (bs.flatMap Batch.toRows) := by
  obtain ⟨encoded, hall, hnames, hbs⟩ := batches_encoded h
  have hbatches : (∀ batch ∈ bs, batch.schema = schema) ∧ bs.flatMap Batch.toRows = encoded := by
    rcases hbs with ⟨rfl, batch, hb, rfl⟩ | ⟨-, hchunks⟩
    · obtain ⟨hs, hr⟩ := new_columnsOf_eq_ok hne (by simp) hb
      simp [hs, hr]
    · have hflat := flatten_chunkEvery hpos encoded.length encoded (Nat.le_refl _)
      have hboth := forall₂_new_columnsOf hne hchunks (by rw [hflat]; exact hnames)
      rw [hflat] at hboth
      exact hboth
  rw [hbatches.2]
  exact ⟨hbatches.1, hall⟩

theorem mem_chunkEvery {α : Type} {count : Nat} (hpos : 0 < count) :
    ∀ (fuel : Nat) (items : List α), ∀ chunk ∈ chunkEvery count fuel items,
      0 < chunk.length ∧ chunk.length ≤ count ∧ ∀ item ∈ chunk, item ∈ items
  | 0, _, chunk, h => by cases h
  | _ + 1, [], chunk, h => by cases h
  | fuel + 1, item :: items, chunk, h => by
    rcases List.mem_cons.mp h with rfl | h
    · refine ⟨?_, List.length_take_le _ _, fun _ hi => List.mem_of_mem_take hi⟩
      rw [List.length_take, List.length_cons]
      omega
    · obtain ⟨h₁, h₂, h₃⟩ := mem_chunkEvery hpos fuel _ chunk h
      exact ⟨h₁, h₂, fun i hi => List.mem_of_mem_drop (h₃ i hi)⟩

/-- Rows come in batches of the size asked for, and in no empty batch. -/
theorem batches_rowCount {rows : List Term} {batchRows : Nat} {bs : List Batch} (hpos : 0 < batchRows)
    (hne : schema.names ≠ []) (hrows : rows ≠ []) (h : batches (.list rows) schema batchRows = .ok bs) :
    ∀ batch ∈ bs, 1 ≤ batch.rowCount ∧ batch.rowCount ≤ batchRows := by
  obtain ⟨encoded, hall, hnames, hbs⟩ := batches_encoded h
  intro batch hb
  rcases hbs with ⟨rfl, -⟩ | ⟨-, hchunks⟩
  · exact absurd (List.forall₂_nil_right_iff.mp hall) hrows
  · obtain ⟨i, hi, rfl⟩ := List.getElem_of_mem hb
    have hi' : i < (chunkEvery batchRows encoded.length encoded).length := by
      rw [hchunks.length_eq]
      exact hi
    have hnew := (List.forall₂_iff_get.mp hchunks).2 i hi' hi
    obtain ⟨h₁, h₂, h₃⟩ := mem_chunkEvery hpos _ _ _ (List.get_mem _ ⟨i, hi'⟩)
    have hcount := congrArg List.length (new_columnsOf_eq_ok hne (fun row hr => hnames row (h₃ row hr)) hnew).2
    have hlength : ∀ b : Batch, b.toRows.length = b.rowCount := by simp [Batch.toRows]
    rw [hlength] at hcount
    exact ⟨hcount ▸ h₁, hcount ▸ h₂⟩

end

end Input

/-! ## Accepted batches -/

/-- What an integer column accepts. -/
def Term.isIntegerOf (type : IntegerType) (term : Term) : Prop :=
  term.isNil = true ∨ ∃ value, term = .int value ∧ type.holds value = true

theorem appendSlots_integer {type : IntegerType} {slots slots' : Slots} {term : Term}
    (h : appendSlots (.integer type) slots term = .ok slots') : term.isIntegerOf type := by
  unfold appendSlots at h
  cases slots with
  | integers values =>
    obtain ⟨values', hv, -⟩ := except_map_eq_ok.mp h
    unfold appendPrimitive at hv
    by_cases hn : term.isNil = true
    · exact Or.inl hn
    · rw [if_neg hn] at hv
      obtain ⟨value, hd, -⟩ := except_map_eq_ok.mp hv
      unfold decodeOr integer? at hd
      cases term with
      | int v =>
        by_cases hh : type.holds v = true
        · exact Or.inr ⟨v, rfl, hh⟩
        · simp [Term.int?, Option.filter, hh] at hd
      | _ => simp [Term.int?] at hd
  | _ => cases h

theorem appendValue_integer {type : ScalarType} {integer : IntegerType} (ht : type.storage = .integer integer)
    {nullable : Bool} {term : Term} {builder builder' : ArrowArray}
    (h : appendValue (.scalar type) nullable term builder = .ok builder') : term.isIntegerOf integer := by
  unfold appendValue at h
  by_cases hn : (term.isNil && !nullable) = true
  · rw [if_pos hn] at h
    cases h
  · rw [if_neg hn] at h
    cases builder with
    | flat type' slots =>
      obtain ⟨slots', hs, -⟩ := except_map_eq_ok.mp h
      rw [ht] at hs
      exact appendSlots_integer hs
    | _ => cases h

theorem foldlM_each {α β ε : Type} {f : β → α → Except ε β} {P : α → Prop} (hf : ∀ b a b', f b a = .ok b' → P a) :
    ∀ (as : List α) {b b' : β}, as.foldlM f b = .ok b' → ∀ a ∈ as, P a
  | [], _, _, _ => by simp
  | a :: as, b, b', h => by
    rw [List.foldlM_cons] at h
    obtain ⟨b₁, h₁, h₂⟩ := except_bind_eq_ok.mp h
    intro a' ha
    rcases List.mem_cons.mp ha with rfl | ha
    · exact hf _ _ _ h₁
    · exact foldlM_each hf as h₂ a' ha

theorem buildArray_integer {name : String} {type : ScalarType} {integer : IntegerType} {nullable : Bool}
    (ht : type.storage = .integer integer) {terms : List Term} {array : ArrowArray}
    (h : buildArray (.mk name (.scalar type) nullable) terms = .ok array) : ∀ term ∈ terms, term.isIntegerOf integer :=
  foldlM_each (fun _ _ _ h => appendValue_integer ht h) terms h

theorem arrowFields_cons {field : SchemaField} {fields : List SchemaField} {out : List Field}
    (h : arrowFields (field :: fields) = .ok out) :
    ∃ head tail, arrowField field = .ok head ∧ arrowFields fields = .ok tail ∧ out = head :: tail := by
  rw [arrowFields] at h
  obtain ⟨head, hh, h⟩ := except_bind_eq_ok.mp h
  obtain ⟨tail, ht, he⟩ := except_map_eq_ok.mp h
  exact ⟨head, tail, hh, ht, he.symm⟩

theorem arrowField_flat {field : SchemaField} {flat : FlatType} {type : ScalarType} {out : Field}
    (hflat : field.type = .flat flat) (htype : flat.arrow? = some type) (h : arrowField field = .ok out) :
    out = .mk field.name (.scalar type) field.nullable := by
  obtain ⟨name, fieldType, nullable⟩ := field
  change fieldType = .flat flat at hflat
  rw [arrowField, hflat, arrowDataType, htype] at h
  exact (Except.ok.inj h).symm

/-- An integer column of an accepted batch holds integers and nulls. -/
theorem decodeColumns_integer {rowCount : Nat} {values : String → List Term} {field : SchemaField} {flat : FlatType}
    {type : ScalarType} {integer : IntegerType} (hflat : field.type = .flat flat) (htype : flat.arrow? = some type)
    (hstorage : type.storage = .integer integer) :
    ∀ (fields : List SchemaField) {arrow : List Field} {arrays : List ArrowArray}, arrowFields fields = .ok arrow →
      decodeColumns rowCount (fields.map fun field => (field.name, .list (values field.name))) arrow = .ok arrays →
      field ∈ fields → ∀ term ∈ values field.name, term.isIntegerOf integer
  | [], _, _, _, _, hf => by cases hf
  | head :: fields, arrow, arrays, harrow, hdecode, hf => by
    obtain ⟨out, tail, hhead, htail, rfl⟩ := arrowFields_cons harrow
    rw [List.map_cons, decodeColumns] at hdecode
    by_cases hn : head.name = out.name
    · simp only [hn, ne_eq, not_true_eq_false, if_false, Term.list?, decodeOr] at hdecode
      obtain ⟨terms, hterms, hdecode⟩ := except_bind_eq_ok.mp hdecode
      cases hterms
      by_cases hl : (values out.name).length = rowCount
      · simp only [hl, not_true_eq_false, if_false] at hdecode
        obtain ⟨array, harray, hdecode⟩ := except_bind_eq_ok.mp hdecode
        obtain ⟨rest, hrest, -⟩ := except_map_eq_ok.mp hdecode
        rcases List.mem_cons.mp hf with rfl | hf
        · have hout := arrowField_flat hflat htype hhead
          rw [hout] at harray
          rw [hn]
          rw [hout]
          exact buildArray_integer hstorage harray
        · exact decodeColumns_integer hflat htype hstorage fields htail hrest hf
      · simp only [hl, not_false_eq_true, if_true] at hdecode
        cases hdecode
    · simp only [hn, ne_eq, not_false_eq_true, if_true] at hdecode
      cases hdecode

theorem decodeColumns_of_decodeBatch {batch : Batch} {fields : List Field} {maxRows : Nat} {record : RecordBatch}
    (h : decodeBatch batch.toNative fields maxRows = .ok record) :
    ∃ arrays, decodeColumns batch.rowCount
      (batch.schema.fields.map fun field => (field.name, .list (batch.column field.name))) fields = .ok arrays := by
  have hcolumns : (batch.schema.names.map fun name =>
      Term.tuple [.text name, .list (batch.column name)]).mapM decodeColumn =
        some (batch.schema.fields.map fun field => (field.name, Term.list (batch.column field.name))) := by
    unfold Schema.names
    generalize batch.schema.fields = fields
    induction fields with
    | nil => rfl
    | cons field fields ih =>
      rw [List.map_cons, List.map_cons, List.mapM_cons, ih]
      rfl
  unfold decodeBatch at h
  obtain ⟨⟨tag, rowCount, columns⟩, hboundary, h⟩ := except_bind_eq_ok.mp h
  unfold Batch.toNative decodeBoundary at hboundary
  simp only [hcolumns] at hboundary
  by_cases hr : 0 ≤ (batch.rowCount : Int) ∧ (batch.rowCount : Int) < 2 ^ 64
  · rw [if_pos hr] at hboundary
    cases hboundary
    simp only at h
    split at h
    · cases h
    · obtain ⟨arrays, ha, -⟩ := except_bind_eq_ok.mp h
      exact ⟨arrays, ha⟩
  · rw [if_neg hr] at hboundary
    cases hboundary

/-- An integer column of the rows of an accepted batch holds integers and nulls. -/
theorem decodeBatch_integer {batch : Batch} {fields : List Field} {maxRows : Nat} {record : RecordBatch}
    (harrow : arrowFields batch.schema.fields = .ok fields) (h : decodeBatch batch.toNative fields maxRows = .ok record)
    {field : SchemaField} (hf : field ∈ batch.schema.fields) {flat : FlatType} {type : ScalarType}
    {integer : IntegerType} (hflat : field.type = .flat flat) (htype : flat.arrow? = some type)
    (hstorage : type.storage = .integer integer) : ∀ row ∈ batch.toRows, (row.get field.name).isIntegerOf integer := by
  obtain ⟨arrays, ha⟩ := decodeColumns_of_decodeBatch h
  intro row hr
  obtain ⟨index, -, rfl⟩ := List.mem_map.mp hr
  have hname : field.name ∈ batch.schema.names := List.mem_map_of_mem hf
  unfold Batch.rowAt
  rw [Row.get_map (fun name => (batch.column name).getD index .nil) hname]
  by_cases hi : index < (batch.column field.name).length
  · rw [List.getD_eq_getElem?_getD, List.getElem?_eq_getElem hi]
    exact decodeColumns_integer hflat htype hstorage _ harrow ha hf _ (List.getElem_mem hi)
  · rw [List.getD_eq_getElem?_getD, List.getElem?_eq_none (by omega)]
    exact Or.inl rfl

end Parquex
