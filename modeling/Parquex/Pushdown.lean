import Parquex.FileReadSound

/-!
# Pushed-down conditions lose no row

The condition of a file stream prunes row groups by their statistics before any of
their rows is decoded. What is read is still every row of the file that the
condition selects.
-/

namespace Parquex

namespace FileStream

/-! ## Files of row groups -/

/-- A file whose row groups have some rows. Its decoder answers the rows of the row groups asked for in whatever
batches, and the statistics of its integer columns describe them. -/
structure InGroups (file : ParquetFile) (groups : List (List Row)) : Prop where
  columns : file.schema ≠ []
  names : (file.schema.map Field.name).Nodup
  rowGroups : file.metaData.rowGroups.length = groups.length
  decodes : ∀ selected, (∀ index ∈ selected, index < groups.length) → ∃ batches parts,
    file.batches selected = batches.map .ok ∧ List.Forall₂ HoldsRows batches parts ∧
      parts.flatten = selected.flatMap fun index => groups.getD index []
  statistics : ∀ field ∈ file.schema, field.dataType = .scalar (.integer .int32) ∨
    field.dataType = .scalar (.integer .int64) → ∀ leaf, leafColumn file.metaData field.name = some leaf →
      ∀ index rowGroup statistics, file.metaData.rowGroups[index]? = some rowGroup →
        rowGroup.columns[leaf]? = some (some statistics) →
        Describes rowGroup statistics ((groups.getD index []).map fun row => (row.get field.name).int?)

theorem integer_term {type : IntegerType} {array : ArrowArray} (hof : array.Of (.scalar (.integer type))) {index : Nat}
    {term : Term} (h : encodeValue array index = .ok term) : term = .nil ∨ ∃ value, term = .int value := by
  cases array with
  | flat type' slots =>
    obtain ⟨rfl, hslots⟩ := hof
    cases slots with
    | integers values =>
      simp only [encodeValue, ScalarType.storage, encodeSlots, encodeAt] at h
      cases hvalue : values[index]? with
      | none => rw [hvalue] at h; cases h
      | some value =>
        rw [hvalue] at h
        cases value with
        | none => cases h; exact Or.inl rfl
        | some value => cases h; exact Or.inr ⟨value, rfl⟩
    | _ => cases hslots
  | _ => cases hof

section
variable {file : ParquetFile} {groups : List (List Row)} {condition : Option DatasetPredicate}

/-- The values of an integer column are integers or `nil`. -/
theorem InGroups.integer (h : InGroups file groups) {position : Nat} {field : Field} {type : IntegerType}
    (hfield : file.schema[position]? = some field) (htype : field.dataType = .scalar (.integer type)) {index : Nat} :
    ∀ row ∈ groups.getD index [], row.get field.name = .nil ∨ ∃ value, row.get field.name = .int value := by
  intro row hrow
  have hindex : index < groups.length := by
    by_contra hge
    rw [List.getD_eq_getElem?_getD, List.getElem?_eq_none (Nat.le_of_not_lt hge)] at hrow
    cases hrow
  obtain ⟨batches, parts, hbatches, hrows, hflat⟩ := h.decodes [index] (by simpa using hindex)
  rw [List.flatMap_singleton] at hflat
  rw [← hflat] at hrow
  obtain ⟨part, hpart, hmem⟩ := List.mem_flatten.mp hrow
  obtain ⟨batch, hbatch, hholds⟩ := exists_of_forall₂_right hrows hpart
  have hb : batch.Holds file.schema := file.holds [index] batch (hbatches ▸ List.mem_map_of_mem hbatch)
  obtain ⟨source, -, -, hof, hlength, hterms⟩ := hholds.source h.names hb hfield
  obtain ⟨i, hi, rfl⟩ := List.getElem_of_mem hmem
  exact integer_term (htype ▸ hof) (encodeValue_source hlength hterms hi)

theorem prunes_integers {dataType : DataType} {operator : PredicateOperator} {native : NativeLiteral}
    {literal : PredicateLiteral} {pruneKind : PruneKind}
    (h : predicateLiteral dataType operator native = .ok (literal, some pruneKind)) :
    dataType = .scalar (.integer .int32) ∨ dataType = .scalar (.integer .int64) := by
  by_contra hneither
  rw [not_or] at hneither
  cases predicateLiteral_pruneKind h hneither.1 hneither.2

/-- A row group that the statistics exclude has no row that the condition selects. -/
theorem skipped_rows (h : InGroups file groups) {predicate : DatasetPredicate} {root : CompiledPredicate}
    (htests : Tests file.schema predicate root) {pruneKind : PruneKind} (hprunes : root.pruneKind = some pruneKind)
    {leaf : Nat} (hleaf : leafColumn file.metaData root.column = some leaf) {index : Nat} {rowGroup : RowGroupMetaData}
    (hgroup : file.metaData.rowGroups[index]? = some rowGroup)
    (hskips : columnSkips root pruneKind leaf rowGroup = true) :
    (groups.getD index []).filter (selects (some predicate)) = [] := by
  obtain ⟨field, native, hfield, hname, hliteral⟩ := htests.field
  rw [hprunes] at hliteral
  have htype := prunes_integers hliteral
  obtain ⟨type, htype'⟩ : ∃ type, field.dataType = .scalar (.integer type) := htype.elim (⟨_, ·⟩) (⟨_, ·⟩)
  obtain ⟨literal, hinteger⟩ : ∃ literal, root.literal = .integer literal := by
    have hfits := predicateLiteral_fits hliteral
    rw [htype'] at hfits
    generalize root.literal = literal at hfits
    cases hfits with
    | integer type value => exact ⟨value, rfl⟩
  obtain ⟨statistics, hstatistics, hskip⟩ := (Option.any_eq_true _ _).mp hskips
  have hdescribes := h.statistics field (List.mem_of_getElem? hfield) htype leaf (hname ▸ hleaf) index rowGroup
    statistics hgroup (Option.join_eq_some_iff.mp hstatistics)
  rw [List.filter_eq_nil_iff]
  intro row hrow hselects
  have hcompare : predicate.selects (row.get field.name) = true := by
    rw [hname.trans htests.column]
    exact hselects
  rcases h.integer hfield htype' row hrow with hnil | ⟨value, hvalue⟩
  · rw [hnil] at hcompare
    cases hcompare
  · have hmem : some value ∈ (groups.getD index []).map fun row => (row.get field.name).int? :=
      List.mem_map.mpr ⟨row, hrow, by rw [hvalue]; rfl⟩
    have hnot := skipRowGroup_sound hdescribes hinteger hskip value hmem
    have hscalar : predicate.literal = .integer literal := compiled?_integer (hinteger ▸ htests.literal)
    rw [DatasetPredicate.selects, hvalue, hscalar, compareTerm_int, ← htests.operator, hnot] at hcompare
    cases hcompare

/-- The selected row groups have every row that the condition selects. -/
theorem selected_rows (h : InGroups file groups) {compiled : Option CompiledPredicate}
    (htests : TestsAll file.schema condition compiled) :
    ((selectRowGroups file.metaData compiled).flatMap fun index => groups.getD index []).filter (selects condition) =
      groups.flatten.filter (selects condition) := by
  have hgroups : ∀ (index : Nat) (group : List Row), groups[index]? = some group →
      (groups.getD index []).filter (selects condition) = group.filter (selects condition) := by
    intro index group hgroup
    rw [List.getD_eq_getElem?_getD, hgroup, Option.getD_some]
  have hall := flatMap_positions groups hgroups
  rw [← h.rowGroups] at hall
  rw [List.filter_flatMap, List.filter_flatten, ← List.flatMap_def]
  rcases htests with ⟨rfl, rfl⟩ | ⟨predicate, root, rfl, rfl, htests⟩
  · exact hall
  · cases hprunes : root.pruneKind with
    | none =>
      rw [selectRowGroups_of_none hprunes]
      exact hall
    | some pruneKind =>
      cases hleaf : leafColumn file.metaData root.column with
      | none =>
        simp only [selectRowGroups, hprunes, hleaf]
        exact hall
      | some leaf =>
        -- Every row group stands with its rows.
        let entries := file.metaData.rowGroups.zip groups
        have hfst : entries.map Prod.fst = file.metaData.rowGroups := List.map_fst_zip h.rowGroups.le
        have hsnd : entries.map Prod.snd = groups := List.map_snd_zip h.rowGroups.ge
        simp only [selectRowGroups, hprunes, hleaf]
        have hkept := flatMap_kept (fun entry => columnSkips root pruneKind leaf entry.1) entries 0
          (f := fun index => (groups.getD index []).filter (selects (some predicate)))
          (g := fun entry => entry.2.filter (selects (some predicate))) ?_ ?_
        · rw [← hfst, List.zipIdx_map, List.filterMap_map]
          refine Eq.trans hkept ?_
          rw [← List.flatMap_map, hsnd]
        · intro index entry hentry
          rw [Nat.zero_add]
          exact hgroups index entry.2 (List.getElem?_zip_eq_some.mp hentry).2
        · intro entry hentry hskips
          obtain ⟨index, hindex⟩ := List.getElem?_of_mem hentry
          obtain ⟨hmeta, hrows⟩ := List.getElem?_zip_eq_some.mp hindex
          rw [← hgroups index entry.2 hrows]
          exact skipped_rows h htests hprunes hleaf hmeta hskips

end

/-! ## Reading -/

theorem selectRowGroups_placed {metadata : ParquetMetaData} {read : List Nat}
    {compiled predicate : Option CompiledPredicate} (h : PlacedIn read compiled predicate) :
    selectRowGroups metadata predicate = selectRowGroups metadata compiled := by
  rcases h with ⟨rfl, rfl⟩ | ⟨root, columnIndex, rfl, rfl, -⟩
  · rfl
  · rfl

theorem selectRowGroups_lt (metadata : ParquetMetaData) (predicate : Option CompiledPredicate) :
    ∀ index ∈ selectRowGroups metadata predicate, index < metadata.rowGroups.length := by
  intro index hindex
  unfold selectRowGroups at hindex
  simp only at hindex
  split at hindex
  · exact List.mem_range.mp hindex
  split at hindex
  · exact List.mem_range.mp hindex
  split at hindex
  · exact List.mem_range.mp hindex
  · obtain ⟨entry, hentry, hkept⟩ := List.mem_filterMap.mp hindex
    split at hkept
    · cases hkept
    · cases hkept
      have hget := List.mem_zipIdx_iff_getElem?.mp hentry
      exact (List.getElem?_eq_some_iff.mp hget).1

theorem fromNative_names {fields : List NativeField} {schema : Schema} (h : Schema.fromNative fields = .ok schema) :
    schema.names = fields.map NativeField.name := by
  obtain ⟨decoded, hdecoded, heq⟩ := except_map_eq_ok.mp h
  cases heq
  unfold Schema.names
  clear h
  induction fields generalizing decoded with
  | nil => cases hdecoded; rfl
  | cons field fields ih =>
    rw [decodeFields] at hdecoded
    obtain ⟨first, hfirst, hdecoded⟩ := except_bind_eq_ok.mp hdecoded
    obtain ⟨rest, hrest, heq⟩ := except_map_eq_ok.mp hdecoded
    cases heq
    cases field with
    | mk name dataType nullable =>
      rw [decodeField] at hfirst
      obtain ⟨type, -, heq⟩ := except_map_eq_ok.mp hfirst
      cases heq
      simp only [List.map_cons, ih rest hrest]
      rfl

/-- A file of these columns, whatever the positive size of its batches, whose row groups have some rows. -/
def HasRows (file : Nat → ParquetFile) (names : List String) (groups : List (List Row)) : Prop :=
  ∀ batchSize, 1 ≤ batchSize → (file batchSize).schema.map Field.name = names ∧ InGroups (file batchSize) groups

/-- The columns of a file that are asked for, in the order of the file. -/
def projected (options : Options) (names : List String) : List String :=
  names.filter fun name => (columnNames options).isEmpty || (columnNames options).contains name

theorem openWith_eq_ok {files : Files} {key : String} {options : Options} {state : ReaderState} {schema : Schema}
    (h : openWith files key options = .ok (state, schema)) {file : Nat → ParquetFile} (hfile : files key = .ok file) :
    ∃ batchSize settings fields, 1 ≤ batchSize ∧ Asks options settings ∧
      openBackend (file batchSize) settings = .ok (state, fields) ∧ Schema.fromNative fields = .ok schema := by
  unfold openWith at h
  obtain ⟨key', hkey, h⟩ := except_bind_eq_ok.mp h
  obtain ⟨native, hnative, h⟩ := except_bind_eq_ok.mp h
  obtain ⟨⟨batchSize, settings⟩, hsettings, h⟩ := except_bind_eq_ok.mp h
  obtain ⟨file', hfile', h⟩ := except_bind_eq_ok.mp h
  obtain ⟨⟨opened, fields⟩, hopened, h⟩ := except_bind_eq_ok.mp h
  obtain ⟨schema', hschema, heq⟩ := except_map_eq_ok.mp h
  cases heq
  obtain ⟨rfl, -⟩ := normalizeKey_eq_ok (TimePartition.liftError_eq_ok.mp hkey)
  rw [hfile] at hfile'
  cases hfile'
  obtain ⟨hpos, hasks⟩ := readerOptions_asks (TimePartition.liftError_eq_ok.mp hnative) hsettings
  refine ⟨batchSize, settings, fields, hpos, hasks, ?_, TimePartition.liftError_eq_ok.mp hschema⟩
  cases hbackend : openBackend (file batchSize) settings with
  | ok opened' => rw [hbackend] at hopened; cases hopened; rfl
  | error stop => rw [hbackend] at hopened; cases stop <;> cases hopened

/-- A file is read as the rows that the condition selects, in the columns that are asked for. -/
theorem read_selects_and_projects (m : RecordBatch → Nat) {files : Files} {key : String} {file : Nat → ParquetFile}
    {names : List String} {groups : List (List Row)} (hfile : files key = .ok file)
    (hrows : HasRows file names groups) {options : Options} {state : ReaderState} {schema : Schema}
    (hopen : openWith files key options = .ok (state, schema)) :
    schema.names = projected options names ∧ ∃ enough, ∀ fuel, enough ≤ fuel →
      read m files key options fuel = some (.ok ((groups.flatten.filter (selects (condition options))).map fun row =>
        Finite.decodeRow schema (row.select (projected options names)))) := by
  obtain ⟨batchSize, settings, fields, hpos, hasks, hbackend, hfrom⟩ := openWith_eq_ok hopen hfile
  obtain ⟨hnames, h⟩ := hrows batchSize hpos
  obtain ⟨compiled, predicate, mask, positions, hcompiled, hresolved, rfl, hfields, hexist⟩ :=
    openBackend_ok h.names hasks.nodup hbackend
  have htests := carries_tests hasks.predicate hcompiled
  have hrequested : (requestedFields (file batchSize).schema settings.columns).map Field.name =
      projected options names := by
    rw [requestedFields, hasks.columns, projected, ← hnames, List.filter_map]
    rfl
  have hschema : schema.names = projected options names := by
    rw [fromNative_names hfrom, nativeFields_names hfields, hrequested]
  refine ⟨hschema, ?_⟩
  have hne : schema.names ≠ [] := by
    rw [hschema, projected]
    intro hempty
    rw [List.filter_eq_nil_iff] at hempty
    rw [hasks.columns, hnames] at hexist
    cases hcolumns : columnNames options with
    | nil =>
      obtain ⟨field, hfield⟩ := List.exists_mem_of_ne_nil _ h.columns
      exact hempty field.name (hnames ▸ List.mem_map_of_mem hfield) (by simp [hcolumns])
    | cons column columns =>
      have hmem : column ∈ columnNames options := hcolumns ▸ List.mem_cons_self
      exact hempty column (hexist column hmem) (by simp [hmem])
  have hnodup : schema.names.Nodup := by
    rw [hschema, projected]
    exact (hnames ▸ h.names).filter _
  obtain ⟨read, -, -, -, hplaced⟩ := hresolved.reads
  have hlt := selectRowGroups_lt (file batchSize).metaData predicate
  rw [h.rowGroups] at hlt
  obtain ⟨batches, parts, hbatches, hparts, hflat⟩ := h.decodes _ hlt
  have hholds : ∀ batch ∈ batches, batch.Holds (file batchSize).schema := fun batch hbatch =>
    (file batchSize).holds _ batch (hbatches ▸ List.mem_map_of_mem hbatch)
  obtain ⟨given, kept, hgiven, hkept, hkeptFlat, hshape⟩ :=
    delivered_rows h.names hresolved (compiledIn hcompiled) htests hparts hholds
  obtain ⟨bs, hbs, hdecoded⟩ := receive_rows hne hnodup hkept fun record hrecord =>
    ⟨by rw [(hshape record hrecord).1, hrequested, hschema], (hshape record hrecord).2⟩
  have hdecode : ((file batchSize).decode mask (selectRowGroups (file batchSize).metaData predicate)).map
      (outcome predicate positions) =
        batches.map fun batch => outcome predicate positions (.ok (batch.select mask)) := by
    rw [ParquetFile.decode, hbatches, List.map_map, List.map_map]
    rfl
  refine ⟨((file batchSize).decode mask (selectRowGroups (file batchSize).metaData predicate)).length + 1,
    fun fuel hfuel => ?_⟩
  have hanswers := @openedReader_answers m _ settings.prefetchDepth fuel predicate positions hasks.depth hfuel
  rw [hdecode, hgiven] at hanswers
  unfold FileStream.read
  rw [hopen]
  simp only
  rw [Finite.toList_of_answers hbs hanswers, Option.map_some, Except.map, hdecoded, hkeptFlat, hflat,
    selectRowGroups_placed hplaced, selected_rows h htests, hschema]

/-! ## Events -/

def eventFields : List Field := [.mk "id" (.scalar (.integer .int64)) true, .mk "name" (.scalar .utf8) true]

def eventBatch (ids : List (Option Int)) (names : List (Option String)) : RecordBatch where
  schema := eventFields
  columns := [.flat (.integer .int64) (.integers ids), .flat .utf8 (.strings names)]
  numRows := ids.length

def eventRow (event : Option Int × Option String) : Row :=
  [("id", event.1.elim .nil .int), ("name", event.2.elim .nil .text)]

/-- Two row groups, of which the first ends below the ids of the second. -/
def eventGroups : List (List (Option Int × Option String)) :=
  [[(some 1, some "a"), (some 2, none)], [(some 7, some "c"), (none, some "d")]]

def eventStatistics (min max : Int) (nulls : Nat) : Statistics where
  values := .int64 ⟨some min, some max⟩
  nullCount := some nulls
  minIsExact := true
  maxIsExact := true

def eventFile (_batchSize : Nat) : ParquetFile where
  schema := eventFields
  metaData :=
    { columns := [["id"], ["name"]]
      rowGroups := [⟨2, [some (eventStatistics 1 2 0), none]⟩, ⟨2, [some (eventStatistics 7 7 1), none]⟩] }
  batches selected := selected.map fun index =>
    .ok (eventBatch ((eventGroups.getD index []).map Prod.fst) ((eventGroups.getD index []).map Prod.snd))
  holds := by
    intro rowGroups batch hbatch
    obtain ⟨index, -, heq⟩ := List.mem_map.mp hbatch
    cases heq
    refine ⟨rfl, .cons ⟨⟨rfl, rfl⟩, rfl, trivial⟩ (.cons ⟨⟨rfl, rfl⟩, ?_, trivial⟩ .nil)⟩
    simp [ArrowArray.length, Slots.length, eventBatch]

theorem terms_flat {α : Type} (values : List (Option α)) {encode : α → Except (Stop NativeFailure) Term}
    {term : α → Term} (h : ∀ value, encode value = .ok (term value)) :
    ((List.range values.length).map fun index => encodeAt values index encode) =
      values.map fun value => .ok (value.elim .nil term) := by
  apply List.ext_getElem
  · rw [List.length_map, List.length_map, List.length_range]
  · intro index hindex hindex'
    rw [List.length_map] at hindex'
    rw [List.getElem_map, List.getElem_map, List.getElem_range, encodeAt, List.getElem?_eq_getElem hindex']
    cases values[index] with
    | none => rfl
    | some value => exact h value

theorem eventBatch_rows (events : List (Option Int × Option String)) :
    HoldsRows (eventBatch (events.map Prod.fst) (events.map Prod.snd)) (events.map eventRow) := by
  refine ⟨by simp [eventBatch], ?_⟩
  have hids := @terms_flat _ (events.map Prod.fst) (fun value => .ok (.int value)) _ fun _ => rfl
  have hnames := @terms_flat _ (events.map Prod.snd) (fun value => .ok (.text value)) _ fun _ => rfl
  rw [List.map_map] at hids hnames
  refine List.forall_mem_cons.mpr ⟨?_, List.forall_mem_singleton.mpr ?_⟩
  · rw [List.map_map]
    exact hids
  · rw [List.map_map]
    exact hnames

theorem eventStatistics_describe {min max : Int} {values : List (Option Int)} {columns : List (Option Statistics)}
    (h : ∀ value, some value ∈ values → min ≤ value ∧ value ≤ max) :
    Describes ⟨values.length, columns⟩ (eventStatistics min max (values.count none)) values where
  numRows := rfl
  nullCount := by
    intro n hn
    exact (Option.some.inj hn).symm
  min := by
    intro bounds hbounds m hm value hvalue
    rcases hbounds with hb | hb
    · cases hb
    · cases hb
      cases hm
      exact (h value hvalue).1
  max := by
    intro bounds hbounds m hm value hvalue
    rcases hbounds with hb | hb
    · cases hb
    · cases hb
      cases hm
      exact (h value hvalue).2

theorem eventFile_hasRows : HasRows eventFile ["id", "name"] (eventGroups.map fun events => events.map eventRow) := by
  refine fun batchSize _ => ⟨rfl, by simp [eventFile, eventFields], ?_, rfl, ?_, ?_⟩
  · exact show ["id", "name"].Nodup by decide
  · intro selected _
    refine ⟨selected.map fun index =>
        eventBatch ((eventGroups.getD index []).map Prod.fst) ((eventGroups.getD index []).map Prod.snd),
      selected.map fun index => (eventGroups.getD index []).map eventRow, ?_, ?_, ?_⟩
    · rw [List.map_map]
      rfl
    · rw [List.forall₂_map_left_iff, List.forall₂_map_right_iff, List.forall₂_same]
      exact fun index _ => eventBatch_rows _
    · rw [List.flatMap_def]
      refine congrArg List.flatten (List.map_congr_left fun index _ => ?_)
      rw [List.getD_eq_getElem?_getD, List.getD_eq_getElem?_getD, List.getElem?_map]
      cases eventGroups[index]? <;> rfl
  · refine List.forall_mem_cons.mpr ⟨?_, List.forall_mem_singleton.mpr ?_⟩
    · intro _ leaf hleaf index rowGroup statistics hgroup hstatistics
      cases hleaf
      rcases index with _ | _ | index
      · cases hgroup
        cases hstatistics
        exact @eventStatistics_describe 1 2 [some 1, some 2] _ (by simp)
      · cases hgroup
        cases hstatistics
        exact @eventStatistics_describe 7 7 [some 7, none] _ (by simp)
      · cases hgroup
    · intro htype
      rcases htype with h | h
      · cases h
      · cases h

def laterEvents : Options :=
  [("where", .tuple [.atom "gt", .atom "id", .int 3]), ("columns", .list [.atom "name"]), ("prefetch_depth", .int 2)]

theorem read_selects_and_projects_later : ∃ enough, ∀ fuel, enough ≤ fuel →
    read RecordBatch.numRows (fun _ => .ok eventFile) "a" laterEvents fuel = some (.ok [[("name", .text "c")]]) :=
  (@read_selects_and_projects RecordBatch.numRows (fun _ => .ok eventFile) "a" eventFile _ _ rfl eventFile_hasRows laterEvents _ _ rfl).2

end FileStream

end Parquex
