import Parquex.DatasetRead
import Parquex.FileRead
import Parquex.FiniteRoundTrip
import Parquex.PredicateAgreement
import Parquex.PrefetchSound
import Parquex.PruningSound

/-!
# Reading selects and projects

A stream over a file returns the rows that its condition selects, in the columns
that it asks for. Row groups that statistics exclude, the size of batches and the
depth of prefetching do not show.
-/

namespace Parquex

namespace FileStream

/-! ## What is asked for -/

/-- The comparison that a condition asks for. -/
def comparison (condition : Term) : Option DatasetPredicate :=
  match condition with
  | .tuple [.atom operator, column, literal] =>
    match whereOperator operator, readerName column, literal.scalar? with
    | some operator, some (.text column), some literal => some { operator, column, literal }
    | _, _, _ => none
  | _ => none

def condition (options : Options) : Option DatasetPredicate := comparison ((options.lookup "where").getD .nil)

/-- The columns that a term lists, none for all. -/
def namesOf (columns : Term) : List String :=
  match columns with
  | .list columns => columns.filterMap fun column => (readerName column).bind fun name => (Term.binary name).string?
  | _ => []

def columnNames (options : Options) : List String := namesOf ((options.lookup "columns").getD .nil)

def selects (condition : Option DatasetPredicate) (row : Row) : Bool :=
  condition.all fun predicate => predicate.selects (row.get predicate.column)

/-- A native predicate with the parts of a comparison. -/
def Carries (condition : Option DatasetPredicate) (native : Option NativePredicate) : Prop :=
  (condition = none ∧ native = none) ∨ ∃ predicate native', condition = some predicate ∧ native = some native' ∧
    native'.column = predicate.column ∧ predicateOperator native'.operator = .ok predicate.operator ∧
      predicate.literal.native? = some native'.literal

theorem validatePredicate_inv {term : Term} {accepted : Option PredicateMap}
    (h : validatePredicate term = .ok accepted) :
    (comparison term = none ∧ accepted = none) ∨ ∃ map, accepted = some map ∧
      ∀ native, map.decode = .ok native → Carries (comparison term) (some native) := by
  unfold validatePredicate at h
  split at h
  · cases h
    exact Or.inl ⟨rfl, rfl⟩
  · next op column value =>
    cases hop : whereOperator op with
    | none => rw [hop] at h; cases h
    | some operator =>
      rw [hop] at h
      simp only [Option.isNone_some, Bool.false_eq_true, if_false] at h
      split at h
      · cases h
      · next name hname =>
        split at h
        · next map hmap =>
          split at h
          · cases h
          · cases h
            refine Or.inr ⟨map, rfl, fun native hdecode => ?_⟩
            cases hscalar : value.scalar? with
            | none => simp only [literalMap, hscalar] at hmap; cases hmap
            | some literal =>
              cases name with
              | raw bytes =>
                simp only [PredicateMap.decode, literalMap_column hmap] at hdecode
                cases hdecode
              | text name =>
                rcases literalMap_decode op name hscalar with
                  ⟨-, hnone⟩ | ⟨nativeLiteral, map', hnative, hmap', hdecode'⟩
                · exact absurd hdecode (hnone map native hmap)
                · obtain rfl : map' = map := Option.some.inj (hmap'.symm.trans hmap)
                  obtain rfl := Except.ok.inj (hdecode'.symm.trans hdecode)
                  refine Or.inr ⟨⟨operator, name, literal⟩, _, ?_, rfl, rfl, predicateOperator_eq hop, hnative⟩
                  simp only [comparison, hop, hname, hscalar]
        · cases h
  · cases h

/-- What the native library is asked for is what the options ask for. -/
structure Asks (options : Options) (settings : ReaderOpenSettings) : Prop where
  depth : 1 ≤ settings.prefetchDepth
  columns : settings.columns = columnNames options
  nodup : settings.columns.Nodup
  predicate : Carries (condition options) settings.predicate

theorem positiveInteger_pos {options : Options} {key : String} {default : Int} {n : Nat}
    (h : positiveInteger options key default = .ok n) : 1 ≤ n := by
  unfold positiveInteger at h
  simp only at h
  split at h
  · split at h
    · next value hpos =>
      cases h
      omega
    · cases h
  · cases h

theorem validateColumns_inv {term : Term} {names : List Binary} (h : validateColumns term = .ok names)
    {columns : List String} (hcolumns : names.mapM (fun column => (Term.binary column).string?) = some columns) :
    columns = namesOf term ∧ columns.Nodup := by
  unfold validateColumns at h
  split at h
  · cases h
    cases hcolumns
    exact ⟨rfl, List.nodup_nil⟩
  · next terms =>
    split at h
    · next names' hnames =>
      split at h
      · next hvalid =>
        cases h
        rw [mapM_eq_some] at hnames hcolumns
        refine ⟨?_, ?_⟩
        · clear hvalid
          simp only [namesOf]
          induction hnames generalizing columns with
          | nil => cases hcolumns; rfl
          | @cons term name terms names hname _ ih =>
            cases hcolumns with
            | @cons _ string _ strings hstring hrest =>
              rw [List.filterMap_cons, hname, Option.bind_some, hstring, ih hrest]
        · refine nodup_of_forall₂ hcolumns ?_ ?_ hvalid.2.2
          · intro name string string' hs hs'
            exact Option.some.inj (hs.symm.trans hs')
          · intro name name' string hs hs'
            cases name <;> cases hs
            cases name' <;> cases hs'
            rfl
      · cases h
    · cases h
  · cases h

theorem readerOptions_asks {options : Options} {settings : ReaderOptions} (h : readerOptions options = .ok settings)
    {batchSize : Nat} {native : ReaderOpenSettings} (hdecode : settings.decode = .ok (batchSize, native)) :
    1 ≤ batchSize ∧ Asks options native := by
  unfold readerOptions at h
  obtain ⟨-, -, h⟩ := except_bind_eq_ok.mp h
  obtain ⟨size, hsize, h⟩ := except_bind_eq_ok.mp h
  obtain ⟨depth, hdepth, h⟩ := except_bind_eq_ok.mp h
  obtain ⟨-, -, h⟩ := except_bind_eq_ok.mp h
  obtain ⟨columns, hcolumns, h⟩ := except_bind_eq_ok.mp h
  obtain ⟨predicate, hpredicate, h⟩ := except_bind_eq_ok.mp h
  cases h
  unfold ReaderOptions.decode at hdecode
  simp only at hdecode
  split at hdecode
  · cases hdecode
  split at hdecode
  · cases hdecode
  · next names hnames =>
    obtain ⟨hsame, hnodup⟩ := validateColumns_inv hcolumns hnames
    obtain ⟨native', hnative, heq⟩ := except_map_eq_ok.mp hdecode
    cases heq
    refine ⟨positiveInteger_pos hsize, positiveInteger_pos hdepth, hsame, hnodup, ?_⟩
    rcases validatePredicate_inv hpredicate with ⟨hnone, rfl⟩ | ⟨map, rfl, hcarries⟩
    · cases hnative
      exact Or.inl ⟨hnone, rfl⟩
    · obtain ⟨carried, hcarried, heq⟩ := except_map_eq_ok.mp hnative
      cases heq
      exact hcarries carried hcarried

/-! ## Opening -/

/-- A compiled predicate tests what a comparison asks for. -/
structure Tests (fields : List Field) (predicate : DatasetPredicate) (root : CompiledPredicate) : Prop where
  column : root.column = predicate.column
  operator : root.operator = predicate.operator
  literal : predicate.literal.compiled? = some root.literal
  field : ∃ field native, fields[root.rootIndex]? = some field ∧ field.name = root.column ∧
    predicateLiteral field.dataType root.operator native = .ok (root.literal, root.pruneKind)

def TestsAll (fields : List Field) (condition : Option DatasetPredicate) (compiled : Option CompiledPredicate) : Prop :=
  (condition = none ∧ compiled = none) ∨
    ∃ predicate root, condition = some predicate ∧ compiled = some root ∧ Tests fields predicate root

theorem literalOf_eq_ok {α : Type} {literal : NativeLiteral} {kind : String} {value : Option α} {a : α}
    (h : literalOf literal kind value = .ok a) : value = some a := by
  unfold literalOf at h
  by_cases hk : literal.kind = kind
  · rw [if_pos hk] at h
    cases value with
    | none => cases h
    | some value => cases h; rfl
  · rw [if_neg hk] at h
    cases h

/-- What a scalar is compiled to does not depend on the type of the column. -/
theorem compiled_literal {scalar : Scalar} {native : NativeLiteral} (hnative : scalar.native? = some native)
    {dataType : DataType} {operator : PredicateOperator} {literal : PredicateLiteral} {pruneKind : Option PruneKind}
    (h : predicateLiteral dataType operator native = .ok (literal, pruneKind)) :
    scalar.compiled? = some literal := by
  have hvalue : (∃ value, integerLiteral native = .ok value ∧ literal = .integer value) ∨
      (∃ value, floatLiteral native = .ok value ∧ literal = .float value) ∨
      (∃ value, stringLiteral native = .ok value ∧ literal = .utf8 value) ∨
      ∃ value, booleanLiteral native = .ok value ∧ literal = .boolean value := by
    unfold predicateLiteral at h
    split at h
    case h_1 | h_2 | h_3 =>
      obtain ⟨value, hvalue, heq⟩ := except_map_eq_ok.mp h
      cases heq
      exact Or.inl ⟨value, hvalue, rfl⟩
    case h_4 | h_5 =>
      obtain ⟨value, hvalue, heq⟩ := except_map_eq_ok.mp h
      cases heq
      exact Or.inr (Or.inl ⟨value, hvalue, rfl⟩)
    case h_6 | h_7 =>
      obtain ⟨value, hvalue, heq⟩ := except_map_eq_ok.mp h
      cases heq
      exact Or.inr (Or.inr (Or.inl ⟨value, hvalue, rfl⟩))
    case h_8 =>
      split at h
      · obtain ⟨value, hvalue, heq⟩ := except_map_eq_ok.mp h
        cases heq
        exact Or.inr (Or.inr (Or.inr ⟨value, hvalue, rfl⟩))
      · cases h
    case h_9 => cases h
  cases scalar with
  | integer number =>
    obtain ⟨-, rfl⟩ := native?_integer hnative
    rcases hvalue with ⟨value, hv, rfl⟩ | ⟨value, hv, -⟩ | ⟨value, hv, -⟩ | ⟨value, hv, -⟩
    · cases literalOf_eq_ok hv
      rfl
    · cases literalOf_eq_ok hv
    · cases literalOf_eq_ok hv
    · cases literalOf_eq_ok hv
  | float number =>
    cases hnative
    rcases hvalue with ⟨value, hv, -⟩ | ⟨value, hv, rfl⟩ | ⟨value, hv, -⟩ | ⟨value, hv, -⟩
    · cases literalOf_eq_ok hv
    · cases literalOf_eq_ok hv
      rfl
    · cases literalOf_eq_ok hv
    · cases literalOf_eq_ok hv
  | binary bytes =>
    cases bytes with
    | raw bytes => cases hnative
    | text string =>
      cases hnative
      rcases hvalue with ⟨value, hv, -⟩ | ⟨value, hv, -⟩ | ⟨value, hv, rfl⟩ | ⟨value, hv, -⟩
      · cases literalOf_eq_ok hv
      · cases literalOf_eq_ok hv
      · cases literalOf_eq_ok hv
        rfl
      · cases literalOf_eq_ok hv
  | boolean bit =>
    cases hnative
    rcases hvalue with ⟨value, hv, -⟩ | ⟨value, hv, -⟩ | ⟨value, hv, -⟩ | ⟨value, hv, rfl⟩
    · cases literalOf_eq_ok hv
    · cases literalOf_eq_ok hv
    · cases literalOf_eq_ok hv
    · cases literalOf_eq_ok hv
      rfl

theorem carries_tests {condition : Option DatasetPredicate} {native : Option NativePredicate}
    (h : Carries condition native) {fields : List Field} {compiled : Option CompiledPredicate}
    (hcompiled : compileOptional native fields = .ok compiled) : TestsAll fields condition compiled := by
  rcases h with ⟨rfl, rfl⟩ | ⟨predicate, native', rfl, rfl, hcolumn, hoperator, hliteral⟩
  · cases hcompiled
    exact Or.inl ⟨rfl, rfl⟩
  · obtain ⟨root, hroot, heq⟩ := except_map_eq_ok.mp hcompiled
    cases heq
    obtain ⟨hname, hop, field, hfield, hfname, hpred⟩ := compilePredicate_ok hroot
    refine Or.inr ⟨predicate, root, rfl, rfl, hname.trans hcolumn, ?_, compiled_literal hliteral hpred,
      field, native'.literal, hfield, hfname.trans hname.symm, hpred⟩
    exact Except.ok.inj (hop.symm.trans hoperator)

theorem projectionIndices_exist {fields : List Field} {columns : List String} {indices : List Nat}
    (h : projectionIndices fields columns = .ok indices) : ∀ column ∈ columns, column ∈ fields.map Field.name := by
  unfold projectionIndices at h
  cases hempty : columns.isEmpty with
  | true =>
    rw [List.isEmpty_iff.mp hempty]
    simp
  | false =>
    rw [hempty, if_neg (by simp)] at h
    obtain ⟨found, hfound, -⟩ := except_map_eq_ok.mp h
    intro column hcolumn
    obtain ⟨index, -, hindex⟩ := exists_of_forall₂_left (mapM_eq_ok.mp hfound) hcolumn
    unfold projectedColumn at hindex
    cases hfind : fields.findIdx? (fun field => field.name == column) with
    | none => rw [hfind] at hindex; cases hindex
    | some index =>
      obtain ⟨field, hfield, hname⟩ := (namedAt_of_findIdx? hfind).2
      exact hname ▸ List.mem_map_of_mem (List.mem_of_getElem? hfield)

/-- What an open reader reads, filters and delivers. -/
theorem openBackend_ok {file : ParquetFile} {settings : ReaderOpenSettings}
    (hnames : (file.schema.map Field.name).Nodup) (hcolumns : settings.columns.Nodup) {state : ReaderState}
    {projected : List NativeField} (h : openBackend file settings = .ok (state, projected)) :
    ∃ compiled predicate mask positions, compileOptional settings.predicate file.schema = .ok compiled ∧
      Resolved file settings compiled predicate mask positions ∧
      state = openedReader (file.decode mask (selectRowGroups file.metaData predicate)) settings.prefetchDepth predicate
        positions ∧
      nativeFields (requestedFields file.schema settings.columns) = .ok projected ∧
      ∀ column ∈ settings.columns, column ∈ file.schema.map Field.name := by
  have hopen := h
  unfold openBackend at h
  obtain ⟨nativeAll, hnative, h⟩ := except_bind_eq_ok.mp h
  obtain ⟨indices, hindices, h⟩ := except_bind_eq_ok.mp h
  obtain ⟨compiled, hcompiled, -⟩ := except_bind_eq_ok.mp h
  have hnative := native_eq_ok.mp hnative
  have hcompiled := native_eq_ok.mp hcompiled
  have hexist := projectionIndices_exist (native_eq_ok.mp hindices)
  have hroot := (compiledIn hcompiled).rootsIn
  cases hall : settings.columns.isEmpty with
  | true =>
    obtain ⟨predicate, hresolved, hopened, hfields⟩ := openBackend_all hall hnative hcompiled hroot
    cases hopen.symm.trans hopened
    exact ⟨compiled, predicate, _, _, hcompiled, hresolved, rfl, hfields, hexist⟩
  | false =>
    obtain ⟨predicate, positions, fields, hresolved, hopened, hfields⟩ :=
      openBackend_some hall (projectionIndices_eq hnames hcolumns hexist) hnative hcompiled hroot
    cases hopen.symm.trans hopened
    exact ⟨compiled, predicate, _, _, hcompiled, hresolved, rfl, hfields, hexist⟩

/-! ## Rows of batches -/

/-- A batch that encodes some rows. -/
structure HoldsRows (batch : RecordBatch) (rows : List Row) : Prop where
  numRows : batch.numRows = rows.length
  terms : ∀ field ∈ batch.schema, batch.terms field.name = rows.map fun row => .ok (row.get field.name)

theorem finite_of_terms {array : ArrowArray} {items : List Term} (h : array.terms = items.map .ok) : array.Finite := by
  cases array with
  | flat type slots =>
    cases slots with
    | floats values =>
      intro value hvalue
      obtain ⟨index, hindex, hget⟩ := List.getElem_of_mem hvalue
      have hmem : encodeValue (.flat type (.floats values)) index ∈ items.map Except.ok := by
        rw [← h]
        exact List.mem_map_of_mem (List.mem_range.mpr hindex)
      obtain ⟨item, -, hitem⟩ := List.mem_map.mp hmem
      rw [encodeValue] at hitem
      cases hstorage : type.storage with
      | float32 | float64 =>
        rw [hstorage] at hitem
        simp only [encodeSlots, encodeAt, List.getElem?_eq_getElem hindex, hget] at hitem
        cases value with
        | finite number => exact ⟨number, rfl⟩
        | _ => cases hitem
      | _ => rw [hstorage] at hitem; cases hitem
    | _ => trivial
  | _ => trivial

section
variable {fields : List Field} {batch : RecordBatch} {rows : List Row} {condition : Option DatasetPredicate}
  {compiled : Option CompiledPredicate}

theorem HoldsRows.source (hnames : (fields.map Field.name).Nodup) (hb : batch.Holds fields)
    (hrows : HoldsRows batch rows) {index : Nat} {field : Field} (hfield : fields[index]? = some field) :
    ∃ source, batch.columns[index]? = some source ∧ batch.columnNamed field.name = some source ∧
      source.Of field.dataType ∧ source.length = rows.length ∧
      source.terms = rows.map fun row => .ok (row.get field.name) := by
  obtain ⟨source, hsource, hnamed, hof, hlength, -⟩ := hb.columnNamed hnames hfield
  have hterms := hrows.terms field (hb.schema ▸ List.mem_of_getElem? hfield)
  rw [RecordBatch.terms, hnamed] at hterms
  exact ⟨source, hsource, hnamed, hof, hlength.trans hrows.numRows, hterms⟩

theorem encodeValue_source {source : ArrowArray} {name : String} (hlength : source.length = rows.length)
    (hterms : source.terms = rows.map fun row => .ok (row.get name)) {index : Nat} (hindex : index < rows.length) :
    encodeValue source index = .ok (rows[index].get name) := by
  have hget := congrArg (fun terms => terms[index]?) hterms
  simp only [ArrowArray.terms, List.getElem?_map, List.getElem?_eq_getElem hindex, Option.map_some,
    List.getElem?_range (hlength ▸ hindex), Option.some.injEq] at hget
  exact hget

/-- The matching rows of a batch are the rows that the condition selects. -/
theorem matchingRows_rows (hnames : (fields.map Field.name).Nodup) (hb : batch.Holds fields)
    (hrows : HoldsRows batch rows) (h : TestsAll fields condition compiled) :
    matchingRows compiled batch =
      (List.range rows.length).filter fun index => rows[index]?.any (selects condition) := by
  rcases h with ⟨rfl, rfl⟩ | ⟨predicate, root, rfl, rfl, htests⟩
  · rw [matchingRows_none, hrows.numRows]
    symm
    apply List.filter_eq_self.mpr
    intro index hindex
    rw [List.getElem?_eq_getElem (List.mem_range.mp hindex)]
    rfl
  · obtain ⟨field, native, hfield, hname, hliteral⟩ := htests.field
    obtain ⟨source, hsource, -, hof, hlength, hterms⟩ := hrows.source hnames hb hfield
    obtain ⟨mask, hmask, -, hkept⟩ := keptRows_matching hnames hb hfield hname hliteral hsource
    have hboolean : field.dataType = .scalar .boolean → predicate.operator = .eq := by
      intro heq
      rw [heq, htests.operator] at hliteral
      by_contra hne
      unfold predicateLiteral at hliteral
      simp only [if_neg hne] at hliteral
      cases hliteral
    have hmap : source.terms = (rows.map fun row => row.get field.name).map .ok := by
      rw [hterms, List.map_map]
      rfl
    obtain ⟨terms, hagree⟩ := rows_agree (p := predicate) (predicateLiteral_fits hliteral) htests.literal hboolean hof
      (finite_of_terms hmap)
    obtain ⟨mask', hmask', hkept'⟩ := hagree.rows
    rw [← htests.operator, hmask] at hmask'
    cases hmask'
    rw [← hkept, hkept', datasetRows, hagree.length, hlength]
    apply List.filter_congr
    intro index hindex
    have hlt := List.mem_range.mp hindex
    have hterm := hagree.encode index (hlength ▸ hlt)
    rw [encodeValue_source hlength hterms hlt] at hterm
    rw [← Except.ok.inj hterm, List.getElem?_eq_getElem hlt, hname.trans htests.column]
    rfl

/-- A delivered batch holds the selected rows. -/
theorem holdsRows_delivered (hnames : (fields.map Field.name).Nodup) (hb : batch.Holds fields)
    (hrows : HoldsRows batch rows) (h : TestsAll fields condition compiled) {requested : List String}
    {delivered : RecordBatch} (hdelivers : Delivers fields requested compiled batch delivered) :
    HoldsRows delivered (rows.filter (selects condition)) := by
  have hmatching := matchingRows_rows hnames hb hrows h
  have hlt : ∀ index ∈ matchingRows compiled batch, index < rows.length := by
    rw [← hrows.numRows]
    exact matchingRows_lt
  have hpick : pick (matchingRows compiled batch) rows = rows.filter (selects condition) := by
    rw [hmatching]
    exact pick_filter_range rows (selects condition)
  have hlength : (rows.filter (selects condition)).length = (matchingRows compiled batch).length := by
    rw [← hpick, length_pick hlt]
  refine ⟨hdelivers.numRows.trans hlength.symm, fun field hfield => ?_⟩
  have hsub : delivered.schema.Sublist fields := hdelivers.schema ▸ List.filter_sublist
  obtain ⟨i, hi⟩ := List.getElem?_of_mem hfield
  have hwidth : i < delivered.columns.length := by
    rw [hdelivers.width]
    exact (List.getElem?_eq_some_iff.mp hi).1
  have harray := List.getElem?_eq_getElem hwidth
  obtain ⟨source, hnamed, -, hsize, hencode⟩ := hdelivers.columns i field _ hi harray
  obtain ⟨index, hindex⟩ := List.getElem?_of_mem (hsub.subset hfield)
  obtain ⟨source', -, hnamed', -, hsource, hterms⟩ := hrows.source hnames hb hindex
  obtain rfl : source' = source := Option.some.inj (hnamed'.symm.trans hnamed)
  have hcolumn : delivered.columnNamed field.name = some delivered.columns[i] := by
    rw [RecordBatch.columnNamed, find?_zip_name (hnames.sublist (hsub.map _)) hdelivers.width.symm hi harray]
    rfl
  rw [RecordBatch.terms, hcolumn, Option.elim_some, ArrowArray.terms, hsize, ← hpick]
  apply List.ext_getElem
  · rw [List.length_map, List.length_map, List.length_range, length_pick hlt]
  · intro j hj hj'
    rw [List.length_map, List.length_range] at hj
    have hrow := hlt _ (List.getElem_mem hj)
    have hpicked : (pick (matchingRows compiled batch) rows)[j]? = some rows[(matchingRows compiled batch)[j]] := by
      rw [getElem?_pick hlt, List.getElem?_eq_getElem hj, Option.bind_some, List.getElem?_eq_getElem hrow]
    rw [List.length_map] at hj'
    rw [List.getElem?_eq_getElem hj', Option.some.injEq] at hpicked
    rw [List.getElem_map, List.getElem_map, List.getElem_range, hencode j hj, encodeValue_source hsource hterms hrow,
      hpicked]

end

/-! ## Received batches -/

/-- A batch that encodes some rows is received as a batch of their columns. -/
theorem receiveBatch_rows {schema : Schema} {record : RecordBatch} {rows : List Row}
    (hnames : record.schema.map Field.name = schema.names) (hnodup : schema.names.Nodup)
    (hwidth : record.columns.length = record.schema.length) (hrows : HoldsRows record rows) :
    ∃ batch, Finite.receiveBatch schema record = .ok batch ∧ batch.schema = schema ∧
      ∀ name ∈ schema.names, batch.column name = rows.map fun row => row.get name := by
  have hnamed := forall₂_columnNamed record.numRows (hnames ▸ hnodup) hwidth.symm
  have hterms : List.Forall₂ (fun field array =>
      array.terms = (rows.map fun row => row.get (Field.name field)).map .ok) record.schema record.columns := by
    refine forall₂_of_mem hnamed fun field hfield array _ harray => ?_
    have hcolumn := hrows.terms field hfield
    rw [RecordBatch.terms, show record.columnNamed field.name = some array from harray] at hcolumn
    rw [List.map_map]
    exact hcolumn
  have hlength : ∀ array ∈ record.columns, array.length = record.numRows := by
    intro array harray
    obtain ⟨field, -, hfield⟩ := exists_of_forall₂_right hterms harray
    rw [length_of_terms hfield, List.length_map, hrows.numRows]
  obtain ⟨native, batch, hencode, hfrom, hschema, hcolumn⟩ :=
    Batch.fromNative_encodeBatch (f := fun name => rows.map fun row => row.get name) hnames hterms hlength
  refine ⟨batch, ?_, hschema, hcolumn⟩
  unfold Finite.receiveBatch
  rw [hencode]
  exact except_bind_eq_ok.mpr ⟨native, rfl, TimePartition.liftError_eq_ok.mpr hfrom⟩

/-- Batches that encode some rows are received as batches that expand to them. -/
theorem receive_rows {schema : Schema} {given : List RecordBatch} {parts : List (List Row)} (hne : schema.names ≠ [])
    (hnodup : schema.names.Nodup) (h : List.Forall₂ HoldsRows given parts)
    (hshape : ∀ record ∈ given, record.schema.map Field.name = schema.names ∧
      record.columns.length = record.schema.length) :
    ∃ bs, List.Forall₂ (fun record batch => Finite.receiveBatch schema record = .ok batch) given bs ∧
      Finite.decodeRows bs = parts.flatten.map fun row => Finite.decodeRow schema (row.select schema.names) := by
  obtain ⟨bs, hbs, hschema, hcolumns⟩ : ∃ bs,
      List.Forall₂ (fun record batch => Finite.receiveBatch schema record = .ok batch) given bs ∧
      (∀ batch ∈ bs, batch.schema = schema) ∧ ∀ name ∈ schema.names,
        (bs.flatMap fun batch => batch.column name) = parts.flatten.map fun row => row.get name := by
    induction h with
    | nil => exact ⟨[], .nil, by simp, by simp⟩
    | @cons record rows given parts hhead _ ih =>
      obtain ⟨⟨hnames, hwidth⟩, hrest⟩ := List.forall_mem_cons.mp hshape
      obtain ⟨bs, hbs, hschema, hcolumns⟩ := ih hrest
      obtain ⟨batch, hbatch, hs, hcolumn⟩ := receiveBatch_rows hnames hnodup hwidth hhead
      refine ⟨batch :: bs, .cons hbatch hbs, List.forall_mem_cons.mpr ⟨hs, hschema⟩, fun name hname => ?_⟩
      rw [List.flatMap_cons, hcolumn name hname, hcolumns name hname, List.flatten_cons, List.map_append]
  refine ⟨bs, hbs, ?_⟩
  rw [Finite.decodeRows_eq hschema, Batch.flatMap_toRows hne hschema hcolumns, List.map_map]
  rfl

/-! ## Draining a reader -/

section
variable {file : ParquetFile} {settings : ReaderOpenSettings} {condition : Option DatasetPredicate}
  {compiled predicate : Option CompiledPredicate} {mask : ProjectionMask} {positions : List Nat}

/-- What an open reader delivers of batches that hold some rows. -/
theorem delivered_rows (hnames : (file.schema.map Field.name).Nodup)
    (hresolved : Resolved file settings compiled predicate mask positions) (hcompiled : CompiledIn file.schema compiled)
    (htests : TestsAll file.schema condition compiled) {batches : List RecordBatch} {parts : List (List Row)}
    (h : List.Forall₂ HoldsRows batches parts) (hholds : ∀ batch ∈ batches, batch.Holds file.schema) :
    ∃ given kept, untilFailure (batches.map fun batch => outcome predicate positions (.ok (batch.select mask))) =
        (given, none) ∧ List.Forall₂ HoldsRows given kept ∧ kept.flatten = parts.flatten.filter (selects condition) ∧
      ∀ delivered ∈ given, delivered.schema = requestedFields file.schema settings.columns ∧
        delivered.columns.length = delivered.schema.length := by
  induction h with
  | nil => exact ⟨[], [], rfl, .nil, rfl, by simp⟩
  | @cons batch rows batches parts hhead _ ih =>
    obtain ⟨hb, hrest⟩ := List.forall_mem_cons.mp hholds
    obtain ⟨given, kept, hgiven, hkept, hflat, hshape⟩ := ih hrest
    obtain ⟨delivered, happly, hdelivers⟩ := resolved_delivers hnames hresolved hcompiled hb
    have hrows := holdsRows_delivered hnames hb hhead htests hdelivers
    rw [List.map_cons, List.flatten_cons, List.filter_append]
    by_cases hempty : delivered.numRows = 0
    · refine ⟨given, kept, ?_, hkept, ?_, hshape⟩
      · have houtcome : outcome predicate positions (.ok (batch.select mask)) = .ok none := by
          simp only [outcome, happly, hempty, if_true]
        rw [houtcome, untilFailure, hgiven]
      · rw [hflat, List.length_eq_zero_iff.mp (hrows.numRows.symm.trans hempty), List.nil_append]
    · refine ⟨delivered :: given, rows.filter (selects condition) :: kept, ?_, .cons hrows hkept, ?_,
        List.forall_mem_cons.mpr ⟨⟨hdelivers.schema, hdelivers.width⟩, hshape⟩⟩
      · have houtcome : outcome predicate positions (.ok (batch.select mask)) = .ok (some delivered) := by
          simp only [outcome, happly, hempty, if_false]
        rw [houtcome, untilFailure, hgiven]
      · rw [List.flatten_cons, hflat]

end

end FileStream

end Parquex
