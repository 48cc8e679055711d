import Parquex.BatchFilterSound
import Parquex.Fallible
import Parquex.Positions
import Parquex.ReaderSound

/-!
# Projection and predicate columns

Requested columns are named in the file, read by position in what the decoder
reads and delivered by position in that. Every delivered batch has the requested
columns in file order and the rows whose predicate column, found by its name,
satisfies the predicate.
-/

namespace Parquex

/-! ## Masks -/

/-- The value in a row of a column satisfies the comparison; a null does not. -/
def cellMatches (array : ArrowArray) (literal : PredicateLiteral) (operator : PredicateOperator) (row : Nat) : Bool :=
  match literal, array with
  | .integer literal, .flat _ (.integers values) =>
    (values.getD row none).any fun value => compareInteger value literal operator
  | .float literal, .flat _ (.floats values) =>
    (values.getD row none).any fun value => compareFloat value literal operator
  | .utf8 literal, .flat _ (.strings values) =>
    (values.getD row none).any fun value => compareStr value literal operator
  | .boolean literal, .flat _ (.booleans values) => (values.getD row none).any fun value => value == literal
  | _, _ => false

theorem keptRows_eq (mask : List (Option Bool)) :
    keptRows mask = (List.range mask.length).filter fun row => mask[row]? == some (some true) := by
  induction mask using List.reverseRecOn with
  | nil => rfl
  | append_singleton mask kept ih =>
    have hbefore : ((List.range mask.length).filter fun row => (mask ++ [kept])[row]? == some (some true)) =
        (List.range mask.length).filter fun row => mask[row]? == some (some true) := by
      apply List.filter_congr
      intro row hrow
      rw [List.getElem?_append_left (List.mem_range.mp hrow)]
    rw [List.length_append, List.length_singleton, List.range_succ, List.filter_append, hbefore, ← ih]
    simp only [keptRows, List.zipIdx_append, List.filterMap_append]
    cases kept with
    | none => simp
    | some kept => cases kept <;> simp

theorem keptRows_map {α : Type} (values : List (Option α)) (f : α → Bool) :
    keptRows (values.map fun value => value.map f) =
      (List.range values.length).filter fun row => (values.getD row none).any f := by
  rw [keptRows_eq, List.length_map]
  apply List.filter_congr
  intro row hrow
  have hlt := List.mem_range.mp hrow
  rw [List.getElem?_map, List.getD_eq_getElem?_getD, List.getElem?_eq_getElem hlt]
  cases values[row] with
  | none => rfl
  | some value => simp [Option.any]

/-- The column types of each kind of literal. -/
inductive FitsType : DataType → PredicateLiteral → Prop
  | integer (type : IntegerType) (value : Int) : FitsType (.scalar (.integer type)) (.integer value)
  | float32 (value : Double) : FitsType (.scalar .float32) (.float value)
  | float64 (value : Double) : FitsType (.scalar .float64) (.float value)
  | utf8 (value : String) : FitsType (.scalar .utf8) (.utf8 value)
  | largeUtf8 (value : String) : FitsType (.scalar .largeUtf8) (.utf8 value)
  | boolean (value : Bool) : FitsType (.scalar .boolean) (.boolean value)

theorem predicateLiteral_fits {dataType : DataType} {operator : PredicateOperator} {native : NativeLiteral}
    {literal : PredicateLiteral} {pruneKind : Option PruneKind}
    (h : predicateLiteral dataType operator native = .ok (literal, pruneKind)) : FitsType dataType literal := by
  unfold predicateLiteral at h
  split at h
  · obtain ⟨value, -, hvalue⟩ := except_map_eq_ok.mp h
    cases hvalue
    exact .integer _ value
  · obtain ⟨value, -, hvalue⟩ := except_map_eq_ok.mp h
    cases hvalue
    exact .integer _ value
  · obtain ⟨value, -, hvalue⟩ := except_map_eq_ok.mp h
    cases hvalue
    exact .integer _ value
  · obtain ⟨value, -, hvalue⟩ := except_map_eq_ok.mp h
    cases hvalue
    exact .float32 value
  · obtain ⟨value, -, hvalue⟩ := except_map_eq_ok.mp h
    cases hvalue
    exact .float64 value
  · obtain ⟨value, -, hvalue⟩ := except_map_eq_ok.mp h
    cases hvalue
    exact .utf8 value
  · obtain ⟨value, -, hvalue⟩ := except_map_eq_ok.mp h
    cases hvalue
    exact .largeUtf8 value
  · split at h
    · obtain ⟨value, -, hvalue⟩ := except_map_eq_ok.mp h
      cases hvalue
      exact .boolean value
    · cases h
  · cases h

/-- A compiled literal fits the arrays of its column. -/
theorem arrayMask_typed {dataType : DataType} {operator : PredicateOperator} {native : NativeLiteral}
    {literal : PredicateLiteral} {pruneKind : Option PruneKind} {array : ArrowArray}
    (hliteral : predicateLiteral dataType operator native = .ok (literal, pruneKind)) (harray : array.Of dataType) :
    ∃ mask, arrayMask array literal operator = some mask ∧ mask.length = array.length ∧
      keptRows mask = (List.range array.length).filter fun row => cellMatches array literal operator row := by
  have hfits := predicateLiteral_fits hliteral
  cases array with
  | flat type slots =>
    cases hfits with
    | integer type' value =>
      obtain ⟨rfl, hslots⟩ := harray
      cases slots with
      | integers values => exact ⟨_, rfl, List.length_map _, keptRows_map values _⟩
      | _ => cases hslots
    | float32 value =>
      obtain ⟨rfl, hslots⟩ := harray
      cases slots with
      | floats values => exact ⟨_, rfl, List.length_map _, keptRows_map values _⟩
      | _ => cases hslots
    | float64 value =>
      obtain ⟨rfl, hslots⟩ := harray
      cases slots with
      | floats values => exact ⟨_, rfl, List.length_map _, keptRows_map values _⟩
      | _ => cases hslots
    | utf8 value =>
      obtain ⟨rfl, hslots⟩ := harray
      cases slots with
      | strings values => exact ⟨_, rfl, List.length_map _, keptRows_map values _⟩
      | _ => cases hslots
    | largeUtf8 value =>
      obtain ⟨rfl, hslots⟩ := harray
      cases slots with
      | strings values => exact ⟨_, rfl, List.length_map _, keptRows_map values _⟩
      | _ => cases hslots
    | boolean value =>
      obtain ⟨rfl, hslots⟩ := harray
      cases slots with
      | booleans values => exact ⟨_, rfl, List.length_map _, keptRows_map values _⟩
      | _ => cases hslots
  | list large item offsets valid values => cases hfits <;> cases harray
  | fixedSizeList item listLength valid values => cases hfits <;> cases harray
  | struct fields valid columns => cases hfits <;> cases harray

/-! ## Positions in the file -/

/-- The requested columns of a file in its order; no names stand for all. -/
def requestedFields (fields : List Field) (columns : List String) : List Field :=
  fields.filter fun field => columns.isEmpty || columns.contains field.name

/-- Their positions. -/
def requestedPositions (fields : List Field) (columns : List String) : List Nat :=
  (List.range fields.length).filter fun index =>
    fields[index]?.any fun field => columns.isEmpty || columns.contains field.name

section
variable {fields : List Field} {columns : List String}

theorem pick_requestedPositions : pick (requestedPositions fields columns) fields = requestedFields fields columns :=
  pick_filter_range fields _

theorem requestedPositions_lt (fields : List Field) (columns : List String) :
    ∀ index ∈ requestedPositions fields columns, index < fields.length := by
  intro index hindex
  exact List.mem_range.mp (List.mem_filter.mp hindex).1

theorem requestedPositions_increasing (fields : List Field) (columns : List String) :
    (requestedPositions fields columns).Pairwise (· < ·) :=
  List.pairwise_lt_range.filter _

/-- The field at that position is the first of that name. -/
def NamedAt (fields : List Field) (name : String) (index : Nat) : Prop :=
  fields.findIdx? (fun field => field.name == name) = some index ∧
    ∃ field, fields[index]? = some field ∧ field.name = name

theorem namedAt_of_findIdx? {name : String} {index : Nat}
    (h : fields.findIdx? (fun field => field.name == name) = some index) : NamedAt fields name index := by
  obtain ⟨hlt, heq, -⟩ := List.findIdx?_eq_some_iff_getElem.mp h
  exact ⟨h, fields[index], List.getElem?_eq_getElem hlt, by simpa using heq⟩

theorem exists_namedAt {name : String} (h : name ∈ fields.map Field.name) : ∃ index, NamedAt fields name index := by
  obtain ⟨field, hfield, hname⟩ := List.mem_map.mp h
  cases hfind : fields.findIdx? (fun field => field.name == name) with
  | none =>
    rw [List.findIdx?_eq_none_iff] at hfind
    exact absurd (hfind field hfield) (by simp [hname])
  | some index => exact ⟨index, namedAt_of_findIdx? hfind⟩

/-- Distinct names have one position each. -/
theorem position_unique (hnames : (fields.map Field.name).Nodup) {i j : Nat} {field field' : Field}
    (hi : fields[i]? = some field) (hj : fields[j]? = some field') (hname : field.name = field'.name) : i = j := by
  obtain ⟨hilt, rfl⟩ := List.getElem?_eq_some_iff.mp hi
  obtain ⟨hjlt, rfl⟩ := List.getElem?_eq_some_iff.mp hj
  have hi' : i < (fields.map Field.name).length := by rw [List.length_map]; exact hilt
  have hj' : j < (fields.map Field.name).length := by rw [List.length_map]; exact hjlt
  have hget : (fields.map Field.name).get ⟨i, hi'⟩ = (fields.map Field.name).get ⟨j, hj'⟩ := by simpa using hname
  exact Fin.mk.inj (List.nodup_iff_injective_get.mp hnames hget)

theorem namedAt_of_getElem? (hnames : (fields.map Field.name).Nodup) {index : Nat} {field : Field}
    (h : fields[index]? = some field) : NamedAt fields field.name index := by
  obtain ⟨index', hindex⟩ := exists_namedAt (List.mem_map_of_mem (f := Field.name) (List.mem_of_getElem? h))
  obtain ⟨field', hfield, hname⟩ := hindex.2
  rw [position_unique hnames h hfield hname.symm]
  exact hindex

/-- Existing names are found, and sorting puts them in file order. -/
theorem projectionIndices_eq (hnames : (fields.map Field.name).Nodup) (hcolumns : columns.Nodup)
    (hexist : ∀ column ∈ columns, column ∈ fields.map Field.name) :
    projectionIndices fields columns = .ok (requestedPositions fields columns) := by
  unfold projectionIndices
  cases hempty : columns.isEmpty with
  | true =>
    have hall : requestedPositions fields columns = List.range fields.length := by
      simp only [requestedPositions, hempty, Bool.true_or]
      apply List.filter_eq_self.mpr
      intro index hindex
      rw [List.getElem?_eq_getElem (List.mem_range.mp hindex)]
      rfl
    rw [if_pos rfl, hall]
  | false =>
    obtain ⟨indices, hindices⟩ : ∃ indices, List.Forall₂ (NamedAt fields) columns indices := by
      clear hcolumns hempty
      induction columns with
      | nil => exact ⟨[], .nil⟩
      | cons column columns ih =>
        obtain ⟨indices, hindices⟩ := ih fun column hmem => hexist column (by simp [hmem])
        obtain ⟨index, hfound⟩ := exists_namedAt (hexist column (by simp))
        exact ⟨index :: indices, .cons hfound hindices⟩
    have hmap : columns.mapM (projectedColumn fields) = .ok indices := by
      rw [mapM_eq_ok]
      apply hindices.imp
      intro column index h
      rw [projectedColumn, h.1]
    have hfun : ∀ a b b', NamedAt fields a b → NamedAt fields a b' → b = b' := by
      intro a b b' h h'
      exact Option.some.inj (h.1.symm.trans h'.1)
    have hmem : ∀ index, index ∈ indices ↔ ∃ field, fields[index]? = some field ∧ field.name ∈ columns := by
      intro index
      rw [mem_of_forall₂ hindices hfun]
      constructor
      · rintro ⟨column, hcolumn, -, field, hfield, rfl⟩
        exact ⟨field, hfield, hcolumn⟩
      · rintro ⟨field, hfield, hcolumn⟩
        exact ⟨field.name, hcolumn, namedAt_of_getElem? hnames hfield⟩
    have hnodup : indices.Nodup := by
      refine nodup_of_forall₂ hindices hfun ?_ hcolumns
      rintro a a' b ⟨-, field, hfield, rfl⟩ ⟨-, field', hfield', rfl⟩
      rw [Option.some.inj (hfield.symm.trans hfield')]
    rw [if_neg (by simp), hmap]
    change Except.ok _ = _
    congr 1
    apply eq_filter_range (increasing_insertionSort hnodup)
    · intro index hindex
      obtain ⟨field, hfield, -⟩ := (hmem index).mp ((List.perm_insertionSort _ _).mem_iff.mp hindex)
      exact (List.getElem?_eq_some_iff.mp hfield).1
    · intro index hlt
      rw [(List.perm_insertionSort _ _).mem_iff, hmem, List.getElem?_eq_getElem hlt]
      simp [List.isEmpty_eq_false_iff.mp hempty]

/-! ## Positions in what is read -/

/-- The predicate column is one of the file. -/
def RootsIn (fields : List Field) (compiled : Option CompiledPredicate) : Prop :=
  ∀ predicate, compiled = some predicate → predicate.rootIndex < fields.length

theorem mem_readIndicesOf {requested : List Nat} {compiled : Option CompiledPredicate} {index : Nat} :
    index ∈ readIndicesOf requested compiled ↔
      index ∈ requested ∨ ∃ predicate, compiled = some predicate ∧ predicate.rootIndex = index := by
  cases compiled with
  | none => simp [readIndicesOf]
  | some predicate =>
    simp only [readIndicesOf, Option.some.injEq, exists_eq_left']
    split
    · next hmem =>
      constructor
      · exact .inl
      · rintro (h | rfl)
        · exact h
        · exact hmem
    · rw [(List.perm_insertionSort _ _).mem_iff, List.mem_append, List.mem_singleton, eq_comm]

theorem readIndicesOf_increasing {requested : List Nat} (h : requested.Pairwise (· < ·))
    (compiled : Option CompiledPredicate) : (readIndicesOf requested compiled).Pairwise (· < ·) := by
  cases compiled with
  | none => exact h
  | some predicate =>
    simp only [readIndicesOf]
    split
    · exact h
    · next hmem =>
      apply increasing_insertionSort
      have hnodup : requested.Nodup := h.imp fun hlt => Nat.ne_of_lt hlt
      simp only [List.nodup_append, List.nodup_cons, List.not_mem_nil, not_false_eq_true, List.nodup_nil, and_self,
        List.mem_singleton, true_and]
      refine ⟨hnodup, ?_⟩
      rintro index hindex _ rfl heq
      exact hmem (heq ▸ hindex)

theorem readIndicesOf_lt {requested : List Nat} {compiled : Option CompiledPredicate}
    (h : ∀ index ∈ requested, index < fields.length) (hroot : RootsIn fields compiled) :
    ∀ index ∈ readIndicesOf requested compiled, index < fields.length := by
  intro index hindex
  rcases mem_readIndicesOf.mp hindex with hmem | ⟨predicate, hcompiled, rfl⟩
  · exact h index hmem
  · exact hroot predicate hcompiled

theorem expectPosition_of_mem {indices : List Nat} {index : Nat} (h : index ∈ indices) :
    ∃ position, expectPosition indices index = .ok position ∧ indices[position]? = some index := by
  unfold expectPosition
  cases hfind : indices.findIdx? (· == index) with
  | none =>
    rw [List.findIdx?_eq_none_iff] at hfind
    exact absurd (hfind index h) (by simp)
  | some position =>
    obtain ⟨hlt, heq, -⟩ := List.findIdx?_eq_some_iff_getElem.mp hfind
    refine ⟨position, rfl, ?_⟩
    rw [List.getElem?_eq_getElem hlt, eq_of_beq heq]

theorem mapM_expectPosition (indices wanted : List Nat) (h : ∀ index ∈ wanted, index ∈ indices) :
    ∃ positions, wanted.mapM (expectPosition indices) = .ok positions ∧
      List.Forall₂ (fun index position => indices[position]? = some index) wanted positions := by
  induction wanted with
  | nil => exact ⟨[], rfl, .nil⟩
  | cons index wanted ih =>
    obtain ⟨position, hposition, hget⟩ := expectPosition_of_mem (h index (by simp))
    obtain ⟨positions, hpositions, hall⟩ := ih fun index hmem => h index (by simp [hmem])
    refine ⟨position :: positions, ?_, .cons hget hall⟩
    rw [List.mapM_cons, hposition, hpositions]
    rfl

theorem select_roots {α : Type} {indices : List Nat} {l : List α} (h : indices.Pairwise (· < ·))
    (hlt : ∀ index ∈ indices, index < l.length) : (ProjectionMask.roots indices).select l = pick indices l := by
  have hfilter : indices = (List.range l.length).filter fun index => decide (index ∈ indices) :=
    eq_filter_range h hlt fun index _ => by simp
  have hzip := filterMap_zipIdx l fun index => decide (index ∈ indices)
  rw [← hfilter] at hzip
  simp only [decide_eq_true_eq] at hzip
  exact hzip

/-! ## Opening -/

theorem native_eq_ok {α : Type} {result : Except NativeFailure α} {a : α} : native result = .ok a ↔ result = .ok a := by
  cases result <;> simp [native, Except.mapError]

theorem nativeFields_eq_mapM (fields : List Field) : nativeFields fields = fields.mapM nativeField := by
  induction fields with
  | nil => rfl
  | cons field fields ih => rw [nativeFields, List.mapM_cons, ih]

/-- The part of a list whose fields have descriptors has descriptors. -/
theorem mapM_fieldAt {fields : List Field} {nativeAll : List NativeField} (h : nativeFields fields = .ok nativeAll)
    {indices : List Nat} (hlt : ∀ index ∈ indices, index < fields.length) :
    ∃ projected, (indices.mapM fun index => do
        let field ← fieldAt fields index
        native (nativeField field)) = .ok projected ∧ nativeFields (pick indices fields) = .ok projected := by
  rw [nativeFields_eq_mapM, mapM_eq_ok] at h
  induction indices with
  | nil => exact ⟨[], rfl, rfl⟩
  | cons index indices ih =>
    obtain ⟨projected, hprojected, hpick⟩ := ih fun index hmem => hlt index (by simp [hmem])
    have hindex := hlt index (by simp)
    obtain ⟨hlength, hget⟩ := List.forall₂_iff_get.mp h
    have hfield := hget index hindex (hlength ▸ hindex)
    simp only [List.get_eq_getElem] at hfield
    refine ⟨nativeAll[index] :: projected, ?_, ?_⟩
    · rw [List.mapM_cons, hprojected]
      simp only [fieldAt, List.getElem?_eq_getElem hindex]
      rw [show (Except.ok fields[index] >>= fun field => native (nativeField field)) =
        (.ok nativeAll[index] : Except (Stop NativeFailure) NativeField) from native_eq_ok.mpr hfield]
      rfl
    · have hcons : pick (index :: indices) fields = fields[index] :: pick indices fields := by
        simp [pick, List.getElem?_eq_getElem hindex]
      rw [hcons, nativeFields, hfield, hpick]
      rfl

/-- The compiled predicate with the position of its column in what is read. -/
def PlacedIn (read : List Nat) (compiled predicate : Option CompiledPredicate) : Prop :=
  (compiled = none ∧ predicate = none) ∨
    ∃ root columnIndex, compiled = some root ∧ predicate = some { root with columnIndex } ∧
      read[columnIndex]? = some root.rootIndex

/-- What opening a file has resolved. -/
structure Resolved (file : ParquetFile) (settings : ReaderOpenSettings) (compiled predicate : Option CompiledPredicate)
    (mask : ProjectionMask) (positions : List Nat) : Prop where
  reads : ∃ read, (∀ index ∈ read, index < file.schema.length) ∧
    (∀ (α : Type) (l : List α), l.length = file.schema.length → mask.select l = pick read l) ∧
    List.Forall₂ (fun index position => read[position]? = some index)
      (requestedPositions file.schema settings.columns) positions ∧
    PlacedIn read compiled predicate

theorem openBackend_all {file : ParquetFile} {settings : ReaderOpenSettings} {nativeAll : List NativeField}
    {compiled : Option CompiledPredicate} (hall : settings.columns.isEmpty = true)
    (hnative : nativeFields file.schema = .ok nativeAll)
    (hcompiled : compileOptional settings.predicate file.schema = .ok compiled)
    (hroot : RootsIn file.schema compiled) :
    ∃ predicate, Resolved file settings compiled predicate .all (List.range file.schema.length) ∧
      openBackend file settings = .ok
        (openedReader (file.decode .all (selectRowGroups file.metaData predicate)) settings.prefetchDepth predicate
          (List.range file.schema.length), nativeAll) ∧
      nativeFields (requestedFields file.schema settings.columns) = .ok nativeAll := by
  have hrequested : requestedPositions file.schema settings.columns = List.range file.schema.length := by
    simp only [requestedPositions, hall, Bool.true_or]
    apply List.filter_eq_self.mpr
    intro index hindex
    rw [List.getElem?_eq_getElem (List.mem_range.mp hindex)]
    rfl
  have hreads : ∀ predicate, PlacedIn (List.range file.schema.length) compiled predicate →
      Resolved file settings compiled predicate .all (List.range file.schema.length) := by
    intro predicate hplaced
    refine ⟨List.range file.schema.length, fun index hindex => List.mem_range.mp hindex, ?_, ?_, hplaced⟩
    · intro α l hl
      rw [← hl]
      exact (pick_range l).symm
    · rw [hrequested, List.forall₂_same]
      intro index hindex
      rw [List.getElem?_range (List.mem_range.mp hindex)]
  have hfields : requestedFields file.schema settings.columns = file.schema := by
    simp [requestedFields, hall]
  cases compiled with
  | none =>
    refine ⟨none, hreads none (.inl ⟨rfl, rfl⟩), ?_, by rw [hfields]; exact hnative⟩
    simp only [openBackend, native_eq_ok.mpr hnative, native_eq_ok.mpr hcompiled, projectionIndices, hall]
    rfl
  | some root =>
    have hlt := hroot root rfl
    refine ⟨some { root with columnIndex := root.rootIndex }, hreads _ (.inr ⟨root, root.rootIndex, rfl, rfl, ?_⟩), ?_,
      by rw [hfields]; exact hnative⟩
    · rw [List.getElem?_range hlt]
    · simp only [openBackend, native_eq_ok.mpr hnative, native_eq_ok.mpr hcompiled, projectionIndices, hall]
      rfl

theorem openBackend_some {file : ParquetFile} {settings : ReaderOpenSettings} {nativeAll : List NativeField}
    {compiled : Option CompiledPredicate} (hall : settings.columns.isEmpty = false)
    (hrequested : projectionIndices file.schema settings.columns =
      .ok (requestedPositions file.schema settings.columns))
    (hnative : nativeFields file.schema = .ok nativeAll)
    (hcompiled : compileOptional settings.predicate file.schema = .ok compiled)
    (hroot : RootsIn file.schema compiled) :
    ∃ predicate positions projected,
      Resolved file settings compiled predicate
        (.roots (readIndicesOf (requestedPositions file.schema settings.columns) compiled)) positions ∧
      openBackend file settings = .ok
        (openedReader (file.decode (.roots (readIndicesOf (requestedPositions file.schema settings.columns) compiled))
          (selectRowGroups file.metaData predicate)) settings.prefetchDepth predicate positions, projected) ∧
      nativeFields (requestedFields file.schema settings.columns) = .ok projected := by
  have hincreasing := readIndicesOf_increasing (requestedPositions_increasing file.schema settings.columns) compiled
  have hlt := readIndicesOf_lt (requestedPositions_lt file.schema settings.columns) hroot
  obtain ⟨positions, hpositions, hplaces⟩ :=
    mapM_expectPosition (readIndicesOf (requestedPositions file.schema settings.columns) compiled)
      (requestedPositions file.schema settings.columns) fun index hindex => mem_readIndicesOf.mpr (.inl hindex)
  obtain ⟨projected, hprojected, hfields⟩ := mapM_fieldAt hnative (requestedPositions_lt file.schema settings.columns)
  rw [pick_requestedPositions] at hfields
  have hreads : ∀ predicate,
      PlacedIn (readIndicesOf (requestedPositions file.schema settings.columns) compiled) compiled predicate →
      Resolved file settings compiled predicate
        (.roots (readIndicesOf (requestedPositions file.schema settings.columns) compiled)) positions := by
    intro predicate hplaced
    refine ⟨_, hlt, fun α l hl => select_roots hincreasing (by rw [hl]; exact hlt), hplaces, hplaced⟩
  cases compiled with
  | none =>
    refine ⟨none, positions, projected, hreads none (.inl ⟨rfl, rfl⟩), ?_, hfields⟩
    simp only [openBackend, native_eq_ok.mpr hnative, native_eq_ok.mpr hcompiled, native_eq_ok.mpr hrequested, hall,
      Bool.false_eq_true, if_false, bind, Except.bind] at hprojected hpositions ⊢
    simp only [hprojected, hpositions]
    rfl
  | some root =>
    obtain ⟨columnIndex, hcolumn, hget⟩ := expectPosition_of_mem
      (mem_readIndicesOf.mpr (.inr ⟨root, rfl, rfl⟩) :
        root.rootIndex ∈ readIndicesOf (requestedPositions file.schema settings.columns) (some root))
    refine ⟨some { root with columnIndex }, positions, projected, hreads _ (.inr ⟨root, columnIndex, rfl, rfl, hget⟩), ?_,
      hfields⟩
    simp only [openBackend, native_eq_ok.mpr hnative, native_eq_ok.mpr hcompiled, native_eq_ok.mpr hrequested, hall,
      Bool.false_eq_true, if_false, bind, Except.bind] at hprojected hpositions hcolumn ⊢
    simp only [hprojected, hpositions, hcolumn]
    rfl

end

/-! ## Batches -/

/-- The column of that name. -/
def RecordBatch.columnNamed (batch : RecordBatch) (name : String) : Option ArrowArray :=
  ((batch.schema.zip batch.columns).find? fun entry => entry.1.name == name).map Prod.snd

/-- The rows of a batch that satisfy a predicate, whose column is found by its name. -/
def matchingRows (compiled : Option CompiledPredicate) (batch : RecordBatch) : List Nat :=
  (List.range batch.numRows).filter fun row =>
    match compiled with
    | none => true
    | some predicate =>
      (batch.columnNamed predicate.column).any fun array => cellMatches array predicate.literal predicate.operator row

/-- A delivered batch has the requested columns of a decoded one, and of them the matching rows. -/
structure Delivers (fields : List Field) (requested : List String) (compiled : Option CompiledPredicate)
    (batch delivered : RecordBatch) : Prop where
  schema : delivered.schema = requestedFields fields requested
  width : delivered.columns.length = delivered.schema.length
  numRows : delivered.numRows = (matchingRows compiled batch).length
  columns : ∀ (i : Nat) (field : Field) (array : ArrowArray),
    delivered.schema[i]? = some field → delivered.columns[i]? = some array →
    ∃ source, batch.columnNamed field.name = some source ∧
      array = (if compiled.isNone then source else takeArray (matchingRows compiled batch) source) ∧
      array.length = (matchingRows compiled batch).length ∧
      ∀ j (hj : j < (matchingRows compiled batch).length),
        encodeValue array j = encodeValue source (matchingRows compiled batch)[j]

theorem find?_zip_name {fields : List Field} (hnames : (fields.map Field.name).Nodup) {arrays : List ArrowArray}
    (hlength : fields.length = arrays.length) {i : Nat} {field : Field} {array : ArrowArray}
    (hfield : fields[i]? = some field) (harray : arrays[i]? = some array) :
    (fields.zip arrays).find? (fun entry => entry.1.name == field.name) = some (field, array) := by
  have hentry : (fields.zip arrays)[i]? = some (field, array) := by
    rw [List.getElem?_zip_eq_some]
    exact ⟨hfield, harray⟩
  rw [List.find?_eq_some_iff_getElem]
  obtain ⟨hlt, hget⟩ := List.getElem?_eq_some_iff.mp hentry
  refine ⟨by simp, i, hlt, hget, ?_⟩
  intro j hj
  have hjlt : j < fields.length := by
    have := (List.getElem?_eq_some_iff.mp hfield).1
    omega
  have hne : fields[j].name ≠ field.name := by
    intro heq
    have := position_unique hnames (List.getElem?_eq_getElem hjlt) hfield heq
    omega
  simpa using hne

section
variable {fields : List Field} {batch : RecordBatch}

theorem RecordBatch.Holds.length (h : batch.Holds fields) : batch.columns.length = fields.length :=
  h.columns.length_eq.symm

theorem RecordBatch.Holds.columnNamed (h : batch.Holds fields) (hnames : (fields.map Field.name).Nodup) {i : Nat}
    {field : Field} (hfield : fields[i]? = some field) :
    ∃ source, batch.columns[i]? = some source ∧ batch.columnNamed field.name = some source ∧
      source.Of field.dataType ∧ source.length = batch.numRows ∧ source.Aligned := by
  obtain ⟨hlt, rfl⟩ := List.getElem?_eq_some_iff.mp hfield
  have hlt' : i < batch.columns.length := by rw [h.length]; exact hlt
  have hget := (List.forall₂_iff_get.mp h.columns).2 i hlt hlt'
  simp only [List.get_eq_getElem] at hget
  have harray := List.getElem?_eq_getElem hlt'
  refine ⟨batch.columns[i], harray, ?_, hget⟩
  rw [RecordBatch.columnNamed, h.schema, find?_zip_name hnames h.length.symm hfield harray]
  rfl

/-- Projecting by positions picks them, also where the reader leaves the batch as it is. -/
theorem project_pick (batch : RecordBatch) (positions : List Nat) (hwidth : batch.schema.length = batch.columns.length)
    (h : ∀ position ∈ positions, position < batch.columns.length) :
    (if positions = List.range batch.columns.length then pure batch
      else
        match batch.project positions with
        | some batch => pure batch
        | none => throw (NativeFailure.new .malformedData .readerNext "predicate projection failed") :
      Except NativeFailure RecordBatch) =
      .ok { schema := pick positions batch.schema, columns := pick positions batch.columns, numRows := batch.numRows } := by
  split
  · next heq =>
    rw [heq, pick_range]
    rw [← hwidth, pick_range]
    rfl
  · rw [RecordBatch.project, mapM_pick h, mapM_pick (by rw [hwidth]; exact h)]
    rfl

/-- What is known of a compiled predicate. -/
def CompiledIn (fields : List Field) (compiled : Option CompiledPredicate) : Prop :=
  ∀ predicate, compiled = some predicate → ∃ field native, fields[predicate.rootIndex]? = some field ∧
    field.name = predicate.column ∧
    predicateLiteral field.dataType predicate.operator native = .ok (predicate.literal, predicate.pruneKind)

theorem CompiledIn.rootsIn {compiled : Option CompiledPredicate} (h : CompiledIn fields compiled) :
    RootsIn fields compiled := by
  intro predicate hcompiled
  obtain ⟨field, -, hfield, -⟩ := h predicate hcompiled
  exact (List.getElem?_eq_some_iff.mp hfield).1

/-- Picked columns, with their matching rows, are what has to be delivered. -/
theorem delivers_pick (requested : List String) (compiled : Option CompiledPredicate) (take : ArrowArray → ArrowArray)
    (hnames : (fields.map Field.name).Nodup) (hb : batch.Holds fields)
    (htake : ∀ source, source.length = batch.numRows → source.Aligned →
      take source = (if compiled.isNone then source else takeArray (matchingRows compiled batch) source) ∧
      (take source).length = (matchingRows compiled batch).length ∧
      ∀ j (hj : j < (matchingRows compiled batch).length),
        encodeValue (take source) j = encodeValue source (matchingRows compiled batch)[j]) :
    Delivers fields requested compiled batch
      { schema := pick (requestedPositions fields requested) fields
        columns := (pick (requestedPositions fields requested) batch.columns).map take
        numRows := (matchingRows compiled batch).length } where
  schema := pick_requestedPositions
  width := by
    have hlt : ∀ index ∈ requestedPositions fields requested, index < batch.columns.length := by
      rw [hb.length]
      exact requestedPositions_lt fields requested
    rw [List.length_map, length_pick hlt, length_pick (requestedPositions_lt fields requested)]
  numRows := rfl
  columns := by
    intro i field array hfield harray
    rw [getElem?_pick (requestedPositions_lt fields requested)] at hfield
    obtain ⟨index, hindex, hfield⟩ := Option.bind_eq_some_iff.mp hfield
    obtain ⟨source, hsource, hnamed, -, hlength, haligned⟩ := hb.columnNamed hnames hfield
    have hlt : ∀ index ∈ requestedPositions fields requested, index < batch.columns.length := by
      rw [hb.length]
      exact requestedPositions_lt fields requested
    rw [List.getElem?_map, getElem?_pick hlt, hindex, Option.bind_some, hsource, Option.map_some,
      Option.some.injEq] at harray
    subst harray
    exact ⟨source, hnamed, htake source hlength haligned⟩

theorem matchingRows_none : matchingRows none batch = List.range batch.numRows := by
  simp [matchingRows]

theorem matchingRows_lt {compiled : Option CompiledPredicate} :
    ∀ row ∈ matchingRows compiled batch, row < batch.numRows := by
  intro row hrow
  exact List.mem_range.mp (List.mem_filter.mp hrow).1

theorem lt_of_positions {read wanted positions : List Nat}
    (h : List.Forall₂ (fun index position => read[position]? = some index) wanted positions) :
    ∀ position ∈ positions, position < read.length := by
  induction h with
  | nil => simp
  | cons hhead _ ih =>
    simp only [List.mem_cons, forall_eq_or_imp]
    exact ⟨(List.getElem?_eq_some_iff.mp hhead).1, ih⟩

theorem project_positions {read positions : List Nat} {requested : List String}
    (take : ArrowArray → ArrowArray) (rows : Nat) (hb : batch.Holds fields) (hlt : ∀ index ∈ read, index < fields.length)
    (hpositions : List.Forall₂ (fun index position => read[position]? = some index)
      (requestedPositions fields requested) positions) :
    (if positions = List.range ((pick read batch.columns).map take).length then
        pure { schema := pick read fields, columns := (pick read batch.columns).map take, numRows := rows }
      else
        match RecordBatch.project
          { schema := pick read fields, columns := (pick read batch.columns).map take, numRows := rows } positions with
        | some batch => pure batch
        | none => throw (NativeFailure.new .malformedData .readerNext "predicate projection failed") :
      Except NativeFailure RecordBatch) =
      .ok { schema := pick (requestedPositions fields requested) fields
            columns := (pick (requestedPositions fields requested) batch.columns).map take
            numRows := rows } := by
  have hlt' : ∀ index ∈ read, index < batch.columns.length := by
    rw [hb.length]
    exact hlt
  have hwidth : ((pick read batch.columns).map take).length = read.length := by rw [List.length_map, length_pick hlt']
  have hproject := project_pick
    { schema := pick read fields, columns := (pick read batch.columns).map take, numRows := rows }
    positions (by rw [hwidth, length_pick hlt]) (by rw [hwidth]; exact lt_of_positions hpositions)
  rw [pick_map, pick_pick hpositions hlt, pick_pick hpositions hlt'] at hproject
  exact hproject

theorem keptRows_matching {root : CompiledPredicate} {native : NativeLiteral} {field : Field} {source : ArrowArray}
    (hnames : (fields.map Field.name).Nodup) (hb : batch.Holds fields) (hfield : fields[root.rootIndex]? = some field)
    (hname : field.name = root.column)
    (hliteral : predicateLiteral field.dataType root.operator native = .ok (root.literal, root.pruneKind))
    (hsource : batch.columns[root.rootIndex]? = some source) :
    ∃ mask, arrayMask source root.literal root.operator = some mask ∧ mask.length = batch.numRows ∧
      keptRows mask = matchingRows (some root) batch := by
  obtain ⟨source', hsource', hnamed, hof, hlength, -⟩ := hb.columnNamed hnames hfield
  obtain rfl : source' = source := Option.some.inj (hsource'.symm.trans hsource)
  obtain ⟨mask, hmask, hmaskLength, hkept⟩ := arrayMask_typed hliteral hof
  refine ⟨mask, hmask, hmaskLength.trans hlength, ?_⟩
  rw [hname] at hnamed
  rw [hkept, hlength]
  simp only [matchingRows, hnamed, Option.any_some]

/-- Filtering and projecting what was read gives what was asked for, and nothing on the way fails. -/
theorem resolved_delivers {file : ParquetFile} {settings : ReaderOpenSettings}
    {compiled predicate : Option CompiledPredicate} {mask : ProjectionMask} {positions : List Nat}
    (hnames : (file.schema.map Field.name).Nodup) (h : Resolved file settings compiled predicate mask positions)
    (hcompiled : CompiledIn file.schema compiled) (hb : batch.Holds file.schema) :
    ∃ delivered, applyPredicateAndProjection (batch.select mask) predicate positions = .ok delivered ∧
      Delivers file.schema settings.columns compiled batch delivered := by
  obtain ⟨read, hlt, hselect, hpositions, hplaced⟩ := h.reads
  have hlt' : ∀ index ∈ read, index < batch.columns.length := by
    rw [hb.length]
    exact hlt
  have hschema : (batch.select mask).schema = pick read file.schema := by
    change mask.select batch.schema = _
    rw [hb.schema, hselect _ _ rfl]
  have hcolumns : (batch.select mask).columns = pick read batch.columns := hselect _ _ hb.length
  rcases hplaced with ⟨rfl, rfl⟩ | ⟨root, columnIndex, rfl, rfl, hcolumn⟩
  · have hproject := project_positions id batch.numRows hb hlt hpositions
    have hdelivers := delivers_pick settings.columns none id hnames hb (by
      intro source hlength _
      rw [matchingRows_none]
      refine ⟨rfl, by rw [List.length_range]; exact hlength, fun j hj => ?_⟩
      rw [List.getElem_range]
      rfl)
    rw [matchingRows_none, List.length_range, List.map_id] at hdelivers
    rw [List.map_id, List.map_id] at hproject
    refine ⟨_, ?_, hdelivers⟩
    have hbatch : batch.select mask =
        { schema := pick read file.schema, columns := pick read batch.columns, numRows := batch.numRows } := by
      rw [← hschema, ← hcolumns]
      rfl
    rw [hbatch]
    exact hproject
  · obtain ⟨field, native, hfield, hname, hliteral⟩ := hcompiled root rfl
    obtain ⟨source, hsource, -, -, hlength, haligned⟩ := hb.columnNamed hnames hfield
    obtain ⟨kept, hkept, hkeptLength, hrows⟩ := keptRows_matching hnames hb hfield hname hliteral hsource
    have hmask : predicateMask (pick read batch.columns) { root with columnIndex } = .ok kept := by
      simp only [predicateMask, getElem?_pick hlt', hcolumn, Option.bind_some, hsource, hkept]
    have hfilter : filterRecordBatch (batch.select mask) kept =
        some { schema := pick read file.schema
               columns := (pick read batch.columns).map (takeArray (matchingRows (some root) batch))
               numRows := (matchingRows (some root) batch).length } := by
      have hlengths : ((batch.select mask).columns.all fun column => decide (kept.length ≤ column.length)) = true := by
        rw [hcolumns, List.all_eq_true]
        intro array harray
        obtain ⟨index, hindex, hget⟩ := List.mem_filterMap.mp harray
        obtain ⟨field', hfield'⟩ : ∃ field', file.schema[index]? = some field' :=
          ⟨_, List.getElem?_eq_getElem (hlt index hindex)⟩
        obtain ⟨source', hsource', -, -, hlength', -⟩ := hb.columnNamed hnames hfield'
        rw [hsource'] at hget
        rw [← Option.some.inj hget, hlength', hkeptLength]
        simp
      rw [filterRecordBatch, if_pos hlengths, hrows, takeArrays_eq_map, hcolumns, hschema]
    have hproject := project_positions (takeArray (matchingRows (some root) batch))
      (matchingRows (some root) batch).length hb hlt hpositions
    refine ⟨_, ?_, delivers_pick settings.columns (some root) (takeArray (matchingRows (some root) batch)) hnames
      hb ?_⟩
    · rw [applyPredicateAndProjection]
      simp only [hcolumns, hmask, bind, Except.bind, hfilter]
      exact hproject
    · intro source hlength haligned
      have hrowsLt : ∀ row ∈ matchingRows (some root) batch, row < source.length := by
        rw [hlength]
        exact matchingRows_lt
      exact ⟨rfl, length_takeArray _ _, fun j hj => encodeValue_takeArray source _ haligned hrowsLt j hj⟩

end

/-! ## Opened readers -/

section
variable {fields : List Field} {native : NativePredicate}

/-- The comparison of a compiled predicate is that of the request, on the column of that name. -/
theorem compilePredicate_ok {compiled : CompiledPredicate} (h : compilePredicate native fields = .ok compiled) :
    compiled.column = native.column ∧ predicateOperator native.operator = .ok compiled.operator ∧
      ∃ field, fields[compiled.rootIndex]? = some field ∧ field.name = native.column ∧
        predicateLiteral field.dataType compiled.operator native.literal =
          .ok (compiled.literal, compiled.pruneKind) := by
  unfold compilePredicate at h
  cases hfind : fields.findIdx? (fun field => field.name == native.column) with
  | none => rw [hfind] at h; cases h
  | some rootIndex =>
    obtain ⟨field, hfield, hname⟩ := (namedAt_of_findIdx? hfind).2
    rw [hfind] at h
    simp only at h
    obtain ⟨operator, hoperator, h⟩ := except_bind_eq_ok.mp h
    rw [hfield] at h
    simp only at h
    obtain ⟨⟨literal, pruneKind⟩, hliteral, h⟩ := except_bind_eq_ok.mp h
    cases h
    exact ⟨rfl, hoperator, field, hfield, hname, hliteral⟩

/-- On an existing column only the operator or the literal can be refused. -/
theorem compilePredicate_error {failure : NativeFailure} (hexist : native.column ∈ fields.map Field.name)
    (h : compilePredicate native fields = .error failure) :
    ∃ field ∈ fields, field.name = native.column ∧
      (predicateOperator native.operator = .error failure ∨
        ∃ operator, predicateOperator native.operator = .ok operator ∧
          predicateLiteral field.dataType operator native.literal = .error failure) := by
  obtain ⟨index, hindex, field, hfield, hname⟩ := exists_namedAt hexist
  refine ⟨field, List.mem_of_getElem? hfield, hname, ?_⟩
  unfold compilePredicate at h
  rw [hindex] at h
  simp only at h
  cases hoperator : predicateOperator native.operator with
  | error failure' =>
    rw [hoperator] at h
    cases h
    exact .inl rfl
  | ok operator =>
    rw [hoperator, hfield] at h
    simp only [bind, Except.bind] at h
    cases hliteral : predicateLiteral field.dataType operator native.literal with
    | error failure' =>
      rw [hliteral] at h
      cases h
      exact .inr ⟨operator, rfl, hliteral⟩
    | ok literal => rw [hliteral] at h; cases h

theorem compiledIn {predicate : Option NativePredicate} {compiled : Option CompiledPredicate}
    (h : compileOptional predicate fields = .ok compiled) : CompiledIn fields compiled := by
  cases predicate with
  | none =>
    cases h
    intro predicate hnone
    cases hnone
  | some native =>
    obtain ⟨root, hroot, heq⟩ := except_map_eq_ok.mp h
    subst heq
    intro predicate hsome
    cases hsome
    obtain ⟨hcolumn, -, field, hfield, hname, hliteral⟩ := compilePredicate_ok hroot
    exact ⟨field, native.literal, hfield, by rw [hcolumn]; exact hname, hliteral⟩

def NativeField.name : NativeField → String
  | .mk name _ _ => name

theorem nativeFields_names {nativeAll : List NativeField} (h : nativeFields fields = .ok nativeAll) :
    nativeAll.map NativeField.name = fields.map Field.name := by
  induction fields generalizing nativeAll with
  | nil => cases h; rfl
  | cons field fields ih =>
    rw [nativeFields] at h
    obtain ⟨child, hchild, h⟩ := except_bind_eq_ok.mp h
    obtain ⟨children, hchildren, heq⟩ := except_map_eq_ok.mp h
    subst heq
    cases field with
    | mk name dataType nullable =>
      rw [nativeField] at hchild
      obtain ⟨nativeType, -, heq⟩ := except_map_eq_ok.mp hchild
      subst heq
      simp only [List.map_cons, ih hchildren]
      rfl

end

section
variable {file : ParquetFile} {settings : ReaderOpenSettings}

/-- Opening a file for existing columns fails only where a type or a literal is refused. -/
theorem openBackend_cases (hnames : (file.schema.map Field.name).Nodup) (hcolumns : settings.columns.Nodup)
    (hexist : ∀ column ∈ settings.columns, column ∈ file.schema.map Field.name) :
    (∃ failure, openBackend file settings = .error (.error failure) ∧
      (nativeFields file.schema = .error failure ∨
        compileOptional settings.predicate file.schema = .error failure)) ∨
    ∃ compiled predicate mask rowGroups positions projected,
      compileOptional settings.predicate file.schema = .ok compiled ∧
      Resolved file settings compiled predicate mask positions ∧
      openBackend file settings =
        .ok (openedReader (file.decode mask rowGroups) settings.prefetchDepth predicate positions, projected) ∧
      nativeFields (requestedFields file.schema settings.columns) = .ok projected := by
  have hrequested := projectionIndices_eq hnames hcolumns hexist
  cases hnative : nativeFields file.schema with
  | error failure =>
    refine .inl ⟨failure, ?_, .inl rfl⟩
    simp only [openBackend, hnative]
    rfl
  | ok nativeAll =>
    cases hcompiled : compileOptional settings.predicate file.schema with
    | error failure =>
      refine .inl ⟨failure, ?_, .inr rfl⟩
      simp only [openBackend, hnative, hrequested, hcompiled]
      rfl
    | ok compiled =>
      have hroot := (compiledIn hcompiled).rootsIn
      cases hall : settings.columns.isEmpty with
      | true =>
        obtain ⟨predicate, hresolved, hopen, hfields⟩ := openBackend_all hall hnative hcompiled hroot
        exact .inr ⟨compiled, predicate, _, _, _, _, rfl, hresolved, hopen, hfields⟩
      | false =>
        obtain ⟨predicate, positions, projected, hresolved, hopen, hfields⟩ :=
          openBackend_some hall hrequested hnative hcompiled hroot
        exact .inr ⟨compiled, predicate, _, _, _, _, rfl, hresolved, hopen, hfields⟩

theorem image_of_decode {mask : ProjectionMask} {rowGroups : List Nat} {predicate : Option CompiledPredicate}
    {positions : List Nat} {result : Except ParquetError RecordBatch} {delivered : RecordBatch}
    (hresult : result ∈ file.decode mask rowGroups) (himage : imageOf predicate positions result = some delivered) :
    ∃ batch, .ok batch ∈ file.batches rowGroups ∧
      applyPredicateAndProjection (batch.select mask) predicate positions = .ok delivered := by
  obtain ⟨full, hfull, rfl⟩ := List.mem_map.mp hresult
  cases full with
  | error e => cases himage
  | ok batch =>
    refine ⟨batch, hfull, ?_⟩
    simp only [imageOf, outcome, Except.map] at himage
    cases happly : applyPredicateAndProjection (batch.select mask) predicate positions with
    | error failure => rw [happly] at himage; cases himage
    | ok image =>
      rw [happly] at himage
      by_cases h0 : image.numRows = 0
      · simp [h0, Except.toOption] at himage
      · simp only [h0, if_false, Except.toOption, Option.join_some, Option.some.injEq] at himage
        rw [himage]

/-- Whatever is requested of a file comes back by its names: the columns in file order, of the rows that satisfy
the predicate on the column of its name, in every run of an opened reader. -/
theorem projection_resolved (file : ParquetFile) (settings : ReaderOpenSettings)
    (hnames : (file.schema.map Field.name).Nodup) (hcolumns : settings.columns.Nodup)
    (hexist : ∀ column ∈ settings.columns, column ∈ file.schema.map Field.name)
    (hpredicate : ∀ native, settings.predicate = some native → native.column ∈ file.schema.map Field.name) :
    (∀ stop, openBackend file settings = .error stop → ∃ failure, stop = .error failure ∧
      (nativeFields file.schema = .error failure ∨ ∃ native field, settings.predicate = some native ∧
        field ∈ file.schema ∧ field.name = native.column ∧ (predicateOperator native.operator = .error failure ∨
          ∃ operator, predicateOperator native.operator = .ok operator ∧
            predicateLiteral field.dataType operator native.literal = .error failure))) ∧
    ∀ state fields, openBackend file settings = .ok (state, fields) → ∃ compiled mask rowGroups,
      compileOptional settings.predicate file.schema = .ok compiled ∧
      (∀ native root, settings.predicate = some native → compiled = some root → root.column = native.column ∧
        predicateOperator native.operator = .ok root.operator ∧ ∃ field, file.schema[root.rootIndex]? = some field ∧
          field.name = native.column ∧ predicateLiteral field.dataType root.operator native.literal =
            .ok (root.literal, root.pruneKind)) ∧
      fields.map NativeField.name = (requestedFields file.schema settings.columns).map Field.name ∧
      nativeFields (requestedFields file.schema settings.columns) = .ok fields ∧
      state.reader = some (file.decode mask rowGroups) ∧
      (∀ batch, .ok batch ∈ file.batches rowGroups → ∃ delivered,
        applyPredicateAndProjection (batch.select mask) state.predicate state.outputIndices = .ok delivered ∧
        Delivers file.schema settings.columns compiled batch delivered) ∧
      ∀ m calls, ∀ delivered ∈ deliveredBatches ((readerMachine m).trace state calls),
        ∃ batch, .ok batch ∈ file.batches rowGroups ∧
          Delivers file.schema settings.columns compiled batch delivered := by
  rcases openBackend_cases hnames hcolumns hexist with
    ⟨failure, hopen, hfailure⟩ | ⟨compiled, predicate, mask, rowGroups, positions, projected, hcompiled, hresolved, hopen,
      hfields⟩
  · refine ⟨fun stop hstop => ⟨failure, Except.error.inj (hstop.symm.trans hopen), ?_⟩, fun state fields hok => ?_⟩
    · rcases hfailure with hnative | hcompile
      · exact .inl hnative
      · right
        cases hsome : settings.predicate with
        | none => rw [hsome] at hcompile; cases hcompile
        | some native =>
          rw [hsome] at hcompile
          cases herror : compilePredicate native file.schema with
          | ok root => simp only [compileOptional, herror] at hcompile; cases hcompile
          | error failure' =>
            simp only [compileOptional, herror] at hcompile
            cases hcompile
            obtain ⟨field, hfield, hname, hrefused⟩ := compilePredicate_error (hpredicate native hsome) herror
            exact ⟨native, field, rfl, hfield, hname, hrefused⟩
    · rw [hopen] at hok
      cases hok
  · refine ⟨fun stop hstop => ?_, fun state fields hok => ?_⟩
    · rw [hopen] at hstop
      cases hstop
    · rw [hopen] at hok
      cases hok
      have hdelivers : ∀ batch, .ok batch ∈ file.batches rowGroups → ∃ delivered,
          applyPredicateAndProjection (batch.select mask) predicate positions = .ok delivered ∧
          Delivers file.schema settings.columns compiled batch delivered := fun batch hbatch =>
        resolved_delivers hnames hresolved (compiledIn hcompiled) (file.holds rowGroups batch hbatch)
      refine ⟨compiled, mask, rowGroups, hcompiled, ?_, nativeFields_names hfields, hfields, rfl, hdelivers, ?_⟩
      · intro native root hnative hroot
        rw [hnative, hroot] at hcompiled
        obtain ⟨root', hcompile, heq⟩ := except_map_eq_ok.mp hcompiled
        cases heq
        exact compilePredicate_ok hcompile
      intro m calls delivered hdelivered
      obtain ⟨result, hresult, himage⟩ := (tracked (m := m) _ _ _ _ calls).images delivered hdelivered
      obtain ⟨batch, hbatch, happly⟩ := image_of_decode hresult himage
      obtain ⟨delivered', happly', hdelivers'⟩ := hdelivers batch hbatch
      rw [Except.ok.inj (happly.symm.trans happly')]
      exact ⟨batch, hbatch, hdelivers'⟩

end

/-- A file of one batch. -/
def namedEvents : RecordBatch where
  schema := [.mk "id" (.scalar (.integer .int64)) false, .mk "name" (.scalar .utf8) true]
  columns := [.flat (.integer .int64) (.integers [some 1, some 2]), .flat .utf8 (.strings [some "a", some "b"])]
  numRows := 2

def namedEventsFile : ParquetFile where
  schema := namedEvents.schema
  metaData := { columns := [["id"], ["name"]], rowGroups := [] }
  batches _ := [.ok namedEvents]
  holds := by
    intro rowGroups batch hbatch
    simp only [List.mem_singleton, Except.ok.injEq] at hbatch
    subst hbatch
    exact ⟨rfl, .cons ⟨⟨rfl, rfl⟩, rfl, trivial⟩ (.cons ⟨⟨rfl, rfl⟩, rfl, trivial⟩ .nil)⟩

/-- The names of the events after the first. -/
def laterNames : ReaderOpenSettings where
  prefetchDepth := 1
  columns := ["name"]
  predicate := some
    { column := "id", operator := "gt"
      literal := { kind := "integer", integer := some 1, float := none, string := none, boolean := none } }

theorem projection_resolved_events : ∃ state fields compiled, openBackend namedEventsFile laterNames = .ok (state, fields) ∧
    ∀ m calls, ∀ delivered ∈ deliveredBatches ((readerMachine m).trace state calls),
      ∃ batch, (∃ rowGroups, .ok batch ∈ namedEventsFile.batches rowGroups) ∧
        Delivers namedEvents.schema ["name"] compiled batch delivered := by
  have h := (projection_resolved namedEventsFile laterNames (by decide) (by decide) (by decide)
    (by intro native hnative; cases hnative; decide)).2 _ _ rfl
  obtain ⟨compiled, mask, rowGroups, -, -, -, -, -, -, hdelivered⟩ := h
  refine ⟨_, _, compiled, rfl, ?_⟩
  intro m calls delivered hmem
  obtain ⟨batch, hbatch, hdelivers⟩ := hdelivered m calls delivered hmem
  exact ⟨batch, ⟨rowGroups, hbatch⟩, hdelivers⟩

end Parquex
