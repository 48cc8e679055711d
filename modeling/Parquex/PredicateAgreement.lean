import Parquex.DatasetPredicate
import Parquex.ProjectionSound

/-!
# Where dataset and file predicates agree

The file stream takes the literals that fit the type of their column, the dataset
stream takes every scalar. On what both take they select the same rows.
-/

namespace Parquex

/-! ## Rows -/

section
variable {α : Type} [LinearOrder α]

theorem orderOf_eq (left right : α) : (orderOf left right == .eq) = decide (left = right) := by
  unfold orderOf
  rcases lt_trichotomy left right with h | h | h
  · simp [h, h.ne]
  · simp [h]
  · simp [h.asymm, h.ne']

theorem orderOf_lt (left right : α) : (orderOf left right == .lt) = decide (left < right) := by
  unfold orderOf
  rcases lt_trichotomy left right with h | h | h
  · simp [h]
  · simp [h]
  · simp [h.asymm, h.ne']

theorem orderOf_gt (left right : α) : (orderOf left right == .gt) = decide (right < left) := by
  unfold orderOf
  rcases lt_trichotomy left right with h | h | h
  · simp [h, h.asymm]
  · simp [h]
  · simp [h, h.asymm, h.ne']

theorem orderOf_ne_lt (left right : α) : (orderOf left right != .lt) = decide (right ≤ left) := by
  rw [bne, orderOf_lt, ← decide_not]
  exact decide_eq_decide.mpr not_lt

theorem orderOf_ne_gt (left right : α) : (orderOf left right != .gt) = decide (left ≤ right) := by
  rw [bne, orderOf_gt, ← decide_not]
  exact decide_eq_decide.mpr not_lt

end

theorem compareTerm_int (value literal : Int) (operator : PredicateOperator) :
    compareTerm (.int value) (.integer literal) operator = compareInteger value literal operator := by
  cases operator with
  | gt => exact orderOf_gt value literal
  | gte => exact orderOf_ne_lt value literal
  | lt => exact orderOf_lt value literal
  | lte => exact orderOf_ne_gt value literal
  | eq => exact orderOf_eq value literal

theorem compareTerm_float (value literal : Rat) (operator : PredicateOperator) :
    compareTerm (.float value) (.float literal) operator = compareFloat (.finite value) (.finite literal) operator := by
  cases operator with
  | gt => exact orderOf_gt value literal
  | gte =>
    refine (orderOf_ne_lt value literal).trans ?_
    simp only [compareFloat, Double.lt, Double.eq, ← Bool.decide_or, decide_eq_decide]
    exact le_iff_lt_or_eq
  | lt => exact orderOf_lt value literal
  | lte =>
    refine (orderOf_ne_gt value literal).trans ?_
    simp only [compareFloat, Double.lt, Double.eq, ← Bool.decide_or, decide_eq_decide]
    exact le_iff_lt_or_eq
  | eq => exact orderOf_eq value literal

theorem orderOf_bytes (left right : String) : orderOf (utf8Bytes left) (utf8Bytes right) = orderOf left right := by
  unfold orderOf
  simp only [utf8Bytes_lt_iff, utf8Bytes_inj]

theorem compareTerm_text (value literal : String) (operator : PredicateOperator) :
    compareTerm (.text value) (.binary (.text literal)) operator = compareStr value literal operator := by
  have horder : (Term.text value).order (.binary (.text literal)) = orderOf value literal := orderOf_bytes value literal
  cases operator with
  | gt => exact (congrArg (· == Ordering.gt) horder).trans (orderOf_gt value literal)
  | gte => exact (congrArg (· != Ordering.lt) horder).trans (orderOf_ne_lt value literal)
  | lt => exact (congrArg (· == Ordering.lt) horder).trans (orderOf_lt value literal)
  | lte => exact (congrArg (· != Ordering.gt) horder).trans (orderOf_ne_gt value literal)
  | eq => exact (congrArg (· == Ordering.eq) horder).trans (orderOf_eq value literal)

theorem compareTerm_boolean (value literal : Bool) :
    compareTerm (encodeBoolean value) (.boolean literal) .eq = (value == literal) := by
  cases value <;> cases literal <;> decide

/-! ## Columns -/

/-- The literal that a fitting scalar compiles to. -/
def Scalar.compiled? : Scalar → Option PredicateLiteral
  | .integer value => some (.integer value)
  | .float value => some (.float (.finite value))
  | .binary (.text value) => some (.utf8 value)
  | .binary (.raw _) => none
  | .boolean value => some (.boolean value)

theorem compiled?_integer {scalar : Scalar} {value : Int} (h : scalar.compiled? = some (.integer value)) :
    scalar = .integer value := by
  cases scalar with
  | integer value => cases h; rfl
  | float value => cases h
  | binary value => cases value <;> cases h
  | boolean value => cases h

theorem compiled?_float {scalar : Scalar} {value : Double} (h : scalar.compiled? = some (.float value)) :
    ∃ number, scalar = .float number ∧ value = .finite number := by
  cases scalar with
  | integer value => cases h
  | float value => cases h; exact ⟨value, rfl, rfl⟩
  | binary value => cases value <;> cases h
  | boolean value => cases h

theorem compiled?_utf8 {scalar : Scalar} {value : String} (h : scalar.compiled? = some (.utf8 value)) :
    scalar = .binary (.text value) := by
  cases scalar with
  | integer value => cases h
  | float value => cases h
  | binary value => cases value <;> cases h; rfl
  | boolean value => cases h

theorem compiled?_boolean {scalar : Scalar} {value : Bool} (h : scalar.compiled? = some (.boolean value)) :
    scalar = .boolean value := by
  cases scalar with
  | integer value => cases h
  | float value => cases h
  | binary value => cases value <;> cases h
  | boolean value => cases h; rfl

/-- Every float of a column is a number that the virtual machine has. -/
def ArrowArray.Finite : ArrowArray → Prop
  | .flat _ (.floats values) => ∀ value, some value ∈ values → ∃ number, value = .finite number
  | _ => True

/-- The rows that a dataset stream keeps of some terms. -/
def datasetRows (predicate : DatasetPredicate) (terms : List Term) : List Nat :=
  (List.range terms.length).filter fun row => predicate.selects (terms.getD row .nil)

/-- Where the comparisons of each value agree, the rows do. -/
theorem filter_rows {α : Type} (values : List (Option α)) (term : α → Term) (predicate : DatasetPredicate)
    (kept : α → Bool) (h : ∀ value, some value ∈ values → predicate.selects (term value) = kept value) :
    datasetRows predicate (values.map fun value => value.elim Term.nil term) =
      (List.range values.length).filter fun row => (values.getD row none).any kept := by
  unfold datasetRows
  rw [List.length_map]
  apply List.filter_congr
  intro row hrow
  have hlt := List.mem_range.mp hrow
  rw [List.getD_eq_getElem?_getD, List.getD_eq_getElem?_getD, List.getElem?_map, List.getElem?_eq_getElem hlt]
  cases hvalue : values[row] with
  | none => rfl
  | some value =>
    have hmem : some value ∈ values := hvalue ▸ List.getElem_mem hlt
    exact h value hmem

/-- The terms of a column and the rows that both streams keep of it. -/
structure RowsAgree (predicate : DatasetPredicate) (array : ArrowArray) (literal : PredicateLiteral)
    (terms : List Term) : Prop where
  length : terms.length = array.length
  encode : ∀ row < array.length, encodeValue array row = .ok (terms.getD row .nil)
  rows : ∃ mask, arrayMask array literal predicate.operator = some mask ∧ keptRows mask = datasetRows predicate terms

theorem encodeAt_elim {α : Type} {values : List (Option α)} {encode : α → Except (Stop NativeFailure) Term}
    {term : α → Term} (h : ∀ value, some value ∈ values → encode value = .ok (term value)) {row : Nat}
    (hrow : row < values.length) :
    encodeAt values row encode = .ok ((values.map fun value => value.elim Term.nil term).getD row .nil) := by
  rw [List.getD_eq_getElem?_getD, List.getElem?_map, List.getElem?_eq_getElem hrow, encodeAt,
    List.getElem?_eq_getElem hrow]
  cases hvalue : values[row] with
  | none => rfl
  | some value => exact h value (hvalue ▸ List.getElem_mem hrow)

theorem rowsAgree_flat {α : Type} {predicate : DatasetPredicate} {type : ScalarType} {slots : Slots}
    {literal : PredicateLiteral} (values : List (Option α)) (encode : α → Except (Stop NativeFailure) Term)
    (term : α → Term) (kept : α → Bool) (hlength : slots.length = values.length)
    (hslots : ∀ row, encodeSlots type.storage slots row = encodeAt values row encode)
    (hmask : arrayMask (.flat type slots) literal predicate.operator = some (values.map fun value => value.map kept))
    (hencode : ∀ value, some value ∈ values → encode value = .ok (term value))
    (hselects : ∀ value, some value ∈ values → predicate.selects (term value) = kept value) :
    ∃ terms, RowsAgree predicate (.flat type slots) literal terms := by
  refine ⟨values.map fun value => value.elim Term.nil term, ?_, ?_, _, hmask, ?_⟩
  · rw [List.length_map]
    exact hlength.symm
  · intro row hrow
    rw [encodeValue, hslots]
    exact encodeAt_elim hencode (by rw [← hlength]; exact hrow)
  · rw [keptRows_map]
    exact (filter_rows values term predicate kept hselects).symm

/-- The term of a finite float. -/
def Double.term : Double → Term
  | .finite value => .float value
  | _ => .other

theorem rowsAgree_floats {predicate : DatasetPredicate} {type : ScalarType} {values : List (Option Double)}
    {value : Double} (hmask : arrayMask (.flat type (.floats values)) (.float value) predicate.operator =
      some (values.map fun v => v.map fun v => compareFloat v value predicate.operator))
    (hlength : (Slots.floats values).length = values.length)
    (hslots : ∀ row, encodeSlots type.storage (.floats values) row = encodeAt values row encodeFloat)
    (hliteral : predicate.literal.compiled? = some (.float value))
    (hfinite : (ArrowArray.flat type (.floats values)).Finite) :
    ∃ terms, RowsAgree predicate (.flat type (.floats values)) (.float value) terms := by
  obtain ⟨number, hscalar, rfl⟩ := compiled?_float hliteral
  refine rowsAgree_flat values encodeFloat Double.term _ hlength hslots hmask ?_ ?_
  · intro v hv
    obtain ⟨w, rfl⟩ := hfinite v hv
    rfl
  · intro v hv
    obtain ⟨w, rfl⟩ := hfinite v hv
    rw [DatasetPredicate.selects, hscalar]
    exact compareTerm_float w number predicate.operator

/-- On a column whose type the literal fits both streams keep the same rows. -/
theorem rows_agree {p : DatasetPredicate} {dataType : DataType} {literal : PredicateLiteral}
    (hfits : FitsType dataType literal) (hliteral : p.literal.compiled? = some literal)
    (hboolean : dataType = .scalar .boolean → p.operator = .eq) {array : ArrowArray}
    (harray : array.Of dataType) (hfinite : array.Finite) : ∃ terms, RowsAgree p array literal terms := by
  obtain ⟨operator, column, scalar⟩ := p
  cases array with
  | flat type slots =>
    cases hfits with
    | integer type' value =>
      obtain ⟨rfl, hslots⟩ := harray
      obtain rfl := compiled?_integer hliteral
      cases slots with
      | integers values =>
        exact rowsAgree_flat values _ Term.int _ rfl (fun _ => rfl) rfl (fun _ _ => rfl)
          fun v _ => compareTerm_int v value operator
      | _ => cases hslots
    | float32 value =>
      obtain ⟨rfl, hslots⟩ := harray
      cases slots with
      | floats values => exact rowsAgree_floats rfl rfl (fun _ => rfl) hliteral hfinite
      | _ => cases hslots
    | float64 value =>
      obtain ⟨rfl, hslots⟩ := harray
      cases slots with
      | floats values => exact rowsAgree_floats rfl rfl (fun _ => rfl) hliteral hfinite
      | _ => cases hslots
    | utf8 value =>
      obtain ⟨rfl, hslots⟩ := harray
      obtain rfl := compiled?_utf8 hliteral
      cases slots with
      | strings values =>
        exact rowsAgree_flat values _ Term.text _ rfl (fun _ => rfl) rfl (fun _ _ => rfl)
          fun v _ => compareTerm_text v value operator
      | _ => cases hslots
    | largeUtf8 value =>
      obtain ⟨rfl, hslots⟩ := harray
      obtain rfl := compiled?_utf8 hliteral
      cases slots with
      | strings values =>
        exact rowsAgree_flat values _ Term.text _ rfl (fun _ => rfl) rfl (fun _ _ => rfl)
          fun v _ => compareTerm_text v value operator
      | _ => cases hslots
    | boolean value =>
      obtain ⟨rfl, hslots⟩ := harray
      obtain rfl := compiled?_boolean hliteral
      obtain rfl : operator = .eq := hboolean rfl
      cases slots with
      | booleans values =>
        exact rowsAgree_flat values _ encodeBoolean _ rfl (fun _ => rfl) rfl (fun _ _ => rfl)
          fun v _ => compareTerm_boolean v value
      | _ => cases hslots
  | list large item offsets valid values => cases hfits <;> cases harray
  | fixedSizeList item listLength valid values => cases hfits <;> cases harray
  | struct fields valid columns => cases hfits <;> cases harray

/-! ## Literals -/

/-- The literals that the file stream takes for a column of that type. -/
def FieldType.takes (type : FieldType) (operator : PredicateOperator) (literal : Scalar) : Bool :=
  match type, literal with
  | .flat (.integer _ _), .integer value => inI64 value
  | .flat (.float _), .float _ => true
  | .flat .utf8, .binary (.text _) => true
  | .flat .boolean, .boolean _ => operator == .eq
  | _, _ => false

/-- What reaches the native library of a literal. -/
def Scalar.native? : Scalar → Option NativeLiteral
  | .integer value =>
    if inI64 value then some { kind := "integer", integer := value, float := none, string := none, boolean := none }
    else none
  | .float value =>
    some { kind := "float", integer := none, float := some (.finite value), string := none, boolean := none }
  | .binary (.text value) =>
    some { kind := "utf8", integer := none, float := none, string := some value, boolean := none }
  | .binary (.raw _) => none
  | .boolean value => some { kind := "boolean", integer := none, float := none, string := none, boolean := value }

/-- How a scalar type takes the literals of predicates. -/
inductive LiteralKind : ScalarType → FlatType → Prop
  | integer (type : IntegerType) (bits : Nat) (signed : Bool) : LiteralKind (.integer type) (.integer bits signed)
  | float32 (bits : Nat) : LiteralKind .float32 (.float bits)
  | float64 (bits : Nat) : LiteralKind .float64 (.float bits)
  | utf8 : LiteralKind .utf8 .utf8
  | boolean : LiteralKind .boolean .boolean
  | other (type : ScalarType) (flat : FlatType)
      (hrefused : ∀ operator literal, ∃ failure, predicateLiteral (.scalar type) operator literal = .error failure)
      (htakes : ∀ operator literal, (FieldType.flat flat).takes operator literal = false) : LiteralKind type flat

theorem literalKind {flat : FlatType} {type : ScalarType} (h : flat.arrow? = some type) : LiteralKind type flat := by
  unfold FlatType.arrow? at h
  split at h <;> cases h
  · exact .boolean
  · exact .utf8
  all_goals first
    | exact .integer _ _ _
    | exact .float32 _
    | exact .float64 _
    | exact .other _ _ (fun _ _ => ⟨_, rfl⟩) (fun _ _ => rfl)

theorem native?_integer {value : Int} {native : NativeLiteral} (h : (Scalar.integer value).native? = some native) :
    inI64 value = true ∧ native =
      { kind := "integer", integer := some value, float := none, string := none, boolean := none } := by
  simp only [Scalar.native?] at h
  by_cases hin : inI64 value = true
  · rw [if_pos hin, Option.some.injEq] at h
    exact ⟨hin, h.symm⟩
  · rw [if_neg hin] at h
    cases h

/-- The compiler takes a literal exactly when it fits the type. -/
theorem predicateLiteral_takes {flat : FlatType} {type : ScalarType} (hkind : LiteralKind type flat) {scalar : Scalar}
    {native : NativeLiteral} (hnative : scalar.native? = some native) (operator : PredicateOperator) :
    ((FieldType.flat flat).takes operator scalar = true ∧
      ∃ literal pruneKind, predicateLiteral (.scalar type) operator native = .ok (literal, pruneKind) ∧
        scalar.compiled? = some literal) ∨
    ((FieldType.flat flat).takes operator scalar = false ∧
      ∃ failure, predicateLiteral (.scalar type) operator native = .error failure) := by
  cases hkind with
  | other _ _ hrefused htakes => exact .inr ⟨htakes operator scalar, hrefused operator native⟩
  | integer type bits signed =>
    cases scalar with
    | integer value =>
      obtain ⟨hin, rfl⟩ := native?_integer hnative
      refine .inl ⟨hin, .integer value, ?_⟩
      cases type <;> exact ⟨_, rfl, rfl⟩
    | float value =>
      cases hnative
      refine .inr ⟨rfl, predicateLiteralError, ?_⟩
      cases type <;> rfl
    | binary value =>
      cases value <;> cases hnative
      refine .inr ⟨rfl, predicateLiteralError, ?_⟩
      cases type <;> rfl
    | boolean value =>
      cases hnative
      refine .inr ⟨rfl, predicateLiteralError, ?_⟩
      cases type <;> rfl
  | float32 bits =>
    cases scalar with
    | integer value =>
      obtain ⟨-, rfl⟩ := native?_integer hnative
      exact .inr ⟨rfl, predicateLiteralError, rfl⟩
    | float value => cases hnative; exact .inl ⟨rfl, _, _, rfl, rfl⟩
    | binary value => cases value <;> cases hnative; exact .inr ⟨rfl, predicateLiteralError, rfl⟩
    | boolean value => cases hnative; exact .inr ⟨rfl, predicateLiteralError, rfl⟩
  | float64 bits =>
    cases scalar with
    | integer value =>
      obtain ⟨-, rfl⟩ := native?_integer hnative
      exact .inr ⟨rfl, predicateLiteralError, rfl⟩
    | float value => cases hnative; exact .inl ⟨rfl, _, _, rfl, rfl⟩
    | binary value => cases value <;> cases hnative; exact .inr ⟨rfl, predicateLiteralError, rfl⟩
    | boolean value => cases hnative; exact .inr ⟨rfl, predicateLiteralError, rfl⟩
  | utf8 =>
    cases scalar with
    | integer value =>
      obtain ⟨-, rfl⟩ := native?_integer hnative
      exact .inr ⟨rfl, predicateLiteralError, rfl⟩
    | float value => cases hnative; exact .inr ⟨rfl, predicateLiteralError, rfl⟩
    | binary value => cases value <;> cases hnative; exact .inl ⟨rfl, _, _, rfl, rfl⟩
    | boolean value => cases hnative; exact .inr ⟨rfl, predicateLiteralError, rfl⟩
  | boolean =>
    by_cases heq : operator = .eq
    · subst heq
      cases scalar with
      | integer value =>
        obtain ⟨-, rfl⟩ := native?_integer hnative
        exact .inr ⟨rfl, predicateLiteralError, rfl⟩
      | float value => cases hnative; exact .inr ⟨rfl, predicateLiteralError, rfl⟩
      | binary value => cases value <;> cases hnative; exact .inr ⟨rfl, predicateLiteralError, rfl⟩
      | boolean value => cases hnative; exact .inl ⟨rfl, _, _, rfl, rfl⟩
    · refine .inr ⟨?_, _, if_neg heq⟩
      cases scalar <;> simp [FieldType.takes, heq]

theorem takes_native {type : FieldType} {operator : PredicateOperator} {scalar : Scalar}
    (h : type.takes operator scalar = true) : ∃ native, scalar.native? = some native := by
  cases scalar with
  | integer value =>
    have hin : inI64 value = true := by
      unfold FieldType.takes at h
      split at h <;> simp_all
    exact ⟨_, if_pos hin⟩
  | float value => exact ⟨_, rfl⟩
  | binary value =>
    cases value with
    | text value => exact ⟨_, rfl⟩
    | raw value =>
      unfold FieldType.takes at h
      split at h <;> simp_all
  | boolean value => exact ⟨_, rfl⟩

/-! ## Fields -/

theorem arrowDataType_takes {type : FieldType} {dataType : DataType} (h : arrowDataType type = .ok dataType)
    {scalar : Scalar} {native : NativeLiteral} (hnative : scalar.native? = some native) (operator : PredicateOperator) :
    (type.takes operator scalar = true ∧
      ∃ literal pruneKind, predicateLiteral dataType operator native = .ok (literal, pruneKind) ∧
        scalar.compiled? = some literal) ∨
    (type.takes operator scalar = false ∧ ∃ failure, predicateLiteral dataType operator native = .error failure) := by
  cases type with
  | flat flat =>
    rw [arrowDataType] at h
    cases harrow : flat.arrow? with
    | none => rw [harrow] at h; cases h
    | some type =>
      rw [harrow] at h
      cases h
      exact predicateLiteral_takes (literalKind harrow) hnative operator
  | list field =>
    rw [arrowDataType] at h
    obtain ⟨item, -, rfl⟩ := except_map_eq_ok.mp h
    exact .inr ⟨by cases scalar <;> rfl, _, rfl⟩
  | largeList field =>
    rw [arrowDataType] at h
    obtain ⟨item, -, rfl⟩ := except_map_eq_ok.mp h
    exact .inr ⟨by cases scalar <;> rfl, _, rfl⟩
  | fixedList field length =>
    rw [arrowDataType] at h
    obtain ⟨item, -, rfl⟩ := except_map_eq_ok.mp h
    exact .inr ⟨by cases scalar <;> rfl, _, rfl⟩
  | struct fields =>
    rw [arrowDataType] at h
    obtain ⟨items, -, rfl⟩ := except_map_eq_ok.mp h
    exact .inr ⟨by cases scalar <;> rfl, _, rfl⟩

/-- The first field of a name has the same place in the file. -/
theorem arrowFields_named {schemaFields : List SchemaField} {fields : List Field}
    (h : arrowFields schemaFields = .ok fields) {name : String} {field : SchemaField}
    (hfield : schemaFields.find? (fun field => field.name == name) = some field) :
    ∃ index arrow, fields.findIdx? (fun field => field.name == name) = some index ∧ fields[index]? = some arrow ∧
      arrowDataType field.type = .ok arrow.dataType := by
  induction schemaFields generalizing fields with
  | nil => cases hfield
  | cons first rest ih =>
    rw [arrowFields] at h
    obtain ⟨arrow, harrow, h⟩ := except_bind_eq_ok.mp h
    obtain ⟨arrows, harrows, rfl⟩ := except_map_eq_ok.mp h
    cases first with
    | mk firstName type nullable =>
      rw [arrowField] at harrow
      obtain ⟨dataType, htype, rfl⟩ := except_map_eq_ok.mp harrow
      by_cases heq : firstName = name
      · rw [List.find?_cons_of_pos (by simpa [SchemaField.name] using heq), Option.some.injEq] at hfield
        subst hfield
        refine ⟨0, .mk firstName dataType nullable, ?_, rfl, htype⟩
        rw [List.findIdx?_cons, if_pos (by simpa [Field.name] using heq)]
      · rw [List.find?_cons_of_neg (by simpa [SchemaField.name] using heq)] at hfield
        obtain ⟨index, arrow, hindex, hget, htype⟩ := ih harrows hfield
        refine ⟨index + 1, arrow, ?_, hget, htype⟩
        rw [List.findIdx?_cons, if_neg (by simpa [Field.name] using heq), hindex]
        rfl

theorem arrowFields_unnamed {schemaFields : List SchemaField} {fields : List Field}
    (h : arrowFields schemaFields = .ok fields) {name : String}
    (hfield : schemaFields.find? (fun field => field.name == name) = none) :
    fields.findIdx? (fun field => field.name == name) = none := by
  induction schemaFields generalizing fields with
  | nil => cases h; rfl
  | cons first rest ih =>
    rw [arrowFields] at h
    obtain ⟨arrow, harrow, h⟩ := except_bind_eq_ok.mp h
    obtain ⟨arrows, harrows, rfl⟩ := except_map_eq_ok.mp h
    have hall := List.find?_eq_none.mp hfield
    have hrest : rest.find? (fun field => field.name == name) = none :=
      List.find?_eq_none.mpr fun field hmem => hall field (by simp [hmem])
    have hfirst := hall first (by simp)
    cases first with
    | mk firstName type nullable =>
      rw [arrowField] at harrow
      obtain ⟨dataType, -, rfl⟩ := except_map_eq_ok.mp harrow
      rw [List.findIdx?_cons, if_neg (by simpa [Field.name, SchemaField.name] using hfirst), ih harrows hrest]
      rfl

/-! ## Acceptance -/

theorem literalMap_column {operator : String} {column : Binary} {literal : Term} {predicate : PredicateMap}
    (h : literalMap operator column literal = some predicate) : predicate.column = column := by
  unfold literalMap at h
  split at h
  · cases h; rfl
  · split at h <;> cases h
    rfl
  · cases h; rfl
  · cases h; rfl
  · cases h

/-- What reaches the native library of a literal that the library maps. -/
theorem literalMap_decode (operator name : String) {literal : Term} {scalar : Scalar}
    (hscalar : literal.scalar? = some scalar) :
    (scalar.native? = none ∧ ∀ predicate native, literalMap operator (.text name) literal = some predicate →
      predicate.decode ≠ .ok native) ∨
    ∃ native predicate, scalar.native? = some native ∧ literalMap operator (.text name) literal = some predicate ∧
      predicate.decode = .ok { column := name, operator, literal := native } := by
  unfold literalMap
  rw [hscalar]
  cases scalar with
  | integer value =>
    by_cases hin : inI64 value = true
    · simp only [Scalar.native?, hin, if_true]
      exact .inr ⟨_, _, rfl, rfl, rfl⟩
    · simp only [Scalar.native?, hin]
      exact .inl ⟨rfl, fun _ _ h => by cases h⟩
  | float value => exact .inr ⟨_, _, rfl, rfl, rfl⟩
  | binary value =>
    cases value with
    | text value => exact .inr ⟨_, _, rfl, rfl, rfl⟩
    | raw value => exact .inl ⟨rfl, fun _ _ h hd => by cases h; cases hd⟩
  | boolean value => exact .inr ⟨_, _, rfl, rfl, rfl⟩

/-- The parts of a condition that compares a field of the schema with a scalar. -/
structure Compares (schema : Schema) (condition : Term) (operator : PredicateOperator) (name : String)
    (field : SchemaField) (literal : Scalar) : Prop where
  parts : ∃ op column value, condition = .tuple [.atom op, column, value] ∧ whereOperator op = some operator ∧
    Input.normalizeName column = some (.text name) ∧ value.scalar? = some literal
  field : schema.field name = some field

theorem datasetPredicate_inv {schema : Schema} {condition : Term} {accepted : Option DatasetPredicate}
    (h : datasetPredicate schema condition = .ok accepted) :
    (condition = .nil ∧ accepted = none) ∨ ∃ operator name field literal,
      Compares schema condition operator name field literal ∧ accepted = some { operator, column := name, literal } := by
  unfold datasetPredicate at h
  split at h
  · cases h
    exact .inl ⟨rfl, rfl⟩
  · next op column value =>
    right
    cases hop : whereOperator op with
    | none => rw [hop] at h; cases h
    | some operator =>
      rw [hop] at h
      simp only at h
      split at h
      · next name literal hname hscalar =>
        split at h
        · next hfield =>
          obtain ⟨field, hfield⟩ := Option.isSome_iff_exists.mp hfield
          cases h
          exact ⟨operator, name, field, literal, ⟨⟨op, column, value, rfl, hop, hname, hscalar⟩, hfield⟩, rfl⟩
        · cases h
      · cases h
  · cases h

theorem Compares.accepted {schema : Schema} {condition : Term} {operator : PredicateOperator} {name : String}
    {field : SchemaField} {literal : Scalar} (h : Compares schema condition operator name field literal) :
    datasetPredicate schema condition = .ok (some { operator, column := name, literal }) := by
  obtain ⟨op, column, value, rfl, hop, hname, hscalar⟩ := h.parts
  simp only [datasetPredicate, hop, hname, hscalar, h.field, Option.isSome_some, if_true]

/-- The parts of a condition are its own. -/
theorem Compares.unique {schema : Schema} {condition : Term} {operator operator' : PredicateOperator}
    {name name' : String} {field field' : SchemaField} {literal literal' : Scalar}
    (h : Compares schema condition operator name field literal)
    (h' : Compares schema condition operator' name' field' literal') :
    operator' = operator ∧ name' = name ∧ field' = field ∧ literal' = literal := by
  have heq := h.accepted.symm.trans h'.accepted
  simp only [Except.ok.injEq, Option.some.injEq, DatasetPredicate.mk.injEq] at heq
  obtain ⟨rfl, rfl, rfl⟩ := heq
  exact ⟨rfl, rfl, Option.some.inj (h'.field.symm.trans h.field), rfl⟩

theorem predicateOperator_eq {op : String} {operator : PredicateOperator} (h : whereOperator op = some operator) :
    predicateOperator op = .ok operator := by
  unfold whereOperator at h
  split at h <;> cases h <;> rfl

theorem readerName_normalizeName {column : Term} {name : String} (h : readerName column = some (.text name))
    (hne : name ≠ "") : Input.normalizeName column = some (.text name) := by
  cases column with
  | atom text => exact h
  | binary text =>
    cases h
    rw [Input.normalizeName, if_neg (by simpa using hne)]
  | _ => cases h

theorem normalizeName_readerName {column : Term} {name : String} (h : Input.normalizeName column = some (.text name)) :
    readerName column = some (.text name) := by
  cases column with
  | atom text => exact h
  | binary text =>
    rw [Input.normalizeName] at h
    split at h <;> cases h
    rfl
  | _ => cases h

section
variable {schema : Schema} {fields : List Field} {condition : Term}

/-- A compiled predicate with the parts of its condition. -/
structure Compiles (fields : List Field) (comparison : PredicateOperator) (name : String) (field : SchemaField)
    (scalar : Scalar) (compiled : CompiledPredicate) : Prop where
  operator : compiled.operator = comparison
  takes : field.type.takes comparison scalar = true
  literal : scalar.compiled? = some compiled.literal
  column : ∃ arrow, fields[compiled.rootIndex]? = some arrow ∧ arrow.name = name ∧
    arrowDataType field.type = .ok arrow.dataType ∧ FitsType arrow.dataType compiled.literal

theorem compilePredicate_compiles (hfields : arrowFields schema.fields = .ok fields) {op name : String}
    {operator : PredicateOperator} (hop : whereOperator op = some operator) {field : SchemaField}
    (hfield : schema.field name = some field) {literal : Scalar} {native : NativeLiteral}
    (hnative : literal.native? = some native) :
    (field.type.takes operator literal = true ∧ ∃ compiled,
      compilePredicate { column := name, operator := op, literal := native } fields = .ok compiled ∧
      Compiles fields operator name field literal compiled) ∨
    (field.type.takes operator literal = false ∧ ∃ failure,
      compilePredicate { column := name, operator := op, literal := native } fields = .error failure) := by
  obtain ⟨index, arrow, hindex, hget, htype⟩ := arrowFields_named hfields hfield
  obtain ⟨arrow', hget', hname⟩ := (namedAt_of_findIdx? hindex).2
  obtain rfl : arrow' = arrow := Option.some.inj (hget'.symm.trans hget)
  unfold compilePredicate
  simp only [hindex, hget, predicateOperator_eq hop, bind, Except.bind]
  rcases arrowDataType_takes htype hnative operator with ⟨htakes, value, pruneKind, hliteral, hcompiled⟩ |
    ⟨htakes, failure, hliteral⟩
  · rw [hliteral]
    exact .inl ⟨htakes, _, rfl, rfl, htakes, hcompiled, _, hget, hname, htype, predicateLiteral_fits hliteral⟩
  · rw [hliteral]
    exact .inr ⟨htakes, failure, rfl⟩

theorem streamPredicate_inv (hfields : arrowFields schema.fields = .ok fields) {accepted : Option CompiledPredicate}
    (h : streamPredicate fields condition = .ok accepted) :
    (condition = .nil ∧ accepted = none) ∨ ∃ operator name field literal compiled,
      Compares schema condition operator name field literal ∧ name ≠ "" ∧
      Compiles fields operator name field literal compiled ∧ accepted = some compiled := by
  unfold streamPredicate at h
  obtain ⟨mapped, hmapped, h⟩ := except_bind_eq_ok.mp h
  cases hvalid : validatePredicate condition with
  | error error => rw [hvalid] at hmapped; cases hmapped
  | ok mapped' =>
    rw [hvalid] at hmapped
    cases hmapped
    unfold validatePredicate at hvalid
    split at hvalid
    · cases hvalid
      cases h
      exact .inl ⟨rfl, rfl⟩
    · next op column value =>
      right
      cases hop : whereOperator op with
      | none => rw [hop] at hvalid; cases hvalid
      | some operator =>
        rw [hop] at hvalid
        simp only [Option.isNone_some, Bool.false_eq_true, if_false] at hvalid
        split at hvalid
        · cases hvalid
        · next column' hcolumn =>
          split at hvalid
          · next predicate hmap =>
            split at hvalid
            · cases hvalid
            · next hne =>
              cases hvalid
              simp only at h
              obtain ⟨native, hdecode, h⟩ := except_bind_eq_ok.mp h
              cases column' with
              | raw bytes =>
                have hraw := literalMap_column hmap
                simp only [PredicateMap.decode, hraw] at hdecode
                cases hdecode
              | text name =>
                have hname : name ≠ "" := fun heq => hne (by rw [heq])
                cases hscalar : value.scalar? with
                | none => simp only [literalMap, hscalar] at hmap; cases hmap
                | some literal =>
                  rcases literalMap_decode op name hscalar with
                    ⟨-, hnone⟩ | ⟨nativeLiteral, predicate', hnative, hmap', hdecode'⟩
                  · exact absurd hdecode (hnone predicate native hmap)
                  · obtain rfl : predicate' = predicate := Option.some.inj (hmap'.symm.trans hmap)
                    obtain rfl := Except.ok.inj (hdecode'.symm.trans hdecode)
                    cases hfield : schema.field name with
                    | none =>
                      have hnot := arrowFields_unnamed hfields hfield
                      simp only [compileOptional, compilePredicate, hnot] at h
                      cases h
                    | some field =>
                      have hcompares : Compares schema (.tuple [.atom op, column, value]) operator name field literal :=
                        ⟨⟨op, column, value, rfl, hop, readerName_normalizeName hcolumn hname, hscalar⟩, hfield⟩
                      rcases compilePredicate_compiles hfields hop hfield hnative with
                        ⟨-, compiled, hcompile, hcompiles⟩ | ⟨-, failure, hcompile⟩
                      · simp only [compileOptional, hcompile] at h
                        cases h
                        exact ⟨operator, name, field, literal, compiled, hcompares, hname, hcompiles, rfl⟩
                      · simp only [compileOptional, hcompile] at h
                        cases h
          · cases hvalid
    · cases hvalid

theorem Compares.compiles (hfields : arrowFields schema.fields = .ok fields) {operator : PredicateOperator}
    {name : String} {field : SchemaField} {literal : Scalar}
    (h : Compares schema condition operator name field literal) (hname : name ≠ "")
    (htakes : field.type.takes operator literal = true) :
    ∃ compiled, streamPredicate fields condition = .ok (some compiled) := by
  obtain ⟨op, column, value, rfl, hop, hcolumn, hscalar⟩ := h.parts
  have hreader := normalizeName_readerName hcolumn
  obtain ⟨native, hnative⟩ := takes_native htakes
  rcases literalMap_decode op name hscalar with ⟨hnone, -⟩ | ⟨native', predicate, hnative', hmap, hdecode⟩
  · rw [hnone] at hnative
    cases hnative
  · rcases compilePredicate_compiles hfields hop h.field hnative' with ⟨-, compiled, hcompile, -⟩ | ⟨hnot, -⟩
    · refine ⟨compiled, ?_⟩
      have hne : Binary.text name ≠ .text "" := by simpa using hname
      have hvalid : validatePredicate (.tuple [.atom op, column, value]) = .ok (some predicate) := by
        simp only [validatePredicate, hop, hreader, hmap, Option.isNone_some, Bool.false_eq_true, if_false, hne]
      simp only [streamPredicate, hvalid, TimePartition.liftError, bind, Except.bind, hdecode, compileOptional, hcompile]
      rfl
    · rw [htakes] at hnot
      cases hnot

/-- The condition compares a field with a literal that fits the type of the field. -/
def WhereFits (schema : Schema) (condition : Term) : Prop :=
  ∀ operator name field literal, Compares schema condition operator name field literal →
    name ≠ "" ∧ field.type.takes operator literal = true

/-- Both streams accept the condition or neither does, and where both do they keep the same rows of every column. -/
def PredicatesAgree (schema : Schema) (fields : List Field) (condition : Term) : Prop :=
  ((∃ predicate, datasetPredicate schema condition = .ok predicate) ↔
    ∃ compiled, streamPredicate fields condition = .ok compiled) ∧
  ∀ predicate compiled, datasetPredicate schema condition = .ok (some predicate) →
    streamPredicate fields condition = .ok (some compiled) →
    ∃ arrow, fields[compiled.rootIndex]? = some arrow ∧ arrow.name = predicate.column ∧
      ∀ array, array.Of arrow.dataType → array.Finite → ∃ terms mask, terms.length = array.length ∧
        (∀ row < array.length, encodeValue array row = .ok (terms.getD row .nil)) ∧
        arrayMask array compiled.literal compiled.operator = some mask ∧ keptRows mask = datasetRows predicate terms ∧
        ∀ row ∈ keptRows mask, (terms.getD row .nil).isNil = false

theorem datasetRows_not_nil {predicate : DatasetPredicate} {terms : List Term} :
    ∀ row ∈ datasetRows predicate terms, (terms.getD row .nil).isNil = false := by
  intro row hrow
  have hselects := (List.mem_filter.mp hrow).2
  unfold DatasetPredicate.selects compareTerm at hselects
  cases hnil : (terms.getD row .nil).isNil with
  | false => rfl
  | true => rw [hnil, if_pos rfl] at hselects; cases hselects

theorem takes_boolean {type : FieldType} {operator : PredicateOperator} {literal : Scalar}
    (htakes : type.takes operator literal = true) (h : arrowDataType type = .ok (.scalar .boolean)) :
    operator = .eq := by
  cases type with
  | flat flat =>
    rw [arrowDataType] at h
    cases harrow : flat.arrow? with
    | none => rw [harrow] at h; cases h
    | some type =>
      rw [harrow] at h
      cases h
      cases literalKind harrow with
      | boolean =>
        cases literal with
        | boolean value => exact eq_of_beq htakes
        | _ => cases htakes
      | other _ _ _ hnot => rw [hnot] at htakes; cases htakes
  | list field => cases literal <;> cases htakes
  | largeList field => cases literal <;> cases htakes
  | fixedList field length => cases literal <;> cases htakes
  | struct fields => cases literal <;> cases htakes

theorem agreed_rows (hfields : arrowFields schema.fields = .ok fields) {predicate : DatasetPredicate}
    {compiled : CompiledPredicate} (hdataset : datasetPredicate schema condition = .ok (some predicate))
    (hstream : streamPredicate fields condition = .ok (some compiled)) :
    ∃ arrow, fields[compiled.rootIndex]? = some arrow ∧ arrow.name = predicate.column ∧
      ∀ array, array.Of arrow.dataType → array.Finite → ∃ terms mask, terms.length = array.length ∧
        (∀ row < array.length, encodeValue array row = .ok (terms.getD row .nil)) ∧
        arrayMask array compiled.literal compiled.operator = some mask ∧ keptRows mask = datasetRows predicate terms ∧
        ∀ row ∈ keptRows mask, (terms.getD row .nil).isNil = false := by
  rcases datasetPredicate_inv hdataset with ⟨-, hnone⟩ | ⟨operator, name, field, literal, hcompares, heq⟩
  · cases hnone
  · cases heq
    rcases streamPredicate_inv hfields hstream with
      ⟨-, hnone⟩ | ⟨operator', name', field', literal', compiled', hcompares', -, hcompiles, heq⟩
    · cases hnone
    · cases heq
      obtain ⟨rfl, rfl, rfl, rfl⟩ := hcompares.unique hcompares'
      obtain ⟨arrow, hget, hname, htype, hfits⟩ := hcompiles.column
      refine ⟨arrow, hget, hname, fun array hof hfinite => ?_⟩
      have hboolean : arrow.dataType = .scalar .boolean → operator' = .eq := by
        intro heq
        rw [heq] at htype
        exact takes_boolean hcompiles.takes htype
      obtain ⟨terms, hrows⟩ := rows_agree (p := ⟨operator', name', literal'⟩) hfits hcompiles.literal hboolean hof
        hfinite
      obtain ⟨mask, hmask, hkept⟩ := hrows.rows
      refine ⟨terms, mask, hrows.length, hrows.encode, ?_, hkept, ?_⟩
      · rw [hcompiles.operator]
        exact hmask
      · rw [hkept]
        exact datasetRows_not_nil

/-- The streams agree exactly on the conditions whose literal fits the type of the column. -/
theorem predicates_agree_iff (schema : Schema) (fields : List Field) (hfields : arrowFields schema.fields = .ok fields)
    (condition : Term) : PredicatesAgree schema fields condition ↔ WhereFits schema condition := by
  constructor
  · intro h operator name field literal hcompares
    obtain ⟨compiled, hstream⟩ := h.1.mp ⟨_, hcompares.accepted⟩
    rcases streamPredicate_inv hfields hstream with
      ⟨rfl, -⟩ | ⟨operator', name', field', literal', compiled', hcompares', hname, hcompiles, -⟩
    · obtain ⟨op, column, value, heq, -⟩ := hcompares.parts
      cases heq
    · obtain ⟨rfl, rfl, rfl, rfl⟩ := hcompares.unique hcompares'
      exact ⟨hname, hcompiles.takes⟩
  · intro h
    refine ⟨⟨?_, ?_⟩, fun predicate compiled => agreed_rows hfields⟩
    · rintro ⟨accepted, hdataset⟩
      rcases datasetPredicate_inv hdataset with ⟨rfl, -⟩ | ⟨operator, name, field, literal, hcompares, -⟩
      · exact ⟨none, rfl⟩
      · obtain ⟨hname, htakes⟩ := h operator name field literal hcompares
        obtain ⟨compiled, hstream⟩ := hcompares.compiles hfields hname htakes
        exact ⟨_, hstream⟩
    · rintro ⟨accepted, hstream⟩
      rcases streamPredicate_inv hfields hstream with ⟨rfl, -⟩ | ⟨operator, name, field, literal, -, hcompares, -⟩
      · exact ⟨none, rfl⟩
      · exact ⟨_, hcompares.accepted⟩

end

/-- A sequence number. -/
def sequenceSchema : Schema where
  fields := [.mk "sequence" (.flat (.integer 64 true)) false]

def sequenceFields : List Field := [.mk "sequence" (.scalar (.integer .int64)) false]

theorem predicates_agree_iff_sequence :
    PredicatesAgree sequenceSchema sequenceFields (.tuple [.atom "gt", .atom "sequence", .int 100]) := by
  refine (predicates_agree_iff sequenceSchema sequenceFields rfl _).mpr ?_
  intro operator name field literal hcompares
  have hparts : Compares sequenceSchema (.tuple [.atom "gt", .atom "sequence", .int 100]) .gt "sequence"
      (.mk "sequence" (.flat (.integer 64 true)) false) (.integer 100) := ⟨⟨_, _, _, rfl, rfl, rfl, rfl⟩, rfl⟩
  obtain ⟨rfl, rfl, rfl, rfl⟩ := hparts.unique hcompares
  exact ⟨by decide, rfl⟩

/-- A text compared with an integer column: the dataset stream takes it, the file stream does not. -/
theorem predicates_disagree :
    ¬PredicatesAgree sequenceSchema sequenceFields (.tuple [.atom "gt", .atom "sequence", .text "x"]) := by
  intro h
  obtain ⟨compiled, hstream⟩ := h.1.mp ⟨_, rfl⟩
  cases hstream

end Parquex
