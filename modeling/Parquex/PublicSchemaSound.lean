import Parquex.PublicSchema
import Parquex.Fallible

/-!
# What the schema constructor accepts

The constructor takes every type that the encoder has a clause for. The decoder and
the writer take the documented types only, so a schema is writable exactly when its
types are those.
-/

namespace Parquex

namespace PublicSchema

/-! ## Documented types -/

mutual
/-- The documented types, with fields inside that the writer takes. -/
def isType : SchemaTerm → Bool
  | .atom name => (kindOf name).any isPlain
  | .tuple (.atom name :: args) =>
    match kindOf name, args with
    | some .integer, [bits, signed] => bits.isOneOf [8, 16, 32, 64] && signed.isBoolean
    | some .float, [bits] => bits.isOneOf [32, 64]
    | some .fixedBinary, [length] => length.isPositive
    | some .time, [unit, bits] => isTimeOf unit bits
    | some .timestamp, [unit, timezone] => unit.isUnit && timezone.isTimezone
    | some .duration, [unit] => unit.isUnit
    | some .decimal, [bits, precision, scale] =>
      bits.isOneOf [32, 64, 128, 256] && precision.isPositive && scale.isInteger
    | some .list, [field] => isField field
    | some .largeList, [field] => isField field
    | some .fixedList, [field, length] => isField field && length.isPositive
    | some .struct, [.list fields] => !fields.isEmpty && areFields fields && decide (fields.map fieldName).Nodup
    | _, _ => false
  | _ => false

def isField : SchemaTerm → Bool
  | .field (.binary name) type nullable => decide (name ≠ .text "") && nullable.isBoolean && isType type
  | _ => false

def areFields : List SchemaTerm → Bool
  | [] => true
  | field :: fields => isField field && areFields fields
end

/-! ## Kinds -/

theorem kindOf_eq_some {name : String} {kind : Kind} : kindOf name = some kind ↔ name = kindAtom kind := by
  constructor
  · intro h
    unfold kindOf at h
    have hname := List.find?_some h
    exact (beq_iff_eq.mp hname).symm
  · rintro rfl
    cases kind <;> rfl

theorem decodedWhen_eq_ok {type type' : SchemaTerm} {condition : Bool} :
    decodedWhen type condition = .ok type' ↔ condition = true ∧ type = type' := by
  unfold decodedWhen
  cases condition <;> simp

/-! ## Decoding after encoding -/

theorem kindOf_atom (kind : Kind) : kindOf (kindAtom kind) = some kind := kindOf_eq_some.mpr rfl

section
variable {name type nullable length : SchemaTerm} {child : NativeFieldTerm} {children : List NativeFieldTerm}

theorem encodeField_eq_ok {field : SchemaTerm} (h : encodeField field = .ok child) :
    ∃ name type nullable dataType, field = .field name type nullable ∧ encodeType type = .ok dataType ∧
      child = .mk name nullable dataType := by
  cases field with
  | field name type nullable =>
    obtain ⟨dataType, htype, rfl⟩ := except_map_eq_ok.mp h
    exact ⟨name, type, nullable, dataType, rfl, htype, rfl⟩
  | _ => cases h

theorem list_back {kind : Kind} (hkind : kind = .list ∨ kind = .largeList)
    (h : decodeField child = .ok (.field name type nullable) ∧
      validField (.field name type nullable) = true ↔ isField (.field name type nullable) = true) :
    decodeType (.mk { kind } [child]) = .ok (typed kind [.field name type nullable]) ∧
      validNestedType (typed kind [.field name type nullable]) = true ↔
      isType (typed kind [.field name type nullable]) = true := by
  have hdecode : decodeType (.mk { kind } [child]) = decodeField child >>= fun field => pure (typed kind [field]) := by
    rcases hkind with rfl | rfl <;> rfl
  have hvalid : validNestedType (typed kind [.field name type nullable]) = validField (.field name type nullable) := by
    rcases hkind with rfl | rfl <;> rfl
  have htype : isType (typed kind [.field name type nullable]) = isField (.field name type nullable) := by
    rcases hkind with rfl | rfl <;> rfl
  rw [hdecode, hvalid, htype, ← h, except_map_eq_ok]
  simp [typed]

theorem fixedList_back (h : decodeField child = .ok (.field name type nullable) ∧
      validField (.field name type nullable) = true ↔ isField (.field name type nullable) = true) :
    decodeType (.mk { kind := .fixedList, length } [child]) =
        .ok (typed .fixedList [.field name type nullable, length]) ∧
      validNestedType (typed .fixedList [.field name type nullable, length]) = true ↔
      isType (typed .fixedList [.field name type nullable, length]) = true := by
  have hdecode : decodeType (.mk { kind := .fixedList, length } [child]) =
      if length.isPositive then decodeField child >>= fun field => pure (typed .fixedList [field, length])
      else .error invalidSchema := rfl
  have hvalid : validNestedType (typed .fixedList [.field name type nullable, length]) =
      validField (.field name type nullable) := rfl
  have htype : isType (typed .fixedList [.field name type nullable, length]) =
      (isField (.field name type nullable) && length.isPositive) := rfl
  rw [hdecode, hvalid, htype, Bool.and_eq_true, ← h]
  by_cases hlength : length.isPositive = true
  · rw [if_pos hlength, except_map_eq_ok]
    simp [typed, hlength]
  · simp [hlength]

theorem struct_back {fields : List SchemaTerm} (h : decodeFields children = .ok fields ∧
      validFields fields = true ↔ areFields fields = true) :
    decodeType (.mk { kind := .struct } children) = .ok (typed .struct [.list fields]) ∧
      validNestedType (typed .struct [.list fields]) = true ↔ isType (typed .struct [.list fields]) = true := by
  have hdecode : decodeType (.mk { kind := .struct } children) =
      decodeFields children >>= fun fields => pure (typed .struct [.list fields]) := rfl
  have hvalid : validNestedType (typed .struct [.list fields]) =
      (!fields.isEmpty && validFields fields && decide (fields.map fieldName).Nodup) := rfl
  have htype : isType (typed .struct [.list fields]) =
      (!fields.isEmpty && areFields fields && decide (fields.map fieldName).Nodup) := rfl
  rw [hdecode, hvalid, htype, except_map_eq_ok]
  simp only [typed, Bool.and_eq_true, ← h, SchemaTerm.tuple.injEq, SchemaTerm.list.injEq, List.cons.injEq, true_and,
    and_true, exists_eq_right]
  tauto

end

mutual
/-- An encoded type comes back and passes the writer exactly when it is a documented one. -/
theorem type_back : ∀ (type : SchemaTerm) {native : NativeTerm}, encodeType type = .ok native →
    (decodeType native = .ok type ∧ validNestedType type = true ↔ isType type = true)
  | .atom name, native, h => by
    rw [encodeType] at h
    rw [isType]
    cases hkind : kindOf name with
    | none =>
      rw [hkind] at h
      cases h
    | some kind =>
      obtain rfl := kindOf_eq_some.mp hkind
      rw [hkind] at h
      simp only at h
      split at h
      · next hplain =>
        cases h
        cases kind <;> first
          | (cases hplain; done)
          | simp [decodeType, decodeFlat, decodedWhen, isPlain, validNestedType]
      · cases h
  | .tuple (.atom name :: args), native, h => by
    unfold encodeType at h
    split at h
    -- the types without a field inside
    iterate 7
      · next hkind =>
        obtain rfl := kindOf_eq_some.mp hkind
        cases h
        simp [isType, kindOf_atom, decodeType, decodeFlat, decodedWhen_eq_ok, validNestedType, typed]
    · next field hkind =>
      obtain rfl := kindOf_eq_some.mp hkind
      obtain ⟨child, hchild, rfl⟩ := except_map_eq_ok.mp h
      have hback := field_back field hchild
      obtain ⟨name, type, nullable, -, rfl, -⟩ := encodeField_eq_ok hchild
      exact list_back (Or.inl rfl) hback
    · next field hkind =>
      obtain rfl := kindOf_eq_some.mp hkind
      obtain ⟨child, hchild, rfl⟩ := except_map_eq_ok.mp h
      have hback := field_back field hchild
      obtain ⟨name, type, nullable, -, rfl, -⟩ := encodeField_eq_ok hchild
      exact list_back (Or.inr rfl) hback
    · next field length hkind =>
      obtain rfl := kindOf_eq_some.mp hkind
      obtain ⟨child, hchild, rfl⟩ := except_map_eq_ok.mp h
      have hback := field_back field hchild
      obtain ⟨name, type, nullable, -, rfl, -⟩ := encodeField_eq_ok hchild
      exact fixedList_back hback
    · next fields hkind =>
      obtain rfl := kindOf_eq_some.mp hkind
      obtain ⟨children, hchildren, rfl⟩ := except_map_eq_ok.mp h
      cases fields with
      | list fields => exact struct_back (fields_back fields hchildren)
      | _ => simp [decodeType, isType, typed, kindOf_atom, except_map_eq_ok, -bind_pure_comp]
    · cases h
  | .tuple [], _, h | .tuple (.int _ :: _), _, h | .tuple (.binary _ :: _), _, h | .tuple (.list _ :: _), _, h
  | .tuple (.tuple _ :: _), _, h | .tuple (.field _ _ _ :: _), _, h | .tuple (.map _ :: _), _, h
  | .tuple (.other _ _ _ :: _), _, h | .int _, _, h | .binary _, _, h | .list _, _, h | .field _ _ _, _, h
  | .map _, _, h | .other _ _ _, _, h => by cases h

theorem field_back : ∀ (field : SchemaTerm) {native : NativeFieldTerm}, encodeField field = .ok native →
    (decodeField native = .ok field ∧ validField field = true ↔ isField field = true)
  | .field name type nullable, native, h => by
    obtain ⟨dataType, htype, rfl⟩ := except_map_eq_ok.mp h
    have hback := type_back type htype
    cases name with
    | binary name =>
      simp only [decodeField, validField, isField, Bool.and_eq_true, ← hback]
      by_cases hnullable : nullable.isBoolean = true
      · simp only [hnullable, if_true, except_map_eq_ok, SchemaTerm.field.injEq, and_true, true_and, exists_eq_right]
        tauto
      · simp [hnullable]
    | _ => simp [decodeField, isField]
  | .atom _, _, h | .int _, _, h | .binary _, _, h | .list _, _, h | .tuple _, _, h | .map _, _, h
  | .other _ _ _, _, h => by cases h

theorem fields_back : ∀ (fields : List SchemaTerm) {natives : List NativeFieldTerm}, encodeFields fields = .ok natives →
    (decodeFields natives = .ok fields ∧ validFields fields = true ↔ areFields fields = true)
  | [], natives, h => by
    cases h
    simp [decodeFields, validFields, areFields]
  | field :: fields, natives, h => by
    obtain ⟨child, hchild, h⟩ := except_bind_eq_ok.mp h
    obtain ⟨children, hchildren, rfl⟩ := except_map_eq_ok.mp h
    have hhead := field_back field hchild
    have htail := fields_back fields hchildren
    simp only [decodeFields, validFields, areFields, Bool.and_eq_true, ← hhead, ← htail, except_bind_eq_ok, pure,
      Except.pure, Except.ok.injEq, List.cons.injEq]
    grind
end

/-! ## Descriptors -/

/-- The type that a public type stands for. -/
def meant (type : SchemaTerm) : SchemaTerm := (aliased type).getD type

/-- A name that is not empty, with a type and a nullability. -/
def named? (name type nullable : SchemaTerm) : Option (Binary × SchemaTerm × SchemaTerm) :=
  if nullable.isBoolean then (normalizePublicName name).toOption.map fun name => (name, type, nullable) else none

def namedEntries? (entries : List (SchemaTerm × SchemaTerm)) : Option (Binary × SchemaTerm × SchemaTerm) :=
  match SchemaTerm.entry? entries "name", SchemaTerm.entry? entries "type" with
  | some name, some type => named? name type ((SchemaTerm.entry? entries "nullable").getD (.atom "true"))
  | _, _ => none

/-- What a well-formed descriptor of a field says. -/
def descriptor? : SchemaTerm → Option (Binary × SchemaTerm × SchemaTerm)
  | .tuple [name, type] => named? name type (.atom "true")
  | .tuple [name, type, nullable] => named? name type nullable
  | .field name type nullable => named? name type nullable
  | .map entries => namedEntries? entries
  | .other entries _ _ => namedEntries? entries
  | _ => none

/-- The descriptor is well formed and the encoder does this with its type. -/
def Encodes (descriptor : SchemaTerm) (outcome : Except Raise NativeTerm → Prop) : Prop :=
  ∃ name type nullable, descriptor? descriptor = some (name, type, nullable) ∧ outcome (encodeType (meant type))

/-- The descriptor becomes a field. -/
def Takes (descriptor : SchemaTerm) : Prop := Encodes descriptor fun encoded => ∃ native, encoded = .ok native

/-- The descriptor is malformed, or the encoder has no clause for its type. -/
def Refuses (descriptor : SchemaTerm) : Prop :=
  descriptor? descriptor = none ∨ Encodes descriptor fun encoded => encoded = .error .functionClause

/-- The type of the descriptor is a documented one. -/
def Documented (descriptor : SchemaTerm) : Prop :=
  ∃ name type nullable, descriptor? descriptor = some (name, type, nullable) ∧ isType (meant type) = true

/-! ## What becomes of a descriptor -/

section
variable {field : SchemaTerm} {child : NativeFieldTerm} (hchild : encodeField field = .ok child)
include hchild

theorem encodeType_list {kind : Kind} (hkind : kind = .list ∨ kind = .largeList) :
    encodeType (typed kind [field]) = .ok (.mk { kind } [child]) := by
  rcases hkind with rfl | rfl <;> (simp only [encodeType, typed, kindOf_atom, hchild]; rfl)

theorem encodeType_fixedList (length : SchemaTerm) :
    encodeType (typed .fixedList [field, length]) = .ok (.mk { kind := .fixedList, length } [child]) := by
  simp only [encodeType, typed, kindOf_atom, hchild]
  rfl

end

theorem encodeType_struct {fields : List SchemaTerm} {children : List NativeFieldTerm}
    (h : encodeFields fields = .ok children) :
    encodeType (typed .struct [.list fields]) = .ok (.mk { kind := .struct } children) := by
  simp only [encodeType, encodeChildren, typed, kindOf_atom, h]
  rfl

mutual
theorem type_encodes : ∀ type : SchemaTerm, isType type = true → ∃ native, encodeType type = .ok native
  | .atom name, h => by
    rw [isType] at h
    cases hkind : kindOf name with
    | none => simp [hkind] at h
    | some kind =>
      rw [hkind] at h
      have hplain : isPlain kind = true := h
      exact ⟨.mk { kind } [], by simp [encodeType, hkind, hplain]⟩
  | .tuple (.atom name :: args), h => by
    unfold isType at h
    split at h
    iterate 7
      · next hkind =>
        obtain rfl := kindOf_eq_some.mp hkind
        exact ⟨_, rfl⟩
    · next field hkind =>
      obtain rfl := kindOf_eq_some.mp hkind
      obtain ⟨child, hchild⟩ := field_encodes field h
      exact ⟨_, encodeType_list hchild (Or.inl rfl)⟩
    · next field hkind =>
      obtain rfl := kindOf_eq_some.mp hkind
      obtain ⟨child, hchild⟩ := field_encodes field h
      exact ⟨_, encodeType_list hchild (Or.inr rfl)⟩
    · next field length hkind =>
      obtain rfl := kindOf_eq_some.mp hkind
      obtain ⟨child, hchild⟩ := field_encodes field (Bool.and_eq_true_iff.mp h).1
      exact ⟨_, encodeType_fixedList hchild length⟩
    · next fields hkind =>
      obtain rfl := kindOf_eq_some.mp hkind
      simp only [Bool.and_eq_true] at h
      obtain ⟨children, hchildren⟩ := fields_encode fields h.1.2
      exact ⟨_, encodeType_struct hchildren⟩
    · cases h
  | .tuple [], h | .tuple (.int _ :: _), h | .tuple (.binary _ :: _), h | .tuple (.list _ :: _), h
  | .tuple (.tuple _ :: _), h | .tuple (.field _ _ _ :: _), h | .tuple (.map _ :: _), h
  | .tuple (.other _ _ _ :: _), h | .int _, h | .binary _, h | .list _, h | .field _ _ _, h
  | .map _, h | .other _ _ _, h => by cases h

theorem field_encodes : ∀ field : SchemaTerm, isField field = true → ∃ native, encodeField field = .ok native
  | .field (.binary name) type nullable, h => by
    simp only [isField, Bool.and_eq_true] at h
    obtain ⟨dataType, htype⟩ := type_encodes type h.2
    exact ⟨.mk (.binary name) nullable dataType, by simp only [encodeField, htype]; rfl⟩
  | .field (.atom _) _ _, h | .field (.int _) _ _, h | .field (.list _) _ _, h | .field (.tuple _) _ _, h
  | .field (.field _ _ _) _ _, h | .field (.map _) _ _, h | .field (.other _ _ _) _ _, h
  | .atom _, h | .int _, h | .binary _, h | .list _, h | .tuple _, h | .map _, h | .other _ _ _, h => by cases h

theorem fields_encode : ∀ fields : List SchemaTerm, areFields fields = true →
    ∃ natives, encodeFields fields = .ok natives
  | [], _ => ⟨[], rfl⟩
  | field :: fields, h => by
    rw [areFields, Bool.and_eq_true] at h
    obtain ⟨child, hchild⟩ := field_encodes field h.1
    obtain ⟨children, hchildren⟩ := fields_encode fields h.2
    exact ⟨child :: children, by rw [encodeFields, hchild, hchildren]; rfl⟩
end

/-- The constructor refuses the descriptors, or makes a schema of them that comes back from the native
boundary and that the writer takes if it has a field. -/
def Writable (fields : List SchemaTerm) : Prop :=
  (∃ error, new fields = .error (.error error)) ∨
  ∃ schema native, new fields = .ok schema ∧ toNative schema = .ok native ∧ fromNative native = .ok schema ∧
    (schema ≠ [] → nativeSchema schema = .ok native)

/-- A descriptor is refused before one raises, or two names are the same, or all types are documented. -/
def Sound (fields : List SchemaTerm) : Prop :=
  (∃ before field after, fields = before ++ field :: after ∧ (∀ earlier ∈ before, Takes earlier) ∧ Refuses field) ∨
  (∀ field ∈ fields, Takes field) ∧
    (¬ (fields.map fun field => (descriptor? field).map Prod.fst).Nodup ∨ ∀ field ∈ fields, Documented field)

end PublicSchema

end Parquex
