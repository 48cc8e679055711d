import Parquex.NativeSchema
import Parquex.Fallible

/-!
# Round trip of a schema

A schema that the library writes comes back from the Arrow fields that the writer
makes of it: the reader makes the same descriptors of them as the library did.
-/

namespace Parquex

/-! ## Flat types -/

theorem decodeWhen_eq_ok {type type' : FlatType} {condition : Bool} (h : decodeWhen type condition = .ok type') :
    condition = true ∧ type' = type := by
  unfold decodeWhen at h
  split at h
  · exact ⟨by assumption, (Except.ok.inj h).symm⟩
  · cases h

namespace FlatType

variable {type type' : FlatType}

/-- The units of a time of day go with its width. -/
theorem decode_time {unit : TimeUnit} {bits : Nat} (h : (FlatType.time unit bits).encodeType.decodeFlat = .ok type') :
    type' = .time unit bits ∧ ((bits = 32 ∧ (unit = .second ∨ unit = .millisecond)) ∨
      (bits = 64 ∧ (unit = .microsecond ∨ unit = .nanosecond))) := by
  by_cases h32 : bits = 32
  · subst h32
    obtain ⟨hunit, rfl⟩ := decodeWhen_eq_ok h
    exact ⟨rfl, Or.inl ⟨rfl, by simpa using hunit⟩⟩
  · by_cases h64 : bits = 64
    · subst h64
      obtain ⟨hunit, rfl⟩ := decodeWhen_eq_ok h
      exact ⟨rfl, Or.inr ⟨rfl, by simpa using hunit⟩⟩
    · simp [encodeType, Descriptor.decodeFlat, h32, h64] at h

theorem decode_encode (h : type.encodeType.decodeFlat = .ok type') : type' = type := by
  cases type with
  | integer bits signed => exact (decodeWhen_eq_ok h).2
  | float bits => exact (decodeWhen_eq_ok h).2
  | fixedBinary length => exact (decodeWhen_eq_ok h).2
  | decimal bits precision scale => exact (decodeWhen_eq_ok h).2
  | time unit bits => exact (decode_time h).1
  | _ => exact (Except.ok.inj h).symm

/-- The reader gives back the descriptor that the writer was given. -/
theorem native_arrow (h : type.encodeType.decodeFlat = .ok type') :
    ∃ scalar, type.encodeType.arrowFlat = .ok scalar ∧ scalar.native = .ok type.encodeType := by
  cases type with
  | integer bits signed =>
    have hbits : bits = 8 ∨ bits = 16 ∨ bits = 32 ∨ bits = 64 := by simpa using (decodeWhen_eq_ok h).1
    rcases hbits with rfl | rfl | rfl | rfl <;> cases signed <;> exact ⟨_, rfl, rfl⟩
  | float bits =>
    have hbits : bits = 32 ∨ bits = 64 := by simpa using (decodeWhen_eq_ok h).1
    rcases hbits with rfl | rfl <;> exact ⟨_, rfl, rfl⟩
  | fixedBinary length =>
    have hlength : 0 < length := by simpa using (decodeWhen_eq_ok h).1
    exact ⟨_, rfl, if_pos hlength⟩
  | decimal bits precision scale =>
    have hbits : (bits = 32 ∨ bits = 64 ∨ bits = 128 ∨ bits = 256) ∧ 0 < precision := by
      simpa using (decodeWhen_eq_ok h).1
    rcases hbits.1 with rfl | rfl | rfl | rfl <;> exact ⟨_, rfl, rfl⟩
  | time unit bits =>
    rcases (decode_time h).2 with ⟨rfl, rfl | rfl⟩ | ⟨rfl, rfl | rfl⟩ <;> exact ⟨_, rfl, rfl⟩
  | _ => exact ⟨_, rfl, rfl⟩

/-- The numbers of a type are those of its native fields. -/
def fits : FlatType → Bool
  | .fixedBinary length => decide (-2 ^ 31 ≤ length ∧ length < 2 ^ 31)
  | .decimal _ precision scale => decide (precision < 2 ^ 8) && decide (-2 ^ 7 ≤ scale ∧ scale < 2 ^ 7)
  | _ => true

theorem fits_encode (h : type.encodeType.decodeFlat = .ok type') (hfits : type.fits = true) :
    type.encodeType.fits = true := by
  cases type with
  | integer bits signed =>
    have hbits : bits = 8 ∨ bits = 16 ∨ bits = 32 ∨ bits = 64 := by simpa using (decodeWhen_eq_ok h).1
    rcases hbits with rfl | rfl | rfl | rfl <;> rfl
  | float bits =>
    have hbits : bits = 32 ∨ bits = 64 := by simpa using (decodeWhen_eq_ok h).1
    rcases hbits with rfl | rfl <;> rfl
  | fixedBinary length => simpa [Descriptor.fits, encodeType, fits] using hfits
  | decimal bits precision scale =>
    have hbits : (bits = 32 ∨ bits = 64 ∨ bits = 128 ∨ bits = 256) ∧ 0 < precision := by
      simpa using (decodeWhen_eq_ok h).1
    rcases hbits.1 with rfl | rfl | rfl | rfl <;> simpa [Descriptor.fits, encodeType, fits] using hfits
  | time unit bits => rcases (decode_time h).2 with ⟨rfl, -⟩ | ⟨rfl, -⟩ <;> rfl
  | _ => rfl

end FlatType

/-! ## Nested types -/

mutual
def FieldType.fits : FieldType → Bool
  | .flat type => type.fits
  | .list field => field.fits
  | .largeList field => field.fits
  | .fixedList field length => field.fits && decide (-2 ^ 31 ≤ length ∧ length < 2 ^ 31)
  | .struct fields => fitsFields fields

def SchemaField.fits : SchemaField → Bool
  | .mk _ type _ => type.fits

def fitsFields : List SchemaField → Bool
  | [] => true
  | field :: fields => field.fits && fitsFields fields
end

/-- The lengths, precisions and scales of the schema are words of the native fields. -/
def Schema.fits (schema : Schema) : Bool := fitsFields schema.fields

/-- Descriptors come back from the reader as the writer was given them. -/
def ComesBack {α β : Type} (arrow : Except NativeFailure α) (native : α → Except NativeFailure β) (given : β) : Prop :=
  ∃ a, arrow = .ok a ∧ native a = .ok given

/-- A child with its descriptor, for a type around it. -/
theorem decode_child {child : NativeField} (wrap : SchemaField → FieldType) {type' : FieldType}
    (h : (decodeField child >>= fun field => pure (wrap field)) = .ok type') :
    ∃ field, decodeField child = .ok field ∧ type' = wrap field := by
  obtain ⟨field, hfield, hwrap⟩ := except_map_eq_ok.mp h
  exact ⟨field, hfield, hwrap.symm⟩

theorem decodeType_flat (type : FlatType) : decodeType (FieldType.flat type).encodeType =
    type.encodeType.decodeFlat >>= fun type => pure (FieldType.flat type) := by
  cases type <;> rfl

theorem arrowDataType_flat (type : FlatType) : (FieldType.flat type).encodeType.arrowDataType =
    type.encodeType.arrowFlat >>= fun type => pure (DataType.scalar type) := by
  cases type <;> rfl

mutual
theorem FieldType.comesBack : ∀ (type : FieldType) {type' : FieldType}, decodeType type.encodeType = .ok type' →
    type' = type ∧ ComesBack type.encodeType.arrowDataType nativeDataType type.encodeType ∧
      (type.fits = true → type.encodeType.fits = true)
  | .flat type, type', h => by
    obtain ⟨flat, hflat, rfl⟩ := except_map_eq_ok.mp ((decodeType_flat type).symm.trans h)
    obtain ⟨scalar, harrow, hnative⟩ := FlatType.native_arrow hflat
    refine ⟨congrArg _ (FlatType.decode_encode hflat), ⟨.scalar scalar, ?_, ?_⟩, fun hfits => ?_⟩
    · rw [arrowDataType_flat, harrow]
      rfl
    · rw [nativeDataType, hnative]
      rfl
    · rw [FieldType.encodeType, NativeDataType.fits, fitsAll, Bool.and_true]
      exact FlatType.fits_encode hflat hfits
  | .list field, type', h => by
    obtain ⟨_, hfield, rfl⟩ := decode_child .list h
    obtain ⟨rfl, ⟨arrow, harrow, hnative⟩, hfits⟩ := SchemaField.comesBack field hfield
    refine ⟨rfl, ⟨.list arrow, ?_, ?_⟩, fun hf => ?_⟩
    · change (_ >>= fun field => pure (DataType.list field)) = _
      rw [harrow]
      rfl
    · rw [nativeDataType, hnative]
      rfl
    · rw [FieldType.encodeType, NativeDataType.fits, fitsAll, fitsAll, hfits hf]
      rfl
  | .largeList field, type', h => by
    obtain ⟨_, hfield, rfl⟩ := decode_child .largeList h
    obtain ⟨rfl, ⟨arrow, harrow, hnative⟩, hfits⟩ := SchemaField.comesBack field hfield
    refine ⟨rfl, ⟨.largeList arrow, ?_, ?_⟩, fun hf => ?_⟩
    · change (_ >>= fun field => pure (DataType.largeList field)) = _
      rw [harrow]
      rfl
    · rw [nativeDataType, hnative]
      rfl
    · rw [FieldType.encodeType, NativeDataType.fits, fitsAll, fitsAll, hfits hf]
      rfl
  | .fixedList field length, type', h => by
    change (if 0 < length then _ else _) = _ at h
    by_cases hlength : 0 < length
    · rw [if_pos hlength] at h
      obtain ⟨_, hfield, rfl⟩ := decode_child (fun field => .fixedList field length) h
      obtain ⟨rfl, ⟨arrow, harrow, hnative⟩, hfits⟩ := SchemaField.comesBack field hfield
      refine ⟨rfl, ⟨.fixedSizeList arrow length, ?_, ?_⟩, fun hf => ?_⟩
      · change (_ >>= fun field => pure (DataType.fixedSizeList field length)) = _
        rw [harrow]
        rfl
      · rw [nativeDataType, if_pos hlength, hnative]
        rfl
      · rw [FieldType.fits, Bool.and_eq_true] at hf
        rw [FieldType.encodeType, NativeDataType.fits, fitsAll, fitsAll, hfits hf.1]
        simpa [Descriptor.fits] using hf.2
    · rw [if_neg hlength] at h
      cases h
  | .struct fields, type', h => by
    change (_ >>= fun fields => pure (FieldType.struct fields)) = _ at h
    obtain ⟨_, hfields, rfl⟩ := except_map_eq_ok.mp h
    obtain ⟨rfl, ⟨arrows, harrows, hnatives⟩, hfits⟩ := fields_comeBack fields hfields
    refine ⟨rfl, ⟨.struct arrows, ?_, ?_⟩, fun hf => ?_⟩
    · change (_ >>= fun fields => pure (DataType.struct fields)) = _
      rw [harrows]
      rfl
    · rw [nativeDataType, hnatives]
      rfl
    · rw [FieldType.encodeType, NativeDataType.fits, hfits hf]
      rfl

theorem SchemaField.comesBack : ∀ (field : SchemaField) {field' : SchemaField},
    decodeField field.encodeField = .ok field' →
      field' = field ∧ ComesBack field.encodeField.arrowField nativeField field.encodeField ∧
        (field.fits = true → field.encodeField.fits = true)
  | .mk name type nullable, field', h => by
    obtain ⟨type', htype, rfl⟩ := except_map_eq_ok.mp h
    obtain ⟨rfl, ⟨arrow, harrow, hnative⟩, hfits⟩ := FieldType.comesBack type htype
    refine ⟨rfl, ⟨.mk name arrow nullable, ?_, ?_⟩, hfits⟩
    · rw [SchemaField.encodeField, NativeField.arrowField, harrow]
      rfl
    · rw [nativeField, hnative]
      rfl

theorem fields_comeBack : ∀ (fields : List SchemaField) {fields' : List SchemaField},
    decodeFields (encodeFields fields) = .ok fields' →
      fields' = fields ∧ ComesBack (arrowChildren (encodeFields fields)) nativeFields (encodeFields fields) ∧
        (fitsFields fields = true → fitsAll (encodeFields fields) = true)
  | [], fields', h => ⟨(Except.ok.inj h).symm, ⟨[], rfl, rfl⟩, fun _ => rfl⟩
  | field :: fields, fields', h => by
    rw [encodeFields, decodeFields] at h
    obtain ⟨head, hhead, hrest⟩ := except_bind_eq_ok.mp h
    obtain ⟨tail, htail, rfl⟩ := except_map_eq_ok.mp hrest
    obtain ⟨rfl, ⟨arrow, harrow, hnative⟩, hfits⟩ := SchemaField.comesBack field hhead
    obtain ⟨rfl, ⟨arrows, harrows, hnatives⟩, hfits'⟩ := fields_comeBack fields htail
    refine ⟨rfl, ⟨arrow :: arrows, ?_, ?_⟩, fun hf => ?_⟩
    · rw [encodeFields, arrowChildren, harrow]
      simp only [harrows, bind, Except.bind, pure, Except.pure]
    · rw [nativeFields, hnative]
      simp only [hnatives, bind, Except.bind, pure, Except.pure]
      rw [encodeFields]
    · rw [fitsFields, Bool.and_eq_true] at hf
      rw [encodeFields, fitsAll, hfits hf.1, hfits' hf.2]
      rfl
end

/-! ## The Arrow fields of a schema -/

theorem arrowFlat_encodeType (type : FlatType) :
    type.encodeType.arrowFlat = type.arrow?.elim (.error unsupportedType) .ok := by
  cases type with
  | integer bits signed =>
    by_cases hbits : bits = 8 ∨ bits = 16 ∨ bits = 32 ∨ bits = 64
    · rcases hbits with rfl | rfl | rfl | rfl <;> cases signed <;> rfl
    · simp only [not_or] at hbits
      cases signed <;> simp [FlatType.encodeType, Descriptor.arrowFlat, FlatType.arrow?, hbits]
  | float bits =>
    by_cases hbits : bits = 32 ∨ bits = 64
    · rcases hbits with rfl | rfl <;> rfl
    · simp only [not_or] at hbits
      simp [FlatType.encodeType, Descriptor.arrowFlat, FlatType.arrow?, hbits]
  | decimal bits precision scale =>
    by_cases hbits : bits = 32 ∨ bits = 64 ∨ bits = 128 ∨ bits = 256
    · rcases hbits with rfl | rfl | rfl | rfl <;> rfl
    · simp only [not_or] at hbits
      simp [FlatType.encodeType, Descriptor.arrowFlat, FlatType.arrow?, hbits]
  | time unit bits =>
    by_cases hbits : bits = 32 ∨ bits = 64
    · rcases hbits with rfl | rfl <;> cases unit <;> rfl
    · simp only [not_or] at hbits
      cases unit <;> simp [FlatType.encodeType, Descriptor.arrowFlat, FlatType.arrow?, hbits]
  | _ => rfl

mutual
/-- The writer makes of the descriptors what it makes of the type. -/
theorem arrowDataType_encodeType : ∀ type : FieldType, type.encodeType.arrowDataType = arrowDataType type
  | .flat type => by
    rw [arrowDataType_flat, arrowFlat_encodeType, arrowDataType]
    cases type.arrow? <;> rfl
  | .list field => by
    rw [arrowDataType, ← arrowField_encodeField field]
    rfl
  | .largeList field => by
    rw [arrowDataType, ← arrowField_encodeField field]
    rfl
  | .fixedList field length => by
    rw [arrowDataType, ← arrowField_encodeField field]
    rfl
  | .struct fields => by
    rw [arrowDataType, ← arrowChildren_encodeFields fields]
    rfl

theorem arrowField_encodeField : ∀ field : SchemaField, field.encodeField.arrowField = arrowField field
  | .mk name type nullable => by
    rw [arrowField, ← arrowDataType_encodeType type]
    rfl

theorem arrowChildren_encodeFields : ∀ fields : List SchemaField,
    arrowChildren (encodeFields fields) = arrowFields fields
  | [] => rfl
  | field :: fields => by
    rw [arrowFields, ← arrowField_encodeField field, ← arrowChildren_encodeFields fields]
    rfl
end

/-! ## Round trip -/

theorem nativeSchema_eq_ok {schema : Schema} {native : List NativeField} (h : nativeSchema schema = .ok native) :
    native = schema.toNative ∧ ∃ schema', Schema.fromNative schema.toNative = .ok schema' := by
  unfold nativeSchema at h
  cases hfrom : Schema.fromNative schema.toNative with
  | ok schema' =>
    rw [hfrom] at h
    simp only at h
    split at h
    · exact ⟨(Except.ok.inj h).symm, schema', rfl⟩
    · cases h
  | error failure => simp [hfrom] at h

/-- A schema that the library writes is read back as it is. -/
theorem schema_round_trip {schema : Schema} {native : List NativeField} (haccepted : nativeSchema schema = .ok native)
    (hfits : schema.fits = true) :
    ∃ input fields output, decodeInput native = some input ∧ arrowChildren input = .ok fields ∧
      nativeFields fields = .ok output ∧ Schema.fromNative output = .ok schema := by
  obtain ⟨rfl, schema', hfrom⟩ := nativeSchema_eq_ok haccepted
  obtain ⟨fields', hfields, -⟩ := except_map_eq_ok.mp hfrom
  obtain ⟨rfl, ⟨arrows, harrows, hnatives⟩, hall⟩ := fields_comeBack schema.fields hfields
  refine ⟨schema.toNative, arrows, schema.toNative, if_pos (hall hfits), harrows, hnatives, ?_⟩
  unfold Schema.fromNative
  rw [hfields]
  rfl

/-- Events with an optional amount and a list of points of time. -/
def eventSchema : Schema where
  fields := [
    .mk "id" (.flat (.integer 64 true)) false,
    .mk "amount" (.flat (.decimal 128 38 (-2))) true,
    .mk "points" (.list (.mk "item" (.struct [
      .mk "at" (.flat (.timestamp .nanosecond (some "UTC"))) false,
      .mk "code" (.fixedList (.mk "byte" (.flat (.fixedBinary 4)) true) 3) true]) true)) true]

theorem nativeSchema_eventSchema : nativeSchema eventSchema = .ok eventSchema.toNative := by
  unfold nativeSchema
  exact if_pos (by decide)

theorem schema_round_trip_events :
    ∃ input fields output, decodeInput eventSchema.toNative = some input ∧ arrowChildren input = .ok fields ∧
      nativeFields fields = .ok output ∧ Schema.fromNative output = .ok eventSchema :=
  schema_round_trip nativeSchema_eventSchema (by decide)

end Parquex
