import Parquex.DatasetWriterSound
import Parquex.EventTimeSound

/-!
# Routed and stored timestamps

A row is routed by one conversion of its timestamp and stored by another. They
agree on integers, and on dates and times whose column has a timestamp type; what
else routes is handed to the native writer as it is, and refused there.
-/

namespace Parquex

/-- A term that the native writer takes for a field. -/
def AcceptedBy (field : SchemaField) (term : Term) : Prop :=
  ∃ native array, arrowField field = .ok native ∧ buildArray native [term] = .ok array

/-- The timestamps that a column stores as they are routed. -/
def KeepsRouted (timestamp : Term) (type : FieldType) : Prop :=
  match timestamp, type with
  | .int _, _ => True
  | .dateTime _, .flat (.timestamp _ _) => True
  | _, _ => False

section
variable {field : SchemaField} {flat : FlatType} {type : ScalarType} {integer : IntegerType}

theorem arrowField_eq (hflat : field.type = .flat flat) (htype : flat.arrow? = some type) :
    arrowField field = .ok (.mk field.name (.scalar type) field.nullable) := by
  obtain ⟨name, fieldType, nullable⟩ := field
  change fieldType = .flat flat at hflat
  rw [hflat, arrowField, arrowDataType, htype]
  rfl

theorem acceptedBy_int (hflat : field.type = .flat flat) (htype : flat.arrow? = some type)
    (hstorage : type.storage = .integer integer) {value : Int} (hvalue : integer.holds value = true) :
    AcceptedBy field (.int value) := by
  refine ⟨_, .flat type (.integers [some value]), arrowField_eq hflat htype, ?_⟩
  simp [buildArray, Field.dataType, makeBuilder, appendValue, Term.isNil, hstorage, Storage.empty, appendSlots,
    appendPrimitive, decodeOr, integer?, Term.int?, Option.filter, hvalue, bind, Except.bind, pure, Except.pure]

theorem isIntegerOf_of_accepted (hflat : field.type = .flat flat) (htype : flat.arrow? = some type)
    (hstorage : type.storage = .integer integer) {term : Term} (h : AcceptedBy field term) :
    term.isIntegerOf integer := by
  obtain ⟨native, array, hnative, harray⟩ := h
  rw [arrowField_flat hflat htype hnative] at harray
  exact buildArray_integer hstorage harray term List.mem_cons_self

end

namespace Dataset

variable (dataset : Dataset)

theorem encodeValue_routed_iff {timestamp : Term} {value : Int}
    (hencode : encodeTimestamp timestamp dataset.unit = .ok value) :
    Input.encodeValue timestamp dataset.field.type = .ok (.int value) ↔ KeepsRouted timestamp dataset.field.type := by
  rcases dataset.field_type with h | ⟨timezone, h⟩ <;> rw [h] <;>
    cases timestamp <;> simp_all [Input.encodeValue, KeepsRouted, encodeTimestamp]

theorem forTimestamp_inI64 {timestamp : Term} {value : Int} {partition : Partition}
    (hencode : encodeTimestamp timestamp dataset.unit = .ok value)
    (hroute : dataset.partition.forTimestamp timestamp = .ok partition) : inI64 value = true := by
  by_contra hwide
  have hraised := (dataset.partition.forTimestamp_eq_raised timestamp).mpr ⟨value, hencode, by simpa using hwide⟩
  rw [hroute] at hraised
  cases hraised

/-- What encoding keeps of a routed timestamp is the timestamp, or the integer it was routed by. -/
theorem accepted_iff_keeps {timestamp : Term} {value : Int} (hencode : encodeTimestamp timestamp dataset.unit = .ok value)
    (hvalue : inI64 value = true) :
    (∃ encoded, Input.encodeValue timestamp dataset.field.type = .ok encoded ∧ AcceptedBy dataset.field encoded) ↔
      KeepsRouted timestamp dataset.field.type := by
  obtain ⟨flat, type, hflat, htype, hstorage⟩ := DatasetWriter.field_integer dataset
  constructor
  · intro ⟨encoded, hencoded, haccepted⟩
    apply (dataset.encodeValue_routed_iff hencode).mp
    rcases DatasetWriter.encodeValue_timestamp dataset.field_type hencode hencoded with rfl | rfl
    · rcases isIntegerOf_of_accepted hflat htype hstorage haccepted with hnil | ⟨v, rfl, -⟩
      · cases encoded <;> first | cases hnil | cases hencode
      · cases hencode
        exact hencoded
    · exact hencoded
  · intro h
    exact ⟨.int value, (dataset.encodeValue_routed_iff hencode).mpr h, acceptedBy_int hflat htype hstorage hvalue⟩

/-- A routed timestamp is stored as it was routed, and taken by the native writer, exactly when its column keeps it. -/
theorem stored_as_routed_iff {timestamp : Term} {value : Int} {datetime : DateTime} {partition : Partition}
    (hnormal : dataset.partition.normalizeTimestamp timestamp = .ok (value, datetime))
    (hroute : dataset.partition.forTimestamp timestamp = .ok partition) :
    (Input.encodeValue timestamp dataset.field.type = .ok (.int value) ↔ KeepsRouted timestamp dataset.field.type) ∧
    ((∃ encoded, Input.encodeValue timestamp dataset.field.type = .ok encoded ∧ AcceptedBy dataset.field encoded) ↔
      KeepsRouted timestamp dataset.field.type) := by
  have hencode := dataset.partition.normalizeTimestamp_eq_ok hnormal
  exact ⟨dataset.encodeValue_routed_iff hencode,
    dataset.accepted_iff_keeps hencode (dataset.forTimestamp_inI64 hencode hroute)⟩

theorem stored_as_routed_epoch :
    (Input.encodeValue (.int 0) (clockDataset .second).field.type = .ok (.int 0) ↔
      KeepsRouted (.int 0) (clockDataset .second).field.type) ∧
    ((∃ encoded, Input.encodeValue (.int 0) (clockDataset .second).field.type = .ok encoded ∧
      AcceptedBy (clockDataset .second).field encoded) ↔ KeepsRouted (.int 0) (clockDataset .second).field.type) := by
  have hroute : (clockDataset .second).partition.forTimestamp (.int 0) =
      .ok ⟨"year=1970/month=1/day=1/hour=0", ⟨0, 6⟩, ⟨3600000000, 6⟩⟩ := by decide
  exact stored_as_routed_iff (clockDataset .second) rfl hroute

/-- A date and time routes into a dataset of integers, whose native writer refuses it. -/
theorem datetime_routed_refused :
    ¬ ∀ (dataset : Dataset) (timestamp : Term) (value : Int) (datetime : DateTime) (partition : Partition),
      dataset.partition.normalizeTimestamp timestamp = .ok (value, datetime) →
      dataset.partition.forTimestamp timestamp = .ok partition →
      Input.encodeValue timestamp dataset.field.type = .ok (.int value) ∧
        ∃ encoded, Input.encodeValue timestamp dataset.field.type = .ok encoded ∧ AcceptedBy dataset.field encoded := by
  intro h
  have hroute : (clockDataset .second).partition.forTimestamp (.dateTime ⟨0, 0⟩) =
      .ok ⟨"year=1970/month=1/day=1/hour=0", ⟨0, 6⟩, ⟨3600000000, 6⟩⟩ := by decide
  have hstored := (h (clockDataset .second) (.dateTime ⟨0, 0⟩) 0 ⟨0, 0⟩ _ rfl hroute).1
  cases hstored

end Dataset

end Parquex
