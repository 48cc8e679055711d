import Parquex.EventTime
import Parquex.Fallible
import Parquex.ObjectKey
import Parquex.Schema

/-!
# Datasets

A prefix below a store, a schema and the time partition of its rows. The prefix
ends in a slash and the partition column holds timestamps of the configured unit.
-/

namespace Parquex

def datasetError (message : String) : Error := .invalid "dataset" message

def validateTimestampField (type : FieldType) (unit : TimeUnit) : Except Error Unit :=
  match type with
  | .flat (.integer 64 true) => .ok ()
  | .flat (.timestamp fieldUnit _) =>
    if fieldUnit = unit then .ok () else .error (datasetError "timestamp_unit must match the timestamp schema field")
  | _ => .error (datasetError "time partition column must be a signed 64-bit integer or timestamp")

theorem normalizePrefix_eq_ok {text prefix' : String} (h : normalizePrefix text false = .ok prefix') :
    ∃ key, AcceptedKey key ∧ prefix' = key ++ "/" := by
  unfold normalizePrefix at h
  by_cases ht : text = ""
  · rw [if_pos ht, if_neg (by simp)] at h
    cases h
  · rw [if_neg ht] at h
    obtain ⟨key, hk, he⟩ := except_map_eq_ok.mp h
    obtain ⟨hkey, ha⟩ := normalizeKey_eq_ok hk
    exact ⟨key, hkey ▸ ha, he.symm⟩

structure Dataset where
  prefix' : String
  schema : Schema
  partition : TimePartition
  field : SchemaField
  prefixAccepted : ∃ key, AcceptedKey key ∧ prefix' = key ++ "/"
  fieldFound : schema.field partition.column = some field
  fieldValid : validateTimestampField field.type partition.timestampUnit = .ok ()

namespace Dataset

variable (dataset : Dataset)

def column : String := dataset.partition.column

def unit : TimeUnit := dataset.partition.timestampUnit

def new (text : String) (schema : Schema) (partition : TimePartition) : Except Error Dataset :=
  match hprefix : normalizePrefix text false with
  | .error error => .error error
  | .ok prefix' =>
    match hfield : schema.field partition.column with
    | none => .error (datasetError "time partition column is absent from the dataset schema")
    | some field =>
      match hvalid : validateTimestampField field.type partition.timestampUnit with
      | .error error => .error error
      | .ok _ => .ok {
          prefix', schema, partition, field
          prefixAccepted := normalizePrefix_eq_ok hprefix
          fieldFound := hfield
          fieldValid := hvalid }

/-- The partition of an encoded timestamp. -/
def partitionOf (timestamp : Int) : Except NativeFailure NativePartition :=
  partitionFor timestamp dataset.unit dataset.partition.granularity

theorem field_mem : dataset.field ∈ dataset.schema.fields := List.mem_of_find?_eq_some dataset.fieldFound

theorem field_name : dataset.field.name = dataset.column := by
  have h := List.find?_some dataset.fieldFound
  exact eq_of_beq h

theorem column_mem : dataset.column ∈ dataset.schema.names := by
  rw [← dataset.field_name]
  exact List.mem_map_of_mem dataset.field_mem

theorem names_ne_nil : dataset.schema.names ≠ [] := List.ne_nil_of_mem dataset.column_mem

/-- The partition column has one of two types. -/
theorem field_type : dataset.field.type = .flat (.integer 64 true) ∨
    ∃ timezone, dataset.field.type = .flat (.timestamp dataset.unit timezone) := by
  have h := dataset.fieldValid
  unfold validateTimestampField at h
  split at h
  · exact Or.inl ‹_›
  · rename_i fieldUnit timezone ht
    by_cases hu : fieldUnit = dataset.partition.timestampUnit
    · refine Or.inr ⟨timezone, ?_⟩
      rw [ht, hu]
      rfl
    · rw [if_neg hu] at h
      cases h
  · cases h

end Dataset

/-- One column of timestamps, partitioned by the hour. -/
def clockDataset (unit : TimeUnit) : Dataset where
  prefix' := "events/"
  schema := { fields := [.mk "at" (.flat (.integer 64 true)) false] }
  partition := { column := "at", granularity := .hour, timestampUnit := unit }
  field := .mk "at" (.flat (.integer 64 true)) false
  prefixAccepted := ⟨"events", by decide, rfl⟩
  fieldFound := rfl
  fieldValid := rfl

end Parquex
