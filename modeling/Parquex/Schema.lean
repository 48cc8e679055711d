import Parquex.Arrow

/-!
# Schemas

The ordered fields of a batch stream under the library's type descriptors, and
the Arrow fields that the native writer makes of them.
-/

namespace Parquex

inductive FlatType
  | boolean | utf8 | binary | date32 | date64 | null
  | integer (bits : Nat) (signed : Bool)
  | float (bits : Nat)
  | fixedBinary (length : Int)
  | time (unit : TimeUnit) (bits : Nat)
  | timestamp (unit : TimeUnit) (timezone : Option String)
  | duration (unit : TimeUnit)
  | decimal (bits : Nat) (precision : Nat) (scale : Int)
  deriving DecidableEq, Repr

mutual
inductive FieldType
  | flat (type : FlatType)
  | list (field : SchemaField)
  | largeList (field : SchemaField)
  | fixedList (field : SchemaField) (length : Int)
  | struct (fields : List SchemaField)

inductive SchemaField
  | mk (name : String) (type : FieldType) (nullable : Bool)
end

namespace SchemaField

def name : SchemaField → String
  | .mk name _ _ => name

def type : SchemaField → FieldType
  | .mk _ type _ => type

def nullable : SchemaField → Bool
  | .mk _ _ nullable => nullable

end SchemaField

structure Schema where
  fields : List SchemaField

namespace Schema

def names (schema : Schema) : List String := schema.fields.map SchemaField.name

def field (schema : Schema) (name : String) : Option SchemaField :=
  schema.fields.find? fun field => field.name == name

end Schema

/-! ## Equality of schemas -/

mutual
def FieldType.beq : FieldType → FieldType → Bool
  | .flat type, .flat type' => type == type'
  | .list field, .list field' => field.beq field'
  | .largeList field, .largeList field' => field.beq field'
  | .fixedList field length, .fixedList field' length' => field.beq field' && length == length'
  | .struct fields, .struct fields' => beqFields fields fields'
  | _, _ => false

def SchemaField.beq : SchemaField → SchemaField → Bool
  | .mk name type nullable, .mk name' type' nullable' => name == name' && type.beq type' && nullable == nullable'

def beqFields : List SchemaField → List SchemaField → Bool
  | [], [] => true
  | field :: fields, field' :: fields' => field.beq field' && beqFields fields fields'
  | _, _ => false
end

def Schema.beq (schema schema' : Schema) : Bool := beqFields schema.fields schema'.fields

mutual
theorem FieldType.beq_self : ∀ type : FieldType, type.beq type = true
  | .flat type => by simp [FieldType.beq]
  | .list field => by simp [FieldType.beq, field.beq_self]
  | .largeList field => by simp [FieldType.beq, field.beq_self]
  | .fixedList field length => by simp [FieldType.beq, field.beq_self]
  | .struct fields => by simp [FieldType.beq, beqFields_self fields]

theorem SchemaField.beq_self : ∀ field : SchemaField, field.beq field = true
  | .mk name type nullable => by simp [SchemaField.beq, type.beq_self]

theorem beqFields_self : ∀ fields : List SchemaField, beqFields fields fields = true
  | [] => by simp [beqFields]
  | field :: fields => by simp [beqFields, field.beq_self, beqFields_self fields]
end

/-! ## Arrow types -/

def unsupportedType : NativeFailure :=
  .new .unsupported .parquetWriterOpen "schema contains an unsupported write type"

def FlatType.arrow? : FlatType → Option ScalarType
  | .boolean => some .boolean
  | .utf8 => some .utf8
  | .binary => some .binary
  | .date32 => some .date32
  | .date64 => some .date64
  | .null => some .null
  | .integer 8 true => some (.integer .int8)
  | .integer 16 true => some (.integer .int16)
  | .integer 32 true => some (.integer .int32)
  | .integer 64 true => some (.integer .int64)
  | .integer 8 false => some (.integer .uint8)
  | .integer 16 false => some (.integer .uint16)
  | .integer 32 false => some (.integer .uint32)
  | .integer 64 false => some (.integer .uint64)
  | .float 32 => some .float32
  | .float 64 => some .float64
  | .fixedBinary length => some (.fixedSizeBinary length)
  | .time .second 32 => some (.time32 .second)
  | .time .millisecond 32 => some (.time32 .millisecond)
  | .time .microsecond 64 => some (.time64 .microsecond)
  | .time .nanosecond 64 => some (.time64 .nanosecond)
  | .timestamp unit timezone => some (.timestamp unit timezone)
  | .duration unit => some (.duration unit)
  | .decimal 32 precision scale => some (.decimal32 precision scale)
  | .decimal 64 precision scale => some (.decimal64 precision scale)
  | .decimal 128 precision scale => some (.decimal128 precision scale)
  | .decimal 256 precision scale => some (.decimal256 precision scale)
  | _ => none

mutual
def arrowDataType : FieldType → Except NativeFailure DataType
  | .flat type =>
    match type.arrow? with
    | some type => .ok (.scalar type)
    | none => .error unsupportedType
  | .list field => do
    let field ← arrowField field
    return .list field
  | .largeList field => do
    let field ← arrowField field
    return .largeList field
  | .fixedList field length => do
    let field ← arrowField field
    return .fixedSizeList field length
  | .struct fields => do
    let fields ← arrowFields fields
    return .struct fields

def arrowField : SchemaField → Except NativeFailure Field
  | .mk name type nullable => do
    let dataType ← arrowDataType type
    return .mk name dataType nullable

def arrowFields : List SchemaField → Except NativeFailure (List Field)
  | [] => .ok []
  | field :: fields => do
    let field ← arrowField field
    let fields ← arrowFields fields
    return field :: fields
end

end Parquex
