import Parquex.Schema
import Parquex.NativeFailure

/-!
# Schemas at the native boundary

A schema crosses the boundary as a tree of descriptors. The library encodes and
decodes them, the writer makes Arrow fields of them and the reader makes them of
Arrow fields.
-/

namespace Parquex

/-! ## Descriptors -/

inductive Kind
  | null | boolean | integer | float | utf8 | binary | fixedBinary | date32 | date64 | time | timestamp | duration
  | decimal | list | largeList | fixedList | struct
  deriving DecidableEq, Repr

/-- The entries of a descriptor, of which a kind sets its own. -/
structure Descriptor where
  kind : Kind
  bitWidth : Option Nat := none
  signed : Option Bool := none
  unit : Option TimeUnit := none
  timezone : Option String := none
  precision : Option Nat := none
  scale : Option Int := none
  length : Option Int := none
  deriving DecidableEq, Repr

mutual
inductive NativeDataType
  | mk (descriptor : Descriptor) (children : List NativeField)

inductive NativeField
  | mk (name : String) (dataType : NativeDataType) (nullable : Bool)
end

/-! ## The library encodes -/

def FlatType.encodeType : FlatType → Descriptor
  | .boolean => { kind := .boolean }
  | .utf8 => { kind := .utf8 }
  | .binary => { kind := .binary }
  | .date32 => { kind := .date32 }
  | .date64 => { kind := .date64 }
  | .null => { kind := .null }
  | .integer bits signed => { kind := .integer, bitWidth := bits, signed }
  | .float bits => { kind := .float, bitWidth := bits }
  | .fixedBinary length => { kind := .fixedBinary, length }
  | .time unit bits => { kind := .time, unit, bitWidth := bits }
  | .timestamp unit timezone => { kind := .timestamp, unit, timezone }
  | .duration unit => { kind := .duration, unit }
  | .decimal bits precision scale => { kind := .decimal, bitWidth := bits, precision, scale }

mutual
def FieldType.encodeType : FieldType → NativeDataType
  | .flat type => .mk type.encodeType []
  | .list field => .mk { kind := .list } [field.encodeField]
  | .largeList field => .mk { kind := .largeList } [field.encodeField]
  | .fixedList field length => .mk { kind := .fixedList, length } [field.encodeField]
  | .struct fields => .mk { kind := .struct } (encodeFields fields)

def SchemaField.encodeField : SchemaField → NativeField
  | .mk name type nullable => .mk name type.encodeType nullable

def encodeFields : List SchemaField → List NativeField
  | [] => []
  | field :: fields => field.encodeField :: encodeFields fields
end

def Schema.toNative (schema : Schema) : List NativeField := encodeFields schema.fields

/-! ## The library decodes -/

def invalidSchema : Error where
  category := .nativeFailure
  operation := "schema_translation"
  message := "native boundary returned an invalid schema"

def decodeWhen (type : FlatType) (condition : Bool) : Except Error FlatType :=
  if condition then .ok type else .error invalidSchema

def Descriptor.decodeFlat (d : Descriptor) : Except Error FlatType :=
  match d.kind, d.bitWidth, d.signed, d.unit, d.precision, d.scale, d.length with
  | .boolean, _, _, _, _, _, _ => .ok .boolean
  | .utf8, _, _, _, _, _, _ => .ok .utf8
  | .binary, _, _, _, _, _, _ => .ok .binary
  | .date32, _, _, _, _, _, _ => .ok .date32
  | .date64, _, _, _, _, _, _ => .ok .date64
  | .null, _, _, _, _, _, _ => .ok .null
  | .integer, some bits, some signed, _, _, _, _ => decodeWhen (.integer bits signed) ([8, 16, 32, 64].contains bits)
  | .float, some bits, _, _, _, _, _ => decodeWhen (.float bits) ([32, 64].contains bits)
  | .fixedBinary, _, _, _, _, _, some length => decodeWhen (.fixedBinary length) (0 < length)
  | .time, some 32, _, some unit, _, _, _ => decodeWhen (.time unit 32) (unit == .second || unit == .millisecond)
  | .time, some 64, _, some unit, _, _, _ => decodeWhen (.time unit 64) (unit == .microsecond || unit == .nanosecond)
  | .timestamp, _, _, some unit, _, _, _ => .ok (.timestamp unit d.timezone)
  | .duration, _, _, some unit, _, _, _ => .ok (.duration unit)
  | .decimal, some bits, _, _, some precision, some scale, _ =>
    decodeWhen (.decimal bits precision scale) ([32, 64, 128, 256].contains bits && decide (0 < precision))
  | _, _, _, _, _, _, _ => .error invalidSchema

mutual
def decodeType : NativeDataType → Except Error FieldType
  | .mk d children =>
    match d.kind, children with
    | .list, [child] => do
      let field ← decodeField child
      return .list field
    | .largeList, [child] => do
      let field ← decodeField child
      return .largeList field
    | .fixedList, [child] =>
      match d.length with
      | some length =>
        if 0 < length then do
          let field ← decodeField child
          return .fixedList field length
        else .error invalidSchema
      | none => .error invalidSchema
    | .struct, children => do
      let fields ← decodeFields children
      return .struct fields
    | _, _ => do
      let type ← d.decodeFlat
      return .flat type

def decodeField : NativeField → Except Error SchemaField
  | .mk name dataType nullable => do
    let type ← decodeType dataType
    return .mk name type nullable

def decodeFields : List NativeField → Except Error (List SchemaField)
  | [] => .ok []
  | field :: fields => do
    let field ← decodeField field
    let fields ← decodeFields fields
    return field :: fields
end

def Schema.fromNative (fields : List NativeField) : Except Error Schema := do
  let fields ← decodeFields fields
  return { fields }

/-! ## Schemas that the library writes -/

mutual
def validFields : List SchemaField → Bool
  | [] => true
  | field :: fields => validField field && validFields fields

def validField : SchemaField → Bool
  | .mk name type _ => name != "" && validNestedType type

def validNestedType : FieldType → Bool
  | .flat _ => true
  | .list field | .largeList field | .fixedList field _ => validField field
  | .struct fields => !fields.isEmpty && validFields fields && decide (fields.map SchemaField.name).Nodup
end

/-- The descriptors of a schema that the writer takes, as they go to the native call. -/
def nativeSchema (schema : Schema) : Except Error (List NativeField) :=
  let valid := !schema.fields.isEmpty && validFields schema.fields && decide schema.names.Nodup
  let same :=
    match Schema.fromNative schema.toNative with
    | .ok schema' => schema.beq schema'
    | .error _ => false
  if valid && same then .ok schema.toNative
  else .error (.invalid "parquet_writer_open" "schema contains an invalid field or type")

/-! ## The writer makes Arrow fields -/

def Descriptor.fits (d : Descriptor) : Bool :=
  d.bitWidth.all (· < 2 ^ 16) && d.precision.all (· < 2 ^ 8) &&
    d.scale.all (fun scale => decide (-2 ^ 7 ≤ scale ∧ scale < 2 ^ 7)) &&
    d.length.all (fun length => decide (-2 ^ 31 ≤ length ∧ length < 2 ^ 31))

mutual
def NativeDataType.fits : NativeDataType → Bool
  | .mk d children => d.fits && fitsAll children

def NativeField.fits : NativeField → Bool
  | .mk _ dataType _ => dataType.fits

def fitsAll : List NativeField → Bool
  | [] => true
  | field :: fields => field.fits && fitsAll fields
end

/-- The native structs hold words of fixed widths. -/
def decodeInput (fields : List NativeField) : Option (List NativeField) := if fitsAll fields then some fields else none

def Descriptor.arrowFlat (d : Descriptor) : Except NativeFailure ScalarType :=
  match d.kind, d.bitWidth, d.signed, d.unit, d.precision, d.scale, d.length with
  | .null, _, _, _, _, _, _ => .ok .null
  | .boolean, _, _, _, _, _, _ => .ok .boolean
  | .integer, some 8, some true, _, _, _, _ => .ok (.integer .int8)
  | .integer, some 16, some true, _, _, _, _ => .ok (.integer .int16)
  | .integer, some 32, some true, _, _, _, _ => .ok (.integer .int32)
  | .integer, some 64, some true, _, _, _, _ => .ok (.integer .int64)
  | .integer, some 8, some false, _, _, _, _ => .ok (.integer .uint8)
  | .integer, some 16, some false, _, _, _, _ => .ok (.integer .uint16)
  | .integer, some 32, some false, _, _, _, _ => .ok (.integer .uint32)
  | .integer, some 64, some false, _, _, _, _ => .ok (.integer .uint64)
  | .float, some 32, _, _, _, _, _ => .ok .float32
  | .float, some 64, _, _, _, _, _ => .ok .float64
  | .utf8, _, _, _, _, _, _ => .ok .utf8
  | .binary, _, _, _, _, _, _ => .ok .binary
  | .fixedBinary, _, _, _, _, _, some length => .ok (.fixedSizeBinary length)
  | .date32, _, _, _, _, _, _ => .ok .date32
  | .date64, _, _, _, _, _, _ => .ok .date64
  | .time, some 32, _, some .second, _, _, _ => .ok (.time32 .second)
  | .time, some 32, _, some .millisecond, _, _, _ => .ok (.time32 .millisecond)
  | .time, some 64, _, some .microsecond, _, _, _ => .ok (.time64 .microsecond)
  | .time, some 64, _, some .nanosecond, _, _, _ => .ok (.time64 .nanosecond)
  | .timestamp, _, _, some unit, _, _, _ => .ok (.timestamp unit d.timezone)
  | .duration, _, _, some unit, _, _, _ => .ok (.duration unit)
  | .decimal, some 32, _, _, some precision, some scale, _ => .ok (.decimal32 precision scale)
  | .decimal, some 64, _, _, some precision, some scale, _ => .ok (.decimal64 precision scale)
  | .decimal, some 128, _, _, some precision, some scale, _ => .ok (.decimal128 precision scale)
  | .decimal, some 256, _, _, some precision, some scale, _ => .ok (.decimal256 precision scale)
  | _, _, _, _, _, _, _ => .error unsupportedType

mutual
def NativeDataType.arrowDataType : NativeDataType → Except NativeFailure DataType
  | .mk d children =>
    match d.kind, children with
    | .list, child :: _ => do
      let field ← child.arrowField
      return .list field
    | .largeList, child :: _ => do
      let field ← child.arrowField
      return .largeList field
    | .fixedList, child :: _ => do
      let field ← child.arrowField
      match d.length with
      | some length => return .fixedSizeList field length
      | none => throw unsupportedType
    | .struct, children => do
      let fields ← arrowChildren children
      return .struct fields
    | _, _ => do
      let type ← d.arrowFlat
      return .scalar type

def NativeField.arrowField : NativeField → Except NativeFailure Field
  | .mk name dataType nullable => do
    let dataType ← dataType.arrowDataType
    return .mk name dataType nullable

def arrowChildren : List NativeField → Except NativeFailure (List Field)
  | [] => .ok []
  | child :: children => do
    let field ← child.arrowField
    let fields ← arrowChildren children
    return field :: fields
end

/-! ## The reader makes descriptors -/

def unsupportedLogicalType : NativeFailure :=
  .new .unsupported .readerOpen "Parquet schema contains an unsupported logical type"

def integerType (bitWidth : Nat) (signed : Bool) : Descriptor := { kind := .integer, bitWidth, signed }

def floatType (bitWidth : Nat) : Descriptor := { kind := .float, bitWidth }

def timeType (unit : TimeUnit) (bitWidth : Nat) : Descriptor := { kind := .time, unit, bitWidth }

def decimalType (bitWidth precision : Nat) (scale : Int) : Descriptor :=
  { kind := .decimal, bitWidth, precision, scale }

def ScalarType.native : ScalarType → Except NativeFailure Descriptor
  | .null => .ok { kind := .null }
  | .boolean => .ok { kind := .boolean }
  | .integer .int8 => .ok (integerType 8 true)
  | .integer .int16 => .ok (integerType 16 true)
  | .integer .int32 => .ok (integerType 32 true)
  | .integer .int64 => .ok (integerType 64 true)
  | .integer .uint8 => .ok (integerType 8 false)
  | .integer .uint16 => .ok (integerType 16 false)
  | .integer .uint32 => .ok (integerType 32 false)
  | .integer .uint64 => .ok (integerType 64 false)
  | .float32 => .ok (floatType 32)
  | .float64 => .ok (floatType 64)
  | .utf8 | .largeUtf8 => .ok { kind := .utf8 }
  | .binary | .largeBinary => .ok { kind := .binary }
  | .fixedSizeBinary length =>
    if 0 < length then .ok { kind := .fixedBinary, length } else .error unsupportedLogicalType
  | .date32 => .ok { kind := .date32 }
  | .date64 => .ok { kind := .date64 }
  | .time32 .second => .ok (timeType .second 32)
  | .time32 .millisecond => .ok (timeType .millisecond 32)
  | .time64 .microsecond => .ok (timeType .microsecond 64)
  | .time64 .nanosecond => .ok (timeType .nanosecond 64)
  | .time32 _ | .time64 _ => .error unsupportedLogicalType
  | .timestamp unit timezone => .ok { kind := .timestamp, unit, timezone }
  | .duration unit => .ok { kind := .duration, unit }
  | .decimal32 precision scale => .ok (decimalType 32 precision scale)
  | .decimal64 precision scale => .ok (decimalType 64 precision scale)
  | .decimal128 precision scale => .ok (decimalType 128 precision scale)
  | .decimal256 precision scale => .ok (decimalType 256 precision scale)

mutual
def nativeDataType : DataType → Except NativeFailure NativeDataType
  | .scalar type => do
    let descriptor ← type.native
    return .mk descriptor []
  | .list field => do
    let child ← nativeField field
    return .mk { kind := .list } [child]
  | .largeList field => do
    let child ← nativeField field
    return .mk { kind := .largeList } [child]
  | .fixedSizeList field length =>
    if 0 < length then do
      let child ← nativeField field
      return .mk { kind := .fixedList, length } [child]
    else .error unsupportedLogicalType
  | .struct fields => do
    let children ← nativeFields fields
    return .mk { kind := .struct } children

def nativeField : Field → Except NativeFailure NativeField
  | .mk name dataType nullable => do
    let dataType ← nativeDataType dataType
    return .mk name dataType nullable

def nativeFields : List Field → Except NativeFailure (List NativeField)
  | [] => .ok []
  | field :: fields => do
    let child ← nativeField field
    let children ← nativeFields fields
    return child :: children
end

end Parquex
