import Parquex.TimePartition

/-!
# Arrow types, arrays and record batches

The column types of a Parquet file as the native library sees them, and arrays
of them. An array under construction and a finished one hold the same data, so
builders are arrays too.
-/

namespace Parquex

/-! ## Types -/

inductive IntegerType
  | int8 | int16 | int32 | int64 | uint8 | uint16 | uint32 | uint64
  deriving DecidableEq, Repr

namespace IntegerType

def lower : IntegerType → Int
  | .int8 => -128
  | .int16 => -32768
  | .int32 => -2147483648
  | .int64 => -9223372036854775808
  | _ => 0

def upper : IntegerType → Int
  | .int8 => 127
  | .int16 => 32767
  | .int32 => 2147483647
  | .int64 => 9223372036854775807
  | .uint8 => 255
  | .uint16 => 65535
  | .uint32 => 4294967295
  | .uint64 => 18446744073709551615

def holds (type : IntegerType) (value : Int) : Bool := decide (type.lower ≤ value) && decide (value ≤ type.upper)

end IntegerType

inductive ScalarType
  | null
  | boolean
  | integer (type : IntegerType)
  | float32
  | float64
  | utf8
  | largeUtf8
  | binary
  | largeBinary
  | fixedSizeBinary (length : Int)
  | date32
  | date64
  | time32 (unit : TimeUnit)
  | time64 (unit : TimeUnit)
  | timestamp (unit : TimeUnit) (timezone : Option String)
  | duration (unit : TimeUnit)
  | decimal32 (precision : Nat) (scale : Int)
  | decimal64 (precision : Nat) (scale : Int)
  | decimal128 (precision : Nat) (scale : Int)
  | decimal256 (precision : Nat) (scale : Int)
  deriving DecidableEq, Repr

mutual
inductive DataType
  | scalar (type : ScalarType)
  | list (field : Field)
  | largeList (field : Field)
  | fixedSizeList (field : Field) (length : Int)
  | struct (fields : List Field)

inductive Field
  | mk (name : String) (dataType : DataType) (nullable : Bool)
end

namespace Field

def name : Field → String
  | .mk name _ _ => name

def dataType : Field → DataType
  | .mk _ dataType _ => dataType

def isNullable : Field → Bool
  | .mk _ _ nullable => nullable

end Field

/-! ## Values -/

/-- A double without the sign of zero. -/
inductive Double
  | finite (value : Rat)
  | infinite (negative : Bool)
  | nan
  deriving DecidableEq, Repr

namespace Double

def lt : Double → Double → Bool
  | .finite v, .finite w => decide (v < w)
  | .finite _, .infinite negative => !negative
  | .infinite negative, .finite _ => negative
  | .infinite v, .infinite w => v && !w
  | _, _ => false

def eq : Double → Double → Bool
  | .finite v, .finite w => decide (v = w)
  | .infinite v, .infinite w => v == w
  | _, _ => false

end Double

/-- Bytes that are no text. -/
structure RawBytes where
  bytes : ByteArray
  invalid : ¬bytes.IsValidUTF8

instance : DecidableEq RawBytes := fun a b =>
  @decidable_of_decidable_of_iff _ _ (ByteArray.instDecidableEq a.bytes b.bytes)
    ⟨fun h => by cases a; cases b; cases h; rfl, congrArg RawBytes.bytes⟩

/-- A byte string, told apart by whether it is valid UTF-8. -/
inductive Binary
  | text (value : String)
  | raw (value : RawBytes)
  deriving DecidableEq

namespace Binary

def size : Binary → Nat
  | .text value => value.utf8ByteSize
  | .raw value => value.bytes.size

end Binary

/-! ## Arrays -/

/-- The slots of a flat array. -/
inductive Slots
  | nulls (length : Nat)
  | booleans (values : List (Option Bool))
  | integers (values : List (Option Int))
  | floats (values : List (Option Double))
  | strings (values : List (Option String))
  | binaries (values : List (Option Binary))
  deriving DecidableEq

def Slots.length : Slots → Nat
  | .nulls length => length
  | .booleans values => values.length
  | .integers values => values.length
  | .floats values => values.length
  | .strings values => values.length
  | .binaries values => values.length

inductive ArrowArray
  | flat (type : ScalarType) (slots : Slots)
  | list (large : Bool) (item : Field) (offsets : List Nat) (valid : List Bool) (values : ArrowArray)
  | fixedSizeList (item : Field) (listLength : Int) (valid : List Bool) (values : ArrowArray)
  | struct (fields : List Field) (valid : List Bool) (columns : List ArrowArray)

namespace ArrowArray

def length : ArrowArray → Nat
  | .flat _ slots => slots.length
  | .list _ _ _ valid _ => valid.length
  | .fixedSizeList _ _ valid _ => valid.length
  | .struct _ valid _ => valid.length

end ArrowArray

structure RecordBatch where
  schema : List Field
  columns : List ArrowArray
  numRows : Nat

/-- `try_new`: at least one column, and columns of one length. -/
def RecordBatch.tryNew (schema : List Field) (columns : List ArrowArray) : Option RecordBatch :=
  match columns with
  | [] => none
  | column :: rest =>
    if schema.length = columns.length ∧ rest.all (fun c => c.length == column.length) then
      some { schema, columns, numRows := column.length }
    else none

end Parquex
