import Parquex.Term

/-!
# Decoding a batch term into arrays

The writer's side of the native boundary: builders shaped by the schema, values
and nulls appended to them, and the record batch they finish to.
-/

namespace Parquex

def invalidBatch (message : String) : NativeFailure := .invalid .parquetWriterWrite message

def builderMismatch : NativeFailure := .expected .parquetWriterWrite "Arrow builder mismatch"

/-! ## Builders -/

/-- What a flat builder stores for each value. -/
inductive Storage
  | null
  | boolean
  | integer (type : IntegerType)
  | float32
  | float64
  | decimal (lower upper : Int)
  | string
  | binary
  | fixedBinary (length : Int)
  | unsupported

def ScalarType.storage : ScalarType → Storage
  | .null => .null
  | .boolean => .boolean
  | .integer type => .integer type
  | .float32 => .float32
  | .float64 => .float64
  | .utf8 | .largeUtf8 => .string
  | .binary | .largeBinary => .binary
  | .fixedSizeBinary length => .fixedBinary length
  | .date32 => .integer .int32
  | .date64 => .integer .int64
  | .time32 .second | .time32 .millisecond => .integer .int32
  | .time64 .microsecond | .time64 .nanosecond => .integer .int64
  | .time32 _ | .time64 _ => .unsupported
  | .timestamp _ _ => .integer .int64
  | .duration _ => .integer .int64
  | .decimal32 _ _ => .decimal (-2 ^ 31) (2 ^ 31 - 1)
  | .decimal64 _ _ => .decimal (-2 ^ 63) (2 ^ 63 - 1)
  | .decimal128 _ _ => .decimal (-2 ^ 127) (2 ^ 127 - 1)
  | .decimal256 _ _ => .decimal (-2 ^ 255) (2 ^ 255 - 1)

def Storage.empty : Storage → Slots
  | .null | .unsupported => .nulls 0
  | .boolean => .booleans []
  | .integer _ | .decimal _ _ => .integers []
  | .float32 | .float64 => .floats []
  | .string => .strings []
  | .binary | .fixedBinary _ => .binaries []

mutual
def makeBuilder : DataType → ArrowArray
  | .scalar type => .flat type type.storage.empty
  | .list (.mk name dataType nullable) => .list false (.mk name dataType nullable) [0] [] (makeBuilder dataType)
  | .largeList (.mk name dataType nullable) => .list true (.mk name dataType nullable) [0] [] (makeBuilder dataType)
  | .fixedSizeList (.mk name dataType nullable) length =>
    .fixedSizeList (.mk name dataType nullable) length [] (makeBuilder dataType)
  | .struct fields => .struct fields [] (makeBuilders fields)

def makeBuilders : List Field → List ArrowArray
  | [] => []
  | .mk _ dataType _ :: fields => makeBuilder dataType :: makeBuilders fields
end

/-! ## Flat values -/

/-- Append a null or a decoded value. -/
def appendPrimitive {α : Type} (values : List (Option α)) (term : Term) (decode : Term → Except NativeFailure α) :
    Except NativeFailure (List (Option α)) :=
  if term.isNil then .ok (values ++ [none])
  else do
    let value ← decode term
    return values ++ [some value]

def decodeOr {α : Type} (value : Option α) (message : String) : Except NativeFailure α :=
  match value with
  | some value => .ok value
  | none => .error (invalidBatch message)

def decodeDecimal (lower upper : Int) (term : Term) : Except NativeFailure Int := do
  let text ← decodeOr term.string? "decimal values must be unscaled integer strings"
  decodeOr ((parseInt text).filter fun value => decide (lower ≤ value) && decide (value ≤ upper))
    "decimal value is outside its declared width"

def decodeFixedBinary (length : Int) (term : Term) : Except NativeFailure Binary := do
  let value ← decodeOr term.binary? "expected a binary"
  if (value.size : Int) = length then return value else throw (invalidBatch "fixed binary has the wrong length")

def appendSlots (storage : Storage) (slots : Slots) (term : Term) : Except NativeFailure Slots :=
  let wrongType := "batch value has the wrong type"
  match storage, slots with
  | .null, .nulls length =>
    if term.isNil then .ok (.nulls (length + 1)) else .error (invalidBatch "null column contains a value")
  | .boolean, .booleans values => do
    return .booleans (← appendPrimitive values term fun term => decodeOr term.bool? wrongType)
  | .integer type, .integers values => do
    return .integers (← appendPrimitive values term fun term => decodeOr (integer? type term) wrongType)
  | .float32, .floats values => do
    return .floats (← appendPrimitive values term fun term =>
      decodeOr ((term.float?.bind float32?).map Double.finite) wrongType)
  | .float64, .floats values => do
    return .floats (← appendPrimitive values term fun term => decodeOr (term.float?.map Double.finite) wrongType)
  | .decimal lower upper, .integers values => do
    return .integers (← appendPrimitive values term (decodeDecimal lower upper))
  | .string, .strings values => do
    return .strings (← appendPrimitive values term fun term => decodeOr term.string? "expected a string")
  | .binary, .binaries values => do
    return .binaries (← appendPrimitive values term fun term => decodeOr term.binary? "expected a binary")
  | .fixedBinary length, .binaries values => do
    return .binaries (← appendPrimitive values term (decodeFixedBinary length))
  | .unsupported, _ => .error (invalidBatch "batch type is unsupported for writing")
  | _, _ => .error builderMismatch

def appendNullSlots (storage : Storage) (slots : Slots) : Except NativeFailure Slots :=
  match storage, slots with
  | .unsupported, _ => .error (invalidBatch "nested null padding is unsupported for this type")
  | .null, .nulls length => .ok (.nulls (length + 1))
  | .boolean, .booleans values => .ok (.booleans (values ++ [none]))
  | .integer _, .integers values => .ok (.integers (values ++ [none]))
  | .decimal _ _, .integers values => .ok (.integers (values ++ [none]))
  | .float32, .floats values => .ok (.floats (values ++ [none]))
  | .float64, .floats values => .ok (.floats (values ++ [none]))
  | .string, .strings values => .ok (.strings (values ++ [none]))
  | .binary, .binaries values => .ok (.binaries (values ++ [none]))
  | .fixedBinary _, .binaries values => .ok (.binaries (values ++ [none]))
  | _, _ => .error builderMismatch

/-! ## Nested values -/

/-- Append the items of a list, or nothing for a null, and report whether the slot is valid. -/
def appendItems (append : Term → ArrowArray → Except NativeFailure ArrowArray) (term : Term) (values : ArrowArray) :
    Except NativeFailure (Bool × ArrowArray) :=
  if term.isNil then .ok (false, values)
  else do
    let items ← decodeOr term.list? "expected a list"
    let values ← items.foldlM (fun values item => append item values) values
    return (true, values)

/-- Repeat a fallible step. -/
def repeatStep {α : Type} (step : α → Except NativeFailure α) : Nat → α → Except NativeFailure α
  | 0, a => .ok a
  | n + 1, a => do
    let a ← step a
    repeatStep step n a

mutual
def appendNull : DataType → ArrowArray → Except NativeFailure ArrowArray
  | .scalar type, .flat type' slots => do return .flat type' (← appendNullSlots type.storage slots)
  | .list _, .list false item offsets valid values =>
    .ok (.list false item (offsets ++ [values.length]) (valid ++ [false]) values)
  | .largeList _, .list true item offsets valid values =>
    .ok (.list true item (offsets ++ [values.length]) (valid ++ [false]) values)
  | .fixedSizeList (.mk _ dataType _) length, .fixedSizeList item listLength valid values => do
    let values ← repeatStep (appendNull dataType) length.toNat values
    return .fixedSizeList item listLength (valid ++ [false]) values
  | .struct fields, .struct fields' valid columns => do
    let columns ← appendNulls fields columns
    return .struct fields' (valid ++ [false]) columns
  | _, _ => .error builderMismatch

def appendNulls : List Field → List ArrowArray → Except NativeFailure (List ArrowArray)
  | .mk _ dataType _ :: fields, column :: columns => do
    let column ← appendNull dataType column
    let columns ← appendNulls fields columns
    return column :: columns
  | _, columns => .ok columns
end

mutual
def appendValue : DataType → Bool → Term → ArrowArray → Except NativeFailure ArrowArray
  | dataType, nullable, term, builder =>
    if term.isNil && !nullable then .error (invalidBatch "null value violates a non-nullable field")
    else
      match dataType, builder with
      | .scalar type, .flat type' slots => do return .flat type' (← appendSlots type.storage slots term)
      | .list (.mk _ dataType nullable), .list false item offsets valid values => do
        let (isValid, values) ← appendItems (fun term values => appendValue dataType nullable term values) term values
        return .list false item (offsets ++ [values.length]) (valid ++ [isValid]) values
      | .largeList (.mk _ dataType nullable), .list true item offsets valid values => do
        let (isValid, values) ← appendItems (fun term values => appendValue dataType nullable term values) term values
        return .list true item (offsets ++ [values.length]) (valid ++ [isValid]) values
      | .fixedSizeList (.mk _ dataType nullable) length, .fixedSizeList item listLength valid values =>
        if term.isNil then do
          let values ← repeatStep (appendNull dataType) length.toNat values
          return .fixedSizeList item listLength (valid ++ [false]) values
        else do
          let items ← decodeOr term.list? "expected a list"
          if (items.length : Int) ≠ length then throw (invalidBatch "fixed list has the wrong length")
          let values ← items.foldlM (fun values item => appendValue dataType nullable item values) values
          return .fixedSizeList item listLength (valid ++ [true]) values
      | .struct fields, .struct fields' valid columns =>
        if term.isNil then do
          let columns ← appendNulls fields columns
          return .struct fields' (valid ++ [false]) columns
        else do
          let columns ← appendFields fields term columns
          return .struct fields' (valid ++ [true]) columns
      | _, _ => .error builderMismatch

def appendFields : List Field → Term → List ArrowArray → Except NativeFailure (List ArrowArray)
  | .mk name dataType nullable :: fields, term, column :: columns => do
    let value ← decodeOr (term.mapGet name) "struct field is missing"
    let column ← appendValue dataType nullable value column
    let columns ← appendFields fields term columns
    return column :: columns
  | _, _, columns => .ok columns
end

/-! ## Batches -/

def buildArray (field : Field) (terms : List Term) : Except NativeFailure ArrowArray :=
  terms.foldlM (fun builder term => appendValue field.dataType field.isNullable term builder)
    (makeBuilder field.dataType)

def decodeColumn : Term → Option (String × Term)
  | .tuple [name, values] => name.string?.map fun name => (name, values)
  | _ => none

/-- The tag, the row count and the named columns of a batch. -/
def decodeBoundary : Term → Option (String × Nat × List (String × Term))
  | .tuple [.atom tag, .int rowCount, .list columns] =>
    if 0 ≤ rowCount ∧ rowCount < 2 ^ 64 then
      (columns.mapM decodeColumn).map fun columns => (tag, rowCount.toNat, columns)
    else none
  | _ => none

def decodeColumns (rowCount : Nat) : List (String × Term) → List Field → Except NativeFailure (List ArrowArray)
  | (name, values) :: columns, field :: fields => do
    if name ≠ field.name then throw (invalidBatch "batch schema does not match writer schema")
    let terms ← decodeOr values.list? "batch column is not a list"
    if terms.length ≠ rowCount then throw (invalidBatch "batch column lengths do not match")
    let array ← buildArray field terms
    let arrays ← decodeColumns rowCount columns fields
    return array :: arrays
  | _, _ => .ok []

def decodeBatch (term : Term) (schema : List Field) (maxRows : Nat) : Except NativeFailure RecordBatch := do
  let (tag, rowCount, columns) ← decodeOr (decodeBoundary term) "invalid batch boundary"
  if tag ≠ "batch" ∨ rowCount > maxRows ∨ columns.length ≠ schema.length then
    throw (invalidBatch "batch shape or row bound is invalid")
  let arrays ← decodeColumns rowCount columns schema
  decodeOr (RecordBatch.tryNew schema arrays) "batch arrays are invalid"

end Parquex
