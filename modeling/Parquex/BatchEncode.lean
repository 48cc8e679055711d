import Parquex.BatchDecode
import Parquex.EventTime

/-!
# Encoding arrays into terms

The reader's side of the native boundary: the term of every slot of an array, and
the batch term of a record batch. An index outside an array panics, which raises.
-/

namespace Parquex

def arrayMismatch : NativeFailure := .expected .readerNext "Arrow array did not match its declared type"

def unsupportedBatchType : NativeFailure :=
  .new .unsupported .readerNext "Parquet batch contains an unsupported logical type"

/-! ## Flat values -/

/-- The term of a slot: `nil` for a null. -/
def encodeAt {α : Type} (values : List (Option α)) (index : Nat) (encode : α → Except (Stop NativeFailure) Term) :
    Except (Stop NativeFailure) Term :=
  match values[index]? with
  | none => .error .raised
  | some none => .ok .nil
  | some (some value) => encode value

def encodeBoolean (value : Bool) : Term := .atom (if value then "true" else "false")

/-- The virtual machine has no terms for infinities. -/
def encodeFloat : Double → Except (Stop NativeFailure) Term
  | .finite value => .ok (.float value)
  | _ => .error .raised

def encodeSlots (storage : Storage) (slots : Slots) (index : Nat) : Except (Stop NativeFailure) Term :=
  match storage, slots with
  | .null, .nulls length => if index < length then .ok .nil else .error .raised
  | .boolean, .booleans values => encodeAt values index fun value => .ok (encodeBoolean value)
  | .integer _, .integers values => encodeAt values index fun value => .ok (.int value)
  | .decimal _ _, .integers values => encodeAt values index fun value => .ok (.text (toString value))
  | .float32, .floats values => encodeAt values index encodeFloat
  | .float64, .floats values => encodeAt values index encodeFloat
  | .string, .strings values => encodeAt values index fun value => .ok (.text value)
  | .binary, .binaries values => encodeAt values index fun value => .ok (.binary value)
  | .fixedBinary _, .binaries values => encodeAt values index fun value => .ok (.binary value)
  | .unsupported, _ => .error (.error unsupportedBatchType)
  | _, _ => .error (.error arrayMismatch)

/-! ## Nested values -/

/-- A key put into a map. -/
def mapPut (entries : List (Term × Term)) (key : String) (value : Term) : List (Term × Term) :=
  if entries.any fun entry => entry.1.string? == some key then
    entries.map fun entry => if entry.1.string? == some key then (.text key, value) else entry
  else entries ++ [(.text key, value)]

/-- The list of some slots in a row. -/
def encodeItems (encode : Nat → Except (Stop NativeFailure) Term) (start stop : Nat) :
    Except (Stop NativeFailure) Term := do
  let items ← (List.range' start (stop - start)).mapM encode
  return .list items

/-- The term of a nested slot: `nil` for a null. -/
def encodeValid (valid : List Bool) (index : Nat) (encode : Except (Stop NativeFailure) Term) :
    Except (Stop NativeFailure) Term :=
  match valid[index]? with
  | none => .error .raised
  | some false => .ok .nil
  | some true => encode

mutual
def encodeValue : ArrowArray → Nat → Except (Stop NativeFailure) Term
  | .flat type slots, index => encodeSlots type.storage slots index
  | .list _ _ offsets valid values, index =>
    encodeValid valid index <|
      encodeItems (fun index => encodeValue values index) (offsets.getD index 0) (offsets.getD (index + 1) 0)
  | .fixedSizeList _ listLength valid values, index =>
    encodeValid valid index <|
      encodeItems (fun index => encodeValue values index) (index * listLength.toNat) ((index + 1) * listLength.toNat)
  | .struct fields valid columns, index =>
    encodeValid valid index do
      let entries ← encodeColumns fields columns index []
      return .map entries

def encodeColumns : List Field → List ArrowArray → Nat → List (Term × Term) →
    Except (Stop NativeFailure) (List (Term × Term))
  | field :: fields, column :: columns, index, entries => do
    let value ← encodeValue column index
    encodeColumns fields columns index (mapPut entries field.name value)
  | _, _, _, entries => .ok entries
end

def encodeArray (array : ArrowArray) : Except (Stop NativeFailure) Term := encodeItems (encodeValue array) 0 array.length

def encodeBatchColumns : List Field → List ArrowArray → Except (Stop NativeFailure) (List Term)
  | field :: fields, array :: arrays => do
    let values ← encodeArray array
    let columns ← encodeBatchColumns fields arrays
    return .tuple [.text field.name, values] :: columns
  | _, _ => .ok []

def encodeBatch (batch : RecordBatch) : Except (Stop NativeFailure) Term := do
  let columns ← encodeBatchColumns batch.schema batch.columns
  return .tuple [.atom "batch", .int batch.numRows, .list columns]

end Parquex
