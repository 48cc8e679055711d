import Parquex.BatchEncode
import Parquex.Pruning
import Mathlib.Algebra.BigOperators.Group.List.Lemmas

/-!
# Filtering and projecting batches

The rows of a batch that a mask keeps, and the columns of it that a projection
names. A row taken out of an array reads as it did in the array.
-/

namespace Parquex

/-! ## Well-formed batches -/

mutual
/-- Child slots are there for every row of an array. -/
def ArrowArray.Aligned : ArrowArray → Prop
  | .flat _ _ => True
  | .list _ _ offsets valid values =>
    (∀ row < valid.length, offsets.getD (row + 1) 0 ≤ values.length) ∧ values.Aligned
  | .fixedSizeList _ listLength valid values => valid.length * listLength.toNat ≤ values.length ∧ values.Aligned
  | .struct _ valid columns => AlignedAll valid.length columns

def AlignedAll : Nat → List ArrowArray → Prop
  | _, [] => True
  | length, array :: arrays => (array.length = length ∧ array.Aligned) ∧ AlignedAll length arrays
end

/-- The slots of a flat array are those of its type. -/
def ScalarType.holds (type : ScalarType) (slots : Slots) : Bool :=
  match type.storage, slots with
  | .null, .nulls _ | .boolean, .booleans _ | .integer _, .integers _ | .decimal _ _, .integers _
  | .float32, .floats _ | .float64, .floats _ | .string, .strings _ | .binary, .binaries _ | .fixedBinary _, .binaries _
  | .unsupported, _ => true
  | _, _ => false

/-- A flat column has the type of its field. -/
def ArrowArray.Of (dataType : DataType) (array : ArrowArray) : Prop :=
  match dataType, array with
  | .scalar type, .flat type' slots => type' = type ∧ type.holds slots = true
  | .scalar _, _ => False
  | _, _ => True

/-- What Arrow checks of a record batch. -/
structure RecordBatch.Holds (batch : RecordBatch) (fields : List Field) : Prop where
  schema : batch.schema = fields
  columns : List.Forall₂
    (fun field array => array.Of (Field.dataType field) ∧ array.length = batch.numRows ∧ array.Aligned) fields
    batch.columns

/-! ## Taking rows -/

/-- The running sums of some lengths. -/
def offsetsOf (lengths : List Nat) : List Nat := lengths.scanl (· + ·) 0

def Slots.take (rows : List Nat) : Slots → Slots
  | .nulls _ => .nulls rows.length
  | .booleans values => .booleans (rows.map fun row => values.getD row none)
  | .integers values => .integers (rows.map fun row => values.getD row none)
  | .floats values => .floats (rows.map fun row => values.getD row none)
  | .strings values => .strings (rows.map fun row => values.getD row none)
  | .binaries values => .binaries (rows.map fun row => values.getD row none)

/-- The child slots of a row of a list array. -/
def listSpan (offsets : List Nat) (row : Nat) : List Nat :=
  List.range' (offsets.getD row 0) (offsets.getD (row + 1) 0 - offsets.getD row 0)

def fixedSpan (listLength : Int) (row : Nat) : List Nat := List.range' (row * listLength.toNat) listLength.toNat

mutual
def takeArray : List Nat → ArrowArray → ArrowArray
  | rows, .flat type slots => .flat type (slots.take rows)
  | rows, .list large item offsets valid values =>
    .list large item (offsetsOf (rows.map fun row => (listSpan offsets row).length))
      (rows.map fun row => valid.getD row false) (takeArray (rows.flatMap (listSpan offsets)) values)
  | rows, .fixedSizeList item listLength valid values =>
    .fixedSizeList item listLength (rows.map fun row => valid.getD row false)
      (takeArray (rows.flatMap (fixedSpan listLength)) values)
  | rows, .struct fields valid columns =>
    .struct fields (rows.map fun row => valid.getD row false) (takeArrays rows columns)

def takeArrays : List Nat → List ArrowArray → List ArrowArray
  | _, [] => []
  | rows, array :: arrays => takeArray rows array :: takeArrays rows arrays
end

/-! ## Filters -/

/-- The rows whose mask is true; a null mask entry drops its row. -/
def keptRows (mask : List (Option Bool)) : List Nat :=
  mask.zipIdx.filterMap fun entry => if entry.1 = some true then some entry.2 else none

/-- `filter_record_batch`: a mask longer than a column is refused. -/
def filterRecordBatch (batch : RecordBatch) (mask : List (Option Bool)) : Option RecordBatch :=
  let rows := keptRows mask
  if batch.columns.all fun column => decide (mask.length ≤ column.length) then
    some { schema := batch.schema, columns := takeArrays rows batch.columns, numRows := rows.length }
  else none

/-- `RecordBatch::project`: an index beyond the columns is refused. -/
def RecordBatch.project (batch : RecordBatch) (indices : List Nat) : Option RecordBatch := do
  let schema ← indices.mapM fun index => batch.schema[index]?
  let columns ← indices.mapM fun index => batch.columns[index]?
  return { schema, columns, numRows := batch.numRows }

def applyPredicateAndProjection (batch : RecordBatch) (predicate : Option CompiledPredicate)
    (outputIndices : List Nat) : Except NativeFailure RecordBatch := do
  let batch ←
    match predicate with
    | some predicate => do
      let mask ← predicateMask batch.columns predicate
      match filterRecordBatch batch mask with
      | some batch => pure batch
      | none => throw (.new .malformedData .readerNext "predicate batch filtering failed")
    | none => pure batch
  if outputIndices = List.range batch.columns.length then return batch
  else
    match batch.project outputIndices with
    | some batch => return batch
    | none => throw (.new .malformedData .readerNext "predicate projection failed")

end Parquex
