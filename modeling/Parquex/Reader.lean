import Parquex.BatchFilter
import Parquex.NativeSchema
import Parquex.Machine

/-!
# The Parquet reader

An open reader fills a queue of batches ahead of demand and delivers them one a
call. Opening it turns the names of the requested columns and of the predicate
column into positions in the file, in what is read and in what is delivered.
-/

namespace Parquex

/-! ## Files -/

/-- The failures of the Parquet library, which the reader does not tell apart. -/
inductive ParquetError
  | general (message : String)
  | eof (message : String)
  | other
  deriving DecidableEq, Repr

/-- The root columns that the decoder reads. -/
inductive ProjectionMask
  | all
  | roots (indices : List Nat)
  deriving DecidableEq, Repr

/-- The selected roots come in file order. -/
def ProjectionMask.select {α : Type} (mask : ProjectionMask) (roots : List α) : List α :=
  match mask with
  | .all => roots
  | .roots indices => roots.zipIdx.filterMap fun entry => if entry.2 ∈ indices then some entry.1 else none

def RecordBatch.select (batch : RecordBatch) (mask : ProjectionMask) : RecordBatch :=
  { batch with schema := mask.select batch.schema, columns := mask.select batch.columns }

/-- A file as its decoder reads it. -/
structure ParquetFile where
  schema : List Field
  metaData : ParquetMetaData
  /-- What decoding all columns of some row groups answers, batch by batch. -/
  batches : List Nat → List (Except ParquetError RecordBatch)
  holds : ∀ rowGroups batch, .ok batch ∈ batches rowGroups → batch.Holds schema

/-- What the decoder answers when it reads some columns of some row groups. -/
def ParquetFile.decode (file : ParquetFile) (mask : ProjectionMask) (rowGroups : List Nat) :
    List (Except ParquetError RecordBatch) :=
  (file.batches rowGroups).map fun result => result.map fun batch => batch.select mask

/-! ## An open reader -/

structure ReaderState where
  /-- What the underlying reader has yet to answer, until it is dropped. -/
  reader : Option (List (Except ParquetError RecordBatch))
  queue : List RecordBatch := []
  cancelled : Bool := false
  prefetchDepth : Nat
  currentBufferedBytes : Nat := 0
  peakBufferedBytes : Nat := 0
  peakBufferedBatches : Nat := 0
  active : Bool := true
  eof : Bool := false
  predicate : Option CompiledPredicate
  outputIndices : List Nat

namespace ReaderState

def decodingFailed : NativeFailure := .new .malformedData .readerNext "Parquet batch decoding failed"

section
variable (memorySize : RecordBatch → Nat)

def push (state : ReaderState) (batch : RecordBatch) : ReaderState :=
  let bytes := state.currentBufferedBytes + memorySize batch
  { state with
    currentBufferedBytes := bytes
    queue := state.queue ++ [batch]
    peakBufferedBytes := max state.peakBufferedBytes bytes
    peakBufferedBatches := max state.peakBufferedBatches (state.queue.length + 1) }

def wants (state : ReaderState) : Bool := decide (state.queue.length < state.prefetchDepth) && !state.eof

/-- One answer of the underlying reader. -/
def consume (state : ReaderState) (result : Except ParquetError RecordBatch) : Option NativeFailure × ReaderState :=
  match result with
  | .ok batch =>
    match applyPredicateAndProjection batch state.predicate state.outputIndices with
    | .ok batch => if batch.numRows = 0 then (none, state) else (none, state.push memorySize batch)
    | .error failure => (some failure, state)
  | .error _ => (some decodingFailed, state)

/-- The loop that fills the queue; a failure leaves what is queued. -/
def fill : List (Except ParquetError RecordBatch) → ReaderState → Option NativeFailure × ReaderState
  | [], state => if state.wants then (none, { state with eof := true }) else (none, state)
  | result :: results, state =>
    if state.wants then
      match ({ state with reader := some results }).consume memorySize result with
      | (some failure, state) => (some failure, state)
      | (none, state) => fill results state
    else (none, state)

/-- A batch leaves the front of the queue. -/
def pop (state : ReaderState) : Option RecordBatch × ReaderState :=
  match state.queue with
  | [] => (none, state)
  | batch :: queue =>
    (some batch, { state with queue, currentBufferedBytes := state.currentBufferedBytes - memorySize batch })

def nextBatch (state : ReaderState) : Except NativeFailure (Option RecordBatch) × ReaderState :=
  if state.cancelled || !state.active then (.error (.cancelled .readerNext), state)
  else
    let (failure, state) :=
      match state.reader with
      | some results => state.fill memorySize results
      | none => (if state.wants then some (.cancelled .readerNext) else none, state)
    match failure with
    | some failure => (.error failure, state)
    | none =>
      let (batch, state) := state.pop memorySize
      (.ok batch, state)

end

def close (state : ReaderState) : Bool × ReaderState :=
  if !state.active then (false, state)
  else
    (true, { state with
      cancelled := true, reader := none, queue := [], currentBufferedBytes := 0, active := false })

end ReaderState

inductive ReaderCall
  | next
  | close
  deriving DecidableEq, Repr

inductive ReaderReply
  | batch (answer : Except NativeFailure (Option RecordBatch))
  | closed (closed : Bool)

/-- An open reader under any calls. -/
def readerMachine (memorySize : RecordBatch → Nat) : Machine ReaderState ReaderCall ReaderReply where
  step state call :=
    match call with
    | .next =>
      let (answer, state) := state.nextBatch memorySize
      (.batch answer, state)
    | .close =>
      let (closed, state) := state.close
      (.closed closed, state)

/-! ## Opening -/

def projectedColumn (fields : List Field) (column : String) : Except NativeFailure Nat :=
  match fields.findIdx? (fun field => field.name == column) with
  | some index => .ok index
  | none => .error (.invalid .readerOpen "projected column does not exist")

/-- The requested columns in file order; no columns stand for all of them. -/
def projectionIndices (fields : List Field) (columns : List String) : Except NativeFailure (List Nat) :=
  if columns.isEmpty then .ok (List.range fields.length)
  else do
    let indices ← columns.mapM (projectedColumn fields)
    return indices.insertionSort (· ≤ ·)

/-- A position that must be there; its absence panics. -/
def expectPosition (indices : List Nat) (index : Nat) : Except (Stop NativeFailure) Nat :=
  match indices.findIdx? (· == index) with
  | some position => .ok position
  | none => .error .raised

def native {α : Type} (result : Except NativeFailure α) : Except (Stop NativeFailure) α := result.mapError .error

structure ReaderOpenSettings where
  prefetchDepth : Nat
  columns : List String
  predicate : Option NativePredicate

def compileOptional (predicate : Option NativePredicate) (fields : List Field) :
    Except NativeFailure (Option CompiledPredicate) :=
  match predicate with
  | none => .ok none
  | some predicate => do
    let predicate ← compilePredicate predicate fields
    return some predicate

/-- The requested columns and that of the predicate. -/
def readIndicesOf (requested : List Nat) (predicate : Option CompiledPredicate) : List Nat :=
  match predicate with
  | none => requested
  | some predicate =>
    if predicate.rootIndex ∈ requested then requested
    else (requested ++ [predicate.rootIndex]).insertionSort (· ≤ ·)

def fieldAt (fields : List Field) (index : Nat) : Except (Stop NativeFailure) Field :=
  match fields[index]? with
  | some field => .ok field
  | none => .error .raised

/-- `open_backend`, from the metadata of a file to an open reader and its fields. -/
def openBackend (file : ParquetFile) (settings : ReaderOpenSettings) :
    Except (Stop NativeFailure) (ReaderState × List NativeField) := do
  let allFields := file.schema
  let nativeAllFields ← native (nativeFields allFields)
  let requestedIndices ← native (projectionIndices allFields settings.columns)
  let predicate ← native (compileOptional settings.predicate allFields)
  let readIndices := readIndicesOf requestedIndices predicate
  let all := settings.columns.isEmpty
  let projection := if all then ProjectionMask.all else .roots readIndices
  let projectedFields ←
    if all then pure nativeAllFields
    else requestedIndices.mapM fun index => do
      let field ← fieldAt allFields index
      native (nativeField field)
  let outputIndices ←
    if all then pure (List.range allFields.length) else requestedIndices.mapM (expectPosition readIndices)
  let predicate ←
    match predicate with
    | none => pure none
    | some predicate => do
      let columnIndex ← if all then pure predicate.rootIndex else expectPosition readIndices predicate.rootIndex
      pure (some { predicate with columnIndex })
  let selectedRowGroups := selectRowGroups file.metaData predicate
  return ({ reader := some (file.decode projection selectedRowGroups), prefetchDepth := settings.prefetchDepth,
            predicate, outputIndices }, projectedFields)

end Parquex
