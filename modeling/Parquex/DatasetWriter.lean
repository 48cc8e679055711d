import Parquex.Dataset
import Parquex.Effect
import Parquex.Input
import Parquex.Machine
import Mathlib.Data.List.AList
import Mathlib.Data.List.MinMax
import Mathlib.Data.List.Sort

/-!
# The dataset writer

The process that routes rows into time-partitioned parts, and the native Parquet
writers below it, each taken as appending the batches it accepts. A call of the
process answers before the process ends, after it has cancelled its writers.
-/

namespace Parquex

/-! ## The native writers -/

/-- `failed` is a writer whose close failed and that nobody cancelled. -/
inductive PartStatus
  | opened | failed | published | cancelled
  deriving DecidableEq, Repr

structure NativePart where
  key : String
  fields : List Field
  maxBatchRows : Nat
  rows : List Row
  status : PartStatus

structure PublishedPart where
  key : String
  rows : List Row
  size : Nat

/-- The native writers by handle, and the parts published so far in order. -/
structure Native where
  calls : Nat
  parts : List NativePart
  published : List PublishedPart

namespace Native

def fresh : Native := { calls := 0, parts := [], published := [] }

def setPart (n : Native) (handle : Nat) (part : NativePart) : Native := { n with parts := n.parts.set handle part }

def cancel (n : Native) (handle : Nat) : Native :=
  match n.parts[handle]? with
  | some part => if part.status = .published then n else n.setPart handle { part with status := .cancelled }
  | none => n

end Native

/-- What a native call comes to; a close may fail when its object is in place already. -/
inductive Answer
  | done (size : Nat)
  | refused (failure : NativeFailure) (placed : Bool)
  | raised

/-- The answer of each native call, and what else the runtime supplies. -/
structure Runtime where
  answer : Nat → Answer
  partName : Nat → String
  externalSize : Term → Nat

/-! ## Reports and errors -/

structure Part where
  key : String
  partition : String
  rows : Nat
  size : Nat
  minTimestamp : DateTime
  maxTimestamp : DateTime
  deriving DecidableEq, Repr

structure WriteReport where
  parts : List Part
  rows : Nat
  bytes : Nat
  deriving DecidableEq, Repr

/-- An error with the report in its details. -/
structure ReportedError where
  error : Error
  published : Option WriteReport
  deriving DecidableEq, Repr

namespace DatasetWriter

abbrev Writing (α : Type) := Effect Native (Stop ReportedError) α

def report (parts : List Part) : WriteReport where
  parts := parts.reverse
  rows := (parts.reverse.map Part.rows).sum
  bytes := (parts.reverse.map Part.size).sum

def partialError (error : ReportedError) (parts : List Part) : ReportedError :=
  { error with published := some (report parts) }

def invalid (message : String) : Error := .invalid "dataset_writer" message

def unreported : Stop Error → Stop ReportedError
  | .error error => .error { error, published := none }
  | .raised => .raised

/-- A computation without native calls. -/
def lift {α : Type} (x : Except (Stop Error) α) : Writing α := Effect.ofExcept (x.mapError unreported)

def failWith {α : Type} (error : Error) : Writing α := Effect.fail (.error { error, published := none })

/-! ## Settings -/

structure Settings where
  maxOpenPartitions : Nat
  maxRowsPerFile : Nat
  maxBytesPerFile : Nat
  batchRows : Nat
  maxBatchRows : Nat
  partitionsPos : 0 < maxOpenPartitions
  rowsPos : 0 < maxRowsPerFile
  bytesPos : 0 < maxBytesPerFile
  batchRowsPos : 0 < batchRows
  batchRowsLe : batchRows ≤ maxBatchRows

def boundKeys : List String := ["max_open_partitions", "max_rows_per_file", "max_bytes_per_file", "batch_rows"]

def writerKeys : List String := ["max_batch_rows", "max_row_group_rows", "data_page_size_limit", "statistics"]

def positiveBound (options : List (String × Term)) (key : String) (default : Nat) : Option Nat :=
  match (options.lookup key).getD (.int default) with
  | .int value => if 0 < value then some value.toNat else none
  | _ => none

def settings (options : List (String × Term)) : Except Error Settings :=
  if ¬((options.map Prod.fst).Nodup ∧ options.all fun option => (boundKeys ++ writerKeys).contains option.1) then
    .error (invalid "unknown dataset writer option")
  else
    match positiveBound options "max_open_partitions" 4, positiveBound options "max_rows_per_file" 100000,
      positiveBound options "max_bytes_per_file" 67108864, positiveBound options "batch_rows" 1024,
      (options.lookup "max_batch_rows").getD (.int 65536) with
    | some maxOpenPartitions, some maxRowsPerFile, some maxBytesPerFile, some batchRows, .int maxBatchRows =>
      if h : (0 < maxOpenPartitions ∧ 0 < maxRowsPerFile ∧ 0 < maxBytesPerFile ∧ 0 < batchRows) ∧
          batchRows ≤ maxBatchRows.toNat then
        .ok {
          maxOpenPartitions, maxRowsPerFile, maxBytesPerFile, batchRows
          maxBatchRows := maxBatchRows.toNat
          partitionsPos := h.1.1
          rowsPos := h.1.2.1
          bytesPos := h.1.2.2.1
          batchRowsPos := h.1.2.2.2
          batchRowsLe := h.2 }
      else .error (invalid "dataset writer bounds must be positive and batch_rows cannot exceed max_batch_rows")
    | _, _, _, _, _ =>
      .error (invalid "dataset writer bounds must be positive and batch_rows cannot exceed max_batch_rows")

/-! ## State -/

structure Entry where
  writer : Nat
  key : String
  partition : String
  rows : Nat
  estimatedBytes : Nat
  buffer : List Term
  minTimestamp : DateTime
  maxTimestamp : DateTime
  access : Nat

structure State where
  active : AList fun _ : String => Entry
  access : Nat
  reports : List Part

def init : State := { active := ∅, access := 0, reports := [] }

def datetimeMin (left right : DateTime) : DateTime := if left.compare right = .gt then right else left

def datetimeMax (left right : DateTime) : DateTime := if left.compare right = .lt then right else left

/-! ## Rows -/

def keyNames (column : String) : Term → Bool
  | .atom name => name == column
  | .binary name => name == .text column
  | _ => false

def fetchTimestamp (row : Term) (column : String) : Except (Stop Error) Term :=
  match row with
  | .map entries =>
    match entries.find? fun entry => keyNames column entry.1 with
    | some (_, value) =>
      if value.isNil then .error (.error (invalid "partition timestamp cannot be null")) else .ok value
    | none => .error (.error (invalid "partition timestamp column is missing"))
  | _ => .error .raised

/-- What a call of the process is given. -/
inductive WriteInput
  | batch (batch : Batch)
  | term (term : Term)

def rowTerm (row : Row) : Term := .map (row.map fun entry => (.text entry.1, entry.2))

def inputRows : WriteInput → Except Error (List Term)
  | .batch batch => .ok (batch.toRows.map rowTerm)
  | .term term => Input.finiteRows term

section
variable (dataset : Dataset) (settings : Settings) (runtime : Runtime)

/-- The partition of a row and its date and time. -/
def route (row : Term) : Except (Stop Error) (Partition × DateTime) :=
  if Input.isMap row then do
    let timestamp ← fetchTimestamp row dataset.column
    let (_, datetime) ← TimePartition.liftError (dataset.partition.normalizeTimestamp timestamp)
    let partition ← dataset.partition.forTimestamp timestamp
    return (partition, datetime)
  else .error (.error (invalid "dataset input must contain row maps"))

/-! ## Native calls -/

def call : Writing Nat := fun n =>
  let called := { n with calls := n.calls + 1 }
  match runtime.answer n.calls with
  | .done size => (.ok size, called)
  | .refused failure _ => (.error (.error { error := .fromNative failure, published := none }), called)
  | .raised => (.error .raised, called)

/-- The handle of one more part. -/
def addPart (part : NativePart) : Writing Nat := fun n =>
  (.ok n.parts.length, { n with parts := n.parts ++ [part] })

def openWriter (key : String) : Writing Nat := do
  let key ← lift (TimePartition.liftError (normalizeKey key))
  let fields ← lift (TimePartition.nativeResult (arrowFields dataset.schema.fields))
  let _ ← call runtime
  addPart { key, fields, maxBatchRows := settings.maxBatchRows, rows := [], status := .opened }

def writerError (message : String) : Error := .invalid "parquet_writer_open" message

def writeBatch (handle : Nat) (batch : Batch) : Writing Unit := fun n =>
  if !batch.schema.beq dataset.schema then failWith (writerError "batch schema does not match writer schema") n
  else if batch.rowCount > settings.maxBatchRows then failWith (writerError "batch exceeds max_batch_rows") n
  else
    match n.parts[handle]? with
    | none => (.error .raised, n)
    | some part =>
      if part.status ≠ .opened then failWith (.fromNative (.cancelled .parquetWriterWrite)) n
      else
        match decodeBatch batch.toNative part.fields part.maxBatchRows with
        | .error failure => failWith (.fromNative failure) { n with calls := n.calls + 1 }
        | .ok _ =>
          match call runtime n with
          | (.ok _, n) => (.ok (), n.setPart handle { part with rows := part.rows ++ batch.toRows })
          | (.error stop, n) => (.error stop, n)

def publishPart (n : Native) (handle : Nat) (part : NativePart) (size : Nat) : Native :=
  { n.setPart handle { part with status := .published } with
    published := n.published ++ [{ key := part.key, rows := part.rows, size }] }

def closeWriter (handle : Nat) : Writing Nat := fun n =>
  match n.parts[handle]? with
  | none => (.error .raised, n)
  | some part =>
    if part.status ≠ .opened then failWith (.fromNative (.cancelled .parquetWriterClose)) n
    else
      match call runtime n, runtime.answer n.calls with
      | (.ok size, n), _ => (.ok size, publishPart n handle part size)
      | (.error stop, n), .refused _ true => (.error stop, publishPart n handle part 0)
      | (.error stop, n), _ => (.error stop, n.setPart handle { part with status := .failed })

/-! ## Entries -/

def partKey (path name : String) : String := dataset.prefix' ++ path ++ "/" ++ name

def openEntry (partition : Partition) (datetime : DateTime) (st : State) : Writing State := fun n =>
  let key := partKey dataset partition.path (runtime.partName n.calls)
  (do
    let writer ← openWriter dataset settings runtime key
    let entry : Entry := {
      writer, key
      partition := partition.path
      rows := 0
      estimatedBytes := 0
      buffer := []
      minTimestamp := datetime
      maxTimestamp := datetime
      access := st.access + 1 }
    return { st with active := st.active.insert partition.path entry, access := st.access + 1 } : Writing State) n

def writeBatches (writer : Nat) (batches : List Batch) : Writing Unit :=
  batches.foldlM (fun _ batch => writeBatch dataset settings runtime writer batch) ()

/-- The entry of a path that has one. -/
def fetchEntry (st : State) (path : String) : Writing Entry :=
  match st.active.lookup path with
  | some entry => pure entry
  | none => Effect.fail .raised

def flushEntry (path : String) (st : State) : Writing State := do
  let entry ← fetchEntry st path
  if entry.buffer.isEmpty then return st
  else do
    let batches ← lift (TimePartition.liftError
      (Input.batches (.list entry.buffer.reverse) dataset.schema settings.batchRows))
    writeBatches dataset settings runtime entry.writer batches
    return { st with active := st.active.insert path { entry with buffer := [] } }

/-- An error of the close carries the parts published so far. -/
def closePart (writer : Nat) (reports : List Part) : Writing Nat := fun n =>
  match closeWriter runtime writer n with
  | (.ok size, n) => (.ok size, n)
  | (.error (.error error), n) => (.error (.error (partialError error reports)), n)
  | (.error .raised, n) => (.error .raised, n)

def partOf (entry : Entry) (size : Nat) : Part where
  key := entry.key
  partition := entry.partition
  rows := entry.rows
  size := size
  minTimestamp := entry.minTimestamp
  maxTimestamp := entry.maxTimestamp

def publishEntry (path : String) (st : State) : Writing State := do
  let st ← flushEntry dataset settings runtime path st
  let entry ← fetchEntry st path
  let size ← closePart runtime entry.writer st.reports
  return { st with active := st.active.erase path, reports := partOf entry size :: st.reports }

def oldest (st : State) : Option String :=
  (st.active.entries.argmin fun entry => entry.2.access).map fun entry => entry.1

def makeRoom (st : State) : Writing State :=
  if st.active.entries.length < settings.maxOpenPartitions then pure st
  else
    match oldest st with
    | some path => publishEntry dataset settings runtime path st
    | none => Effect.fail .raised

/-- An entry with rows in it has no room for a row that breaks a bound. -/
def full (entry : Entry) (row : Term) : Bool :=
  decide (0 < entry.rows) && (decide (entry.rows + 1 > settings.maxRowsPerFile) ||
    decide (entry.estimatedBytes + runtime.externalSize row > settings.maxBytesPerFile))

def ensureEntry (partition : Partition) (datetime : DateTime) (row : Term) (st : State) : Writing State :=
  match st.active.lookup partition.path with
  | some entry =>
    if full settings runtime entry row then do
      let st ← publishEntry dataset settings runtime partition.path st
      openEntry dataset settings runtime partition datetime st
    else pure st
  | none => do
    let st ← makeRoom dataset settings runtime st
    openEntry dataset settings runtime partition datetime st

/-- An entry with one more row in its buffer. -/
def Entry.append (entry : Entry) (datetime : DateTime) (row : Term) (size access : Nat) : Entry :=
  { entry with
    rows := entry.rows + 1
    estimatedBytes := entry.estimatedBytes + size
    buffer := row :: entry.buffer
    minTimestamp := datetimeMin entry.minTimestamp datetime
    maxTimestamp := datetimeMax entry.maxTimestamp datetime
    access := access }

def appendRow (path : String) (datetime : DateTime) (row : Term) (st : State) : Writing State := do
  let entry ← fetchEntry st path
  let entry := entry.append datetime row (runtime.externalSize row) (st.access + 1)
  let st := { st with active := st.active.insert path entry, access := st.access + 1 }
  if settings.batchRows ≤ entry.buffer.length then flushEntry dataset settings runtime path st else pure st

/-! ## Calls of the process -/

def routeRow (st : State) (row : Term) : Writing State := do
  let (partition, datetime) ← lift (route dataset row)
  let st ← ensureEntry dataset settings runtime partition datetime row st
  appendRow dataset settings runtime partition.path datetime row st

def routeRows (rows : List Term) (st : State) : Writing State := rows.foldlM (routeRow dataset settings runtime) st

def activePaths (st : State) : List String :=
  (st.active.entries.insertionSort fun a b => a.2.access ≤ b.2.access).map fun entry => entry.1

/-- Publish the entries of some paths; an error comes with the state before its entry. -/
def closePaths : List String → State → Native → Except (Stop (ReportedError × State)) State × Native
  | [], st, n => (.ok st, n)
  | path :: paths, st, n =>
    match publishEntry dataset settings runtime path st n with
    | (.ok st, n) => closePaths paths st n
    | (.error (.error error), n) => (.error (.error (error, st)), n)
    | (.error .raised, n) => (.error .raised, n)

def closeAll (st : State) (n : Native) : Except (Stop (ReportedError × State)) State × Native :=
  closePaths dataset settings runtime (activePaths st) st n

def cancelAll (st : State) (n : Native) : Native :=
  st.active.entries.foldl (fun n entry => n.cancel entry.2.writer) n

inductive Call
  | write (input : WriteInput)
  | close
  | cancel
  | ownerDown

inductive Reply
  | ok
  | closed (report : WriteReport)
  | failed (error : ReportedError)
  | none
  deriving DecidableEq, Repr

/-- The process, which has ended once it stopped. -/
inductive Server
  | running (st : State)
  | stopped

def closedError : ReportedError := { error := invalid "dataset writer is closed", published := none }

def writeRows (input : WriteInput) (st : State) : Writing State := do
  let rows ← lift (TimePartition.liftError (inputRows input))
  routeRows dataset settings runtime rows st

def handleWrite (input : WriteInput) (st : State) (n : Native) : Reply × Server × Native :=
  match writeRows dataset settings runtime input st n with
  | (.ok st, n) => (.ok, .running st, n)
  | (.error (.error error), n) => (.failed (partialError error st.reports), .stopped, cancelAll st n)
  | (.error .raised, n) => (.failed closedError, .stopped, cancelAll st n)

def handleClose (st : State) (n : Native) : Reply × Server × Native :=
  match closeAll dataset settings runtime st n with
  | (.ok st, n) => (.closed (report st.reports), .stopped, cancelAll st n)
  | (.error (.error (error, st)), n) => (.failed error, .stopped, cancelAll st n)
  | (.error .raised, n) => (.failed closedError, .stopped, cancelAll st n)

def step (s : Server × Native) (c : Call) : Reply × Server × Native :=
  match s.1, c with
  | .running st, .write input => handleWrite dataset settings runtime input st s.2
  | .running st, .close => handleClose dataset settings runtime st s.2
  | .running st, .cancel => (.ok, .stopped, cancelAll st s.2)
  | .running st, .ownerDown => (.none, .stopped, cancelAll st s.2)
  | .stopped, .write _ => (.failed closedError, s)
  | .stopped, .close => (.failed closedError, s)
  | .stopped, .cancel => (.ok, s)
  | .stopped, .ownerDown => (.none, s)

def machine : Machine (Server × Native) Call Reply := ⟨step dataset settings runtime⟩

/-- A process that has just been started. -/
def start : Server × Native := (.running init, .fresh)

end

end DatasetWriter

end Parquex
