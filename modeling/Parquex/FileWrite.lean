import Parquex.FiniteRows
import Parquex.StorePut
import Parquex.WriteFailure

/-!
# Writing a file

`Parquex.write` into a local store. The options are checked by the library, the
file is written batch by batch through the Parquet library into a staging file,
and the writer is cancelled whatever has come of its batches. Every system call of
every native call may fail.
-/

namespace Parquex

namespace FileWriter

/-! ## Options -/

inductive Compression
  | uncompressed | snappy | zstd | gzip | lz4Raw
  deriving DecidableEq, Repr

inductive StatisticsPolicy
  | chunk | none
  deriving DecidableEq, Repr

structure Settings where
  compression : Compression
  maxBatchRows : Nat
  maxRowGroupRows : Nat
  dataPageSizeLimit : Nat
  statistics : StatisticsPolicy
  output : WriteOptions

def optionKeys : List String :=
  ["compression", "max_batch_rows", "max_row_group_rows", "data_page_size_limit", "statistics"]

def invalid (message : String) : Error := .invalid "parquet_writer_open" message

def validateOptions (options : List (String × Term)) : Except Error Unit :=
  if (options.map Prod.fst).diff optionKeys = [] then .ok () else .error (invalid "unknown write option")

def compression? : Term → Option Compression
  | .atom "uncompressed" => some .uncompressed
  | .atom "snappy" => some .snappy
  | .atom "zstd" => some .zstd
  | .atom "gzip" => some .gzip
  | .atom "lz4_raw" => some .lz4Raw
  | _ => none

def statistics? : Term → Option StatisticsPolicy
  | .atom "chunk" => some .chunk
  | .atom "none" => some .none
  | _ => none

def maxNativeBound : Int := 4294967295

def nativeBound (options : List (String × Term)) (key : String) (default : Int) : Option Nat :=
  match (options.lookup key).getD (.int default) with
  | .int value => if 0 < value ∧ value ≤ maxNativeBound then some value.toNat else none
  | _ => none

def integerSettings (options : List (String × Term)) (compression : Compression) (statistics : StatisticsPolicy) :
    Except Error Settings :=
  match nativeBound options "max_batch_rows" 65536, nativeBound options "max_row_group_rows" 1048576,
    nativeBound options "data_page_size_limit" 1048576 with
  | some maxBatchRows, some maxRowGroupRows, some dataPageSizeLimit =>
    .ok { compression, maxBatchRows, maxRowGroupRows, dataPageSizeLimit, statistics,
          output := { flush := .beforePublish, sync := .none } }
  | _, _, _ => .error (invalid "writer bounds must be positive integers")

def settings (options : List (String × Term)) : Except Error Settings :=
  match compression? ((options.lookup "compression").getD (.atom "snappy")) with
  | none => .error (invalid "unsupported compression")
  | some compression =>
    match statistics? ((options.lookup "statistics").getD (.atom "chunk")) with
    | none => .error (invalid "invalid statistics policy")
    | some statistics => integerSettings options compression statistics

/-- The key, the settings and the schema that go to the native call; words that do not fit it make it raise. -/
def openArguments (key : String) (schema : Schema) (options : List (String × Term)) :
    Except (Stop Error) (String × Settings × List NativeField) := do
  TimePartition.liftError (validateOptions options)
  let key ← TimePartition.liftError (normalizeKey key)
  let settings ← TimePartition.liftError (settings options)
  let native ← TimePartition.liftError (nativeSchema schema)
  match decodeInput native with
  | none => .error .raised
  | some fields => .ok (key, settings, fields)

/-! ## The Parquet library -/

def Compression.name : Compression → String
  | .uncompressed => "uncompressed"
  | .snappy => "snappy"
  | .zstd => "zstd"
  | .gzip => "gzip"
  | .lz4Raw => "lz4_raw"

structure WriterProperties where
  compression : Compression
  maxRowGroupRowCount : Nat
  dataPageSizeLimit : Nat
  writeBatchSize : Nat
  statisticsEnabled : StatisticsPolicy
  keyValueMetadata : List (String × String)

def Settings.properties (settings : Settings) : WriterProperties where
  compression := settings.compression
  maxRowGroupRowCount := settings.maxRowGroupRows
  dataPageSizeLimit := settings.dataPageSizeLimit
  writeBatchSize := min settings.maxBatchRows settings.maxRowGroupRows
  statisticsEnabled := settings.statistics
  keyValueMetadata := [
    ("parquex.compression", settings.compression.name),
    ("parquex.max_row_group_rows", toString settings.maxRowGroupRows),
    ("parquex.data_page_size_limit", toString settings.dataPageSizeLimit)]

/-- The Arrow writer of the properties and the schema of a file. -/
abbrev ArrowWriters := WriterProperties → List Field → ArrowLibrary

end FileWriter

/-! ## The native calls -/

/-- What fails in a native call: in the call itself, in each chunk that it writes, and in the drop that ends it. -/
structure CallFaults where
  call : Faults
  chunk : Nat → Faults
  drop : Faults

def CallFaults.never : CallFaults := ⟨.never, fun _ => .never, .never⟩

/-- The owner waits for the call, so that it does not die. -/
def CallFaults.chunks (faults : CallFaults) : Nat → Faults × Bool := fun n => (faults.chunk n, false)

def StagedReply.failure? : StagedReply → Option NativeFailure
  | .failed failure => some failure
  | _ => Option.none

def StagedReply.size : StagedReply → Nat
  | .closed size => size
  | _ => 0

namespace FileWriter

open LocalHost (StoreDisk)

/-- A native writer. -/
structure Resource (arrow : ArrowWriters) where
  properties : WriterProperties
  fields : List Field
  staged : StagedParquet (arrow properties fields)

variable {arrow : ArrowWriters} (host : LocalHost)

section
variable (faults : CallFaults)

variable (arrow) in
/-- A staged output that does not get its writer is dropped. -/
def openOutput (files : FileSystem) (output : LocalWriter) (fields : List NativeField) (settings : Settings) :
    Except NativeFailure (Resource arrow) × FileSystem :=
  match arrowChildren fields with
  | .error failure => (.error failure, output.drop faults.drop files)
  | .ok fields =>
    let opened := (arrow settings.properties fields).tryNew.run faults.chunks 0 files output
    match opened.result with
    | none => (.error (encodeFailure .parquetWriterOpen), opened.sink.drop faults.drop opened.files)
    | some state =>
      (.ok { properties := settings.properties, fields,
             staged := { files := opened.files, output := opened.sink, writer := some state, active := true,
                         schema := fields, maxBatchRows := settings.maxBatchRows } }, opened.files)

variable (arrow) in
def openStore (s : StoreDisk) (key : String) (fields : List NativeField) (settings : Settings) :
    Except NativeFailure (Resource arrow) × StoreDisk :=
  match host.storeOpenWriter faults.call s.stageSequence settings.output s.files key with
  | (.error failure, files, stageSequence) => (.error failure, ⟨files, stageSequence, s.calls + 1⟩)
  | (.ok output, files, stageSequence) =>
    let opened := openOutput arrow faults files output fields settings
    (opened.1, ⟨opened.2, stageSequence, s.calls + 1⟩)

variable (s : StoreDisk) (resource : Resource arrow)

/-- The staging file lies among the files of the store. -/
def Resource.on : StagedParquet (arrow resource.properties resource.fields) :=
  { resource.staged with files := s.files }

def nativeWrite (batch : Term) : Except NativeFailure Unit × StoreDisk × Resource arrow :=
  let written := (resource.on s).writeBatch batch faults.chunks
  (written.1.reply.failure?.elim (.ok ()) .error, { s with files := written.2.files, calls := s.calls + 1 },
    { resource with staged := written.2 })

def nativeClose : Except NativeFailure ObjectMetadata × StoreDisk × Resource arrow :=
  let closed := (resource.on s).close host faults.chunks false faults.call faults.drop
  let published : Except NativeFailure ObjectMetadata :=
    match closed.1.reply.failure? with
    | some failure => .error failure
    | none => (host.localMetadata resource.staged.output.destination closed.1.reply.size).mapError fun failure =>
      { failure with operation := .parquetWriterClose }
  (published, { s with files := closed.2.files, calls := s.calls + 1 }, { resource with staged := closed.2 })

def nativeAbort : StoreDisk × Resource arrow :=
  let aborted := (resource.on s).abort faults.drop
  ({ s with files := aborted.2.files, calls := s.calls + 1 }, { resource with staged := aborted.2 })

end

/-! ## The calls of the library -/

structure Writer (arrow : ArrowWriters) where
  resource : Resource arrow
  key : String
  schema : Schema
  maxBatchRows : Nat

section
variable (environment : Nat → CallFaults) (s : StoreDisk)

variable (arrow) in
def openWriter (key : String) (schema : Schema) (options : List (String × Term)) :
    Except (Stop Error) (Writer arrow) × StoreDisk :=
  match openArguments key schema options with
  | .error stop => (.error stop, s)
  | .ok (key, settings, fields) =>
    match openStore arrow host (environment s.calls) s key fields settings with
    | (.error failure, s) => (.error (.error (.fromNative failure)), s)
    | (.ok resource, s) => (.ok { resource, key, schema, maxBatchRows := settings.maxBatchRows }, s)

variable (writer : Writer arrow)

def writeBatch (batch : Batch) : Except (Stop Error) Unit × StoreDisk × Writer arrow :=
  if !batch.schema.beq writer.schema then
    (.error (.error (invalid "batch schema does not match writer schema")), s, writer)
  else if writer.maxBatchRows < batch.rowCount then
    (.error (.error (invalid "batch exceeds max_batch_rows")), s, writer)
  else
    let written := nativeWrite (environment s.calls) s writer.resource batch.toNative
    (TimePartition.nativeResult written.1, written.2.1, { writer with resource := written.2.2 })

def writeBatches (s : StoreDisk) (writer : Writer arrow) :
    List Batch → Except (Stop Error) Unit × StoreDisk × Writer arrow
  | [] => (.ok (), s, writer)
  | batch :: rest =>
    match writeBatch environment s writer batch with
    | (.ok (), s, writer) => writeBatches s writer rest
    | (.error stop, s, writer) => (.error stop, s, writer)

def closeWriter : Except (Stop Error) Metadata × StoreDisk × Writer arrow :=
  let closed := nativeClose host (environment s.calls) s writer.resource
  ((TimePartition.nativeResult closed.1).map (.fromNative writer.key), closed.2.1,
    { writer with resource := closed.2.2 })

def cancel : StoreDisk := (nativeAbort (environment s.calls) s writer.resource).1

/-- What is left when a writer has been given its batches. -/
def finishFile (written : Except (Stop Error) Unit × StoreDisk × Writer arrow) :
    Except (Stop Error) Metadata × StoreDisk × Writer arrow :=
  match written with
  | (.error stop, s, writer) => (.error stop, s, writer)
  | (.ok (), s, writer) => closeWriter host environment s writer

variable (arrow) in
/-- The cancel comes last, whatever has been answered. -/
def writeFile (key : String) (schema : Schema) (batches : List Batch) (options : List (String × Term)) :
    Except (Stop Error) Metadata × StoreDisk :=
  match openWriter arrow host environment s key schema options with
  | (.error stop, s) => (.error stop, s)
  | (.ok writer, s) =>
    let finished := finishFile host environment (writeBatches environment s writer batches)
    (finished.1, cancel environment finished.2.1 finished.2.2)

end

/-! ## Finite input -/

/-- The rows of a batch, and the options that are left for the writer. -/
def popBatchRows (options : List (String × Term)) : Except Error (Nat × List (String × Term)) :=
  match (options.lookup "batch_rows").getD (.int 65536) with
  | .int rows =>
    if 0 < rows then .ok (rows.toNat, options.filter fun option => option.1 ≠ "batch_rows")
    else .error (Input.invalid "batch_rows must be a positive integer")
  | _ => .error (Input.invalid "batch_rows must be a positive integer")

/-- The batches of some input, under the schema that is given or inferred. -/
def fileBatches (inspect : Binary → String) (schema : Option Schema) (input : Term) (batchRows : Nat) :
    Except (Stop Error) (Schema × List Batch) :=
  match schema with
  | none => Finite.inferAndBatches inspect input batchRows
  | some schema => (TimePartition.liftError (Input.batches input schema batchRows)).map (schema, ·)

/-- The arguments of a write. -/
structure FileInput where
  key : String
  schema : Option Schema
  input : Term
  options : List (String × Term)

def FileInput.prepare (inspect : Binary → String) (w : FileInput) :
    Except (Stop Error) (Schema × List Batch × List (String × Term)) := do
  let (batchRows, options) ← TimePartition.liftError (popBatchRows w.options)
  let (schema, batches) ← fileBatches inspect w.schema w.input batchRows
  return (schema, batches, options)

variable (arrow) in
/-- `Parquex.write`. -/
def write (inspect : Binary → String) (environment : Nat → CallFaults) (s : StoreDisk) (w : FileInput) :
    Except (Stop Error) Metadata × StoreDisk :=
  match w.prepare inspect with
  | .error stop => (.error stop, s)
  | .ok (schema, batches, options) => writeFile arrow host environment s w.key schema batches options

end FileWriter

end Parquex
