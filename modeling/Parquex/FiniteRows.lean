import Parquex.Infer
import Parquex.NativeSchema
import Parquex.ParquetWriter
import Parquex.Reader

/-!
# Finite rows

Rows are written to one file under the schema inferred from them, in batches of
some size, and all the batches of a file are read back into rows.
-/

namespace Parquex

namespace Finite

/-! ## Writing -/

/-- The name of an inferred field crosses the native boundary as a string; other bytes raise there. -/
def inferredField (field : Input.InferredField) : Except (Stop Error) SchemaField :=
  match field.name with
  | .text name => .ok (.mk name (.flat field.type) field.nullable)
  | .raw _ => .error .raised

def inferAndBatches (inspect : Binary → String) (input : Term) (batchRows : Nat) :
    Except (Stop Error) (Schema × List Batch) := do
  let rows ← TimePartition.liftError (Input.finiteRows input)
  let inferred ← Input.infer inspect rows
  let fields ← inferred.mapM inferredField
  let batches ← TimePartition.liftError (Input.batches (.list rows) { fields } batchRows)
  return ({ fields }, batches)

/-- The Parquet encoder of a schema, and what the writer is opened with. -/
structure WriterSettings where
  encoder : List Field → ArrowEncoder
  maxBatchRows : Nat
  multipartBufferLimitBytes : Nat
  key : String
  destination : Option Bytes

def writerError (message : String) : Stop Error := .error (.invalid "parquet_writer_open" message)

/-- The library's `Writer`. -/
structure Writer where
  resource : ParquetWriter
  fields : List Field
  schema : Schema

section
variable (settings : WriterSettings)

def openWriter (schema : Schema) : Except (Stop Error) Writer := do
  let native ← TimePartition.liftError (nativeSchema schema)
  match decodeInput native with
  | none => throw .raised
  | some native => do
    let fields ← TimePartition.nativeResult (arrowChildren native)
    let resource := ParquetWriter.opened (settings.encoder fields) fields settings.maxBatchRows
      settings.multipartBufferLimitBytes settings.key settings.destination
    return { resource, fields, schema }

/-- What the native call gives the library. -/
def replied (reply : WriterReply) : Except (Stop Error) Unit :=
  match reply with
  | .written _ | .closed _ => .ok ()
  | .failed failure => .error (.error (.fromNative failure))
  | .aborted _ | .none => throw .raised

def writeBatch (writer : Writer) (batch : Batch) : Except (Stop Error) Writer :=
  if !batch.schema.beq writer.schema then throw (writerError "batch schema does not match writer schema")
  else if settings.maxBatchRows < batch.rowCount then throw (writerError "batch exceeds max_batch_rows")
  else do
    let (reply, resource) := writer.resource.writeBatch (settings.encoder writer.fields) batch.toNative none
    replied reply
    return { writer with resource }

def closeWriter (writer : Writer) : Except (Stop Error) Writer := do
  let (reply, resource) := writer.resource.close (settings.encoder writer.fields) none
  replied reply
  return { writer with resource }

def writeFile (schema : Schema) (batches : List Batch) : Except (Stop Error) Writer := do
  let writer ← openWriter settings schema
  let writer ← batches.foldlM (writeBatch settings) writer
  closeWriter settings writer

/-- `Parquex.write` of rows without a schema. -/
def write (inspect : Binary → String) (input : Term) (batchRows : Nat) : Except (Stop Error) Writer := do
  let (schema, batches) ← inferAndBatches inspect input batchRows
  writeFile settings schema batches

end

/-! ## Reading -/

def decodeValue (value : Term) (type : FieldType) : Term :=
  match value, type with
  | .int value, .flat (.timestamp unit (some "UTC")) =>
    match DateTime.fromUnix value unit with
    | some datetime => .dateTime datetime
    | none => .int value
  | value, _ => value

def decodeRow (schema : Schema) (row : Row) : Row :=
  schema.fields.map fun field => (field.name, decodeValue (row.get field.name) field.type)

def decodeRows (batches : List Batch) : List Row :=
  batches.flatMap fun batch => batch.toRows.map (decodeRow batch.schema)

def nativeStop {α : Type} : Except (Stop NativeFailure) α → Except (Stop Error) α
  | .ok result => .ok result
  | .error (.error failure) => .error (.error (.fromNative failure))
  | .error .raised => .error .raised

/-- The term of a record batch, as a batch of the stream. -/
def receiveBatch (schema : Schema) (record : RecordBatch) : Except (Stop Error) Batch := do
  let native ← nativeStop (encodeBatch record)
  TimePartition.liftError (Batch.fromNative schema native)

section
variable (memorySize : RecordBatch → Nat)

/-- `Enum.to_list` of a stream, unless the fuel runs out. -/
def toList (schema : Schema) : Nat → ReaderState → Option (Except (Stop Error) (List Batch))
  | 0, _ => none
  | fuel + 1, state =>
    match state.nextBatch memorySize with
    | (.ok none, _) => some (.ok [])
    | (.ok (some record), state) =>
      match receiveBatch schema record with
      | .ok batch => (toList schema fuel state).map fun rest => rest.map (batch :: ·)
      | .error stop => some (.error stop)
    | (.error failure, _) => some (.error (.error (.fromNative failure)))

/-- `Parquex.read` without options but a depth of prefetching. -/
def read (file : ParquetFile) (prefetchDepth fuel : Nat) : Option (Except (Stop Error) (List Row)) :=
  match openBackend file { prefetchDepth, columns := [], predicate := none } with
  | .error stop => some (nativeStop (.error stop))
  | .ok (state, fields) =>
    match Schema.fromNative fields with
    | .error error => some (.error (.error error))
    | .ok schema => (toList memorySize schema fuel state).map fun batches => batches.map decodeRows

end

end Finite

end Parquex
