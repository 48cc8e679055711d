import Parquex.BatchDecode
import Parquex.Machine
import Parquex.Object

/-!
# The native Parquet writer

One `ParquetWriterResource`: an Arrow writer over a staged output, its statistics
and the cancellation token they share. The owner going down sets the token
without taking the lock, so a running call may see it set after any number of
its staged operations; the abort follows under the lock.
-/

namespace Parquex

/-! ## The Arrow writer -/

/-- What the Parquet encoder writes, in chunks: at the start, for a batch after earlier ones, and at the end. -/
structure ArrowEncoder where
  opening : List Bytes
  onWrite : List RecordBatch → RecordBatch → List Bytes
  onClose : List RecordBatch → List Bytes
  memorySize : RecordBatch → Nat
  inProgressSize : List RecordBatch → Nat

namespace ArrowEncoder

/-- The bytes written for batches that follow `before`. -/
def written (encoder : ArrowEncoder) (before : List RecordBatch) : List RecordBatch → Bytes
  | [] => []
  | batch :: batches => (encoder.onWrite before batch).flatten ++ encoder.written (before ++ [batch]) batches

/-- The staged bytes once some batches are accepted. -/
def staged (encoder : ArrowEncoder) (batches : List RecordBatch) : Bytes :=
  encoder.opening.flatten ++ encoder.written [] batches

/-- The file of some batches. -/
def file (encoder : ArrowEncoder) (batches : List RecordBatch) : Bytes :=
  encoder.staged batches ++ (encoder.onClose batches).flatten

end ArrowEncoder

/-- The batches an Arrow writer has accepted and the bytes it has staged. -/
structure ArrowWriter where
  batches : List RecordBatch
  staged : Bytes

structure WriterStats where
  active : Bool
  batches : Nat
  rows : Nat
  peakBatchBytes : Nat
  peakEncoderBytes : Nat
  multipartBufferLimitBytes : Nat
  deriving DecidableEq, Repr

/-- The statistics after one more batch. -/
def WriterStats.add (stats : WriterStats) (rows batchBytes encoderBytes : Nat) : WriterStats :=
  { stats with
    batches := stats.batches + 1
    rows := stats.rows + rows
    peakBatchBytes := max stats.peakBatchBytes batchBytes
    peakEncoderBytes := max stats.peakEncoderBytes encoderBytes }

structure ParquetWriter where
  writer : Option ArrowWriter
  schema : List Field
  maxBatchRows : Nat
  stats : WriterStats
  cancelled : Bool
  key : String
  /-- The content of the destination. -/
  destination : Option Bytes

/-- A call, and the number of staged operations after which the owner's death is seen by it. -/
inductive WriterCall
  | writeBatch (term : Term) (cancelAfter : Option Nat)
  | close (cancelAfter : Option Nat)
  | cancel
  | abort

inductive WriterReply
  | written (stats : WriterStats)
  | closed (metadata : ObjectMetadata)
  | aborted (active : Bool)
  | failed (failure : NativeFailure)
  | none

def encodeFailure (operation : Operation) : NativeFailure := .new .malformedData operation "Parquet batch encoding failed"

/-- Write chunks to the staged output; a cancelled output refuses the rest. -/
def writeChunks (cancelAfter : Option Nat) (staged : Bytes) (chunks : List Bytes) : Option Bytes :=
  if cancelAfter.any fun n => decide (n < chunks.length) then none else some (staged ++ chunks.flatten)

namespace ParquetWriter

variable (encoder : ArrowEncoder)

def opened (schema : List Field) (maxBatchRows multipartBufferLimitBytes : Nat) (key : String)
    (destination : Option Bytes) : ParquetWriter where
  writer := some { batches := [], staged := encoder.opening.flatten }
  schema := schema
  maxBatchRows := maxBatchRows
  stats := {
    active := true, batches := 0, rows := 0, peakBatchBytes := 0, peakEncoderBytes := 0, multipartBufferLimitBytes }
  cancelled := false
  key := key
  destination := destination

def writeBatch (w : ParquetWriter) (term : Term) (cancelAfter : Option Nat) : WriterReply × ParquetWriter :=
  if w.cancelled then (.failed (.cancelled .parquetWriterWrite), w)
  else if !w.stats.active then (.failed (.cancelled .parquetWriterWrite), w)
  else
    match decodeBatch term w.schema w.maxBatchRows with
    | .error failure => (.failed failure, w)
    | .ok batch =>
      match w.writer with
      | none => (.failed (.cancelled .parquetWriterWrite), w)
      | some writer =>
        match writeChunks cancelAfter writer.staged (encoder.onWrite writer.batches batch) with
        | none => (.failed (encodeFailure .parquetWriterWrite), w)
        | some staged =>
          let writer := { batches := writer.batches ++ [batch], staged }
          let stats := w.stats.add batch.numRows (encoder.memorySize batch) (encoder.inProgressSize writer.batches)
          (.written stats, { w with writer := some writer, stats })

/-- Finish the file and publish it; the publish is the staged operation after the last chunk. -/
def close (w : ParquetWriter) (cancelAfter : Option Nat) : WriterReply × ParquetWriter :=
  if w.cancelled then (.failed (.cancelled .parquetWriterClose), w)
  else
    match w.writer with
    | none => (.failed (.cancelled .parquetWriterClose), w)
    | some writer =>
      let chunks := encoder.onClose writer.batches
      let w := { w with writer := none, stats := { w.stats with active := false } }
      match writeChunks cancelAfter writer.staged chunks with
      | none => (.failed (encodeFailure .parquetWriterClose), w)
      | some content =>
        if cancelAfter.any fun n => decide (n ≤ chunks.length) then (.failed (.cancelled .parquetWriterClose), w)
        else (.closed { path := w.key, size := content.length }, { w with destination := some content })

def abort (w : ParquetWriter) : WriterReply × ParquetWriter :=
  if !w.stats.active then (.aborted false, w)
  else (.aborted true, { w with cancelled := true, writer := none, stats := { w.stats with active := false } })

/-- The token is set once the owner's death was seen. -/
def sees (w : ParquetWriter) (cancelAfter : Option Nat) : ParquetWriter :=
  { w with cancelled := w.cancelled || cancelAfter.isSome }

def step (w : ParquetWriter) : WriterCall → WriterReply × ParquetWriter
  | .writeBatch term cancelAfter =>
    let result := w.writeBatch encoder term cancelAfter
    (result.1, result.2.sees cancelAfter)
  | .close cancelAfter =>
    let result := w.close encoder cancelAfter
    (result.1, result.2.sees cancelAfter)
  | .cancel => (.none, { w with cancelled := true })
  | .abort => w.abort

def machine : Machine ParquetWriter WriterCall WriterReply := ⟨step encoder⟩

end ParquetWriter

end Parquex
