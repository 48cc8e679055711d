import Parquex.ChunkReader
import Parquex.FileRead
import Parquex.Program
import Parquex.RemoteWriter

/-!
# Files under the keys of a store

What a stream finds under a key. The Parquet library is given a range reader of the
object, and asks it for the metadata and, as the batches are decoded, for pages.
-/

namespace Parquex

/-! ## Ranges of an object -/

/-- What the Parquet library asks a range reader for. -/
inductive RangeCall
  | getRead (start : Nat)
  | getBytes (start length : Nat)
  | read (cursor bufferLength : Nat)
  deriving DecidableEq, Repr

def RangeCall.call : RangeCall → ObjectChunkReader.Call
  | .getRead start => .getRead start
  | .getBytes start length => .getBytes start length
  | .read cursor bufferLength => .read cursor bufferLength

abbrev RangeProgram (α : Type) := Program RangeCall ObjectChunkReader.Reply α

def ObjectChunkReader.ranges {σ : Type} (reader : ObjectChunkReader σ) (state : σ) (usizeMax : Nat) :
    Machine Session RangeCall Reply :=
  ⟨fun session range => reader.serve state usizeMax session range.call⟩

/-! ## The Parquet library -/

/-- The builder of a record batch reader. It is made over an object of a size, and decodes all columns of some row
groups in batches of at most so many rows. -/
structure ParquetReaders where
  Builder : Type
  tryNew : Nat → RangeProgram (Option Builder)
  schema : Builder → List Field
  metaData : Builder → ParquetMetaData
  decode : (builder : Builder) → Nat → List Nat →
    RangeProgram (List (Except ParquetError { batch : RecordBatch // batch.Holds (schema builder) }))

namespace ParquetReaders

variable (readers : ParquetReaders)

/-- What decoding some row groups answers. -/
abbrev Decoded (builder : readers.Builder) :=
  List Nat → List (Except ParquetError { batch : RecordBatch // batch.Holds (readers.schema builder) })

def file (builder : readers.Builder) (decoded : readers.Decoded builder) : ParquetFile where
  schema := readers.schema builder
  metaData := readers.metaData builder
  batches rowGroups := (decoded rowGroups).map fun result => result.map Subtype.val
  holds := by
    intro rowGroups batch hbatch
    obtain ⟨result, -, hresult⟩ := List.mem_map.mp hbatch
    obtain ⟨batch, -, rfl⟩ := except_map_eq_ok.mp hresult
    exact batch.property

/-! ## Opening -/

def malformedOpen : NativeFailure := .new .malformedData .readerOpen "Parquet metadata is malformed"

/-- The object under a key as a file, while nothing changes the object. -/
def openStore {σ : Type} (resource : NativeStore σ) (state : σ) (maxRangeBytes : Nat) : FileStream.Files := fun key =>
  match resource.head state key with
  | .error failure => .error { failure with operation := .readerOpen }
  | .ok metadata =>
    let reader : ObjectChunkReader σ := { resource, key, size := metadata.size, maxRangeBytes }
    let ranges := reader.ranges state usizeMax
    match (readers.tryNew metadata.size).run ranges {} with
    | none => .error malformedOpen
    | some builder =>
      .ok fun batchSize => readers.file builder fun rowGroups =>
        (readers.decode builder batchSize rowGroups).run ranges {}

end ParquetReaders

end Parquex
