import Parquex.DatasetOpen
import Parquex.FiniteRows
import Parquex.Store

/-!
# Reading a dataset

All the batches of a stream taken one after another, as rows. What the stream
makes of its partitions is also written as one traversal, without a state.
-/

namespace Parquex

/-- Some columns of a row. -/
def Row.select (names : List String) (row : Row) : Row := names.map fun name => (name, row.get name)

namespace DatasetStream

/-- The columns that the files are read with, in the order of the schema. -/
def internalNames (dataset : Dataset) (outputNames : List String) (predicate : Option DatasetPredicate) :
    List String :=
  let required := dataset.column :: outputNames ++ (predicate.map DatasetPredicate.column).toList
  dataset.schema.names.filter fun name => required.contains name

/-- The fields and batches that the native reader returns of a file. -/
structure FileReading where
  fields : List NativeField
  batches : List Term

/-- A reading returns these columns of some rows, in whatever batches. -/
def FileReading.Returns (reading : FileReading) (names : List String) (rows : List Row) : Prop :=
  ∃ schema batches, Schema.fromNative reading.fields = .ok schema ∧ schema.names = names ∧
    List.Forall₂ (fun native batch => Batch.fromNative schema native = .ok batch) reading.batches batches ∧
    batches.flatMap Batch.toRows = rows.map (Row.select names)

/-- A store as a stream uses it. -/
structure Shelf where
  list : String → Except Error (List String)
  file : String → FileReading

section
variable (settings : Settings) (source : Source)

/-- A row that the stream returns. -/
def selected (row : Row) : Bool :=
  inRange (row.get settings.dataset.column) settings.from' settings.until' &&
    settings.predicate.all fun predicate => predicate.selects (row.get predicate.column)

/-- `Enum.to_list` of an enumeration, unless the fuel runs out. -/
def toList : Nat → Enumeration → Option (Except Error (List Batch))
  | 0, _ => none
  | fuel + 1, s =>
    match s.phase with
    | .ended => some (.ok [])
    | .idle => toList fuel (step settings source s .demand).2
    | .running _ =>
      match step settings source s .turn with
      | (.none, s) => toList fuel s
      | (.batch output, s) => (toList fuel s).map fun rest => rest.map (output :: ·)
      | (.raised error, _) => some (.error error)

/-! ## The traversal -/

variable (shelf : Shelf)

/-- The batches that a stream emits of a file. -/
def fileBatches (reading : FileReading) : Except Error (List Batch) := do
  let schema ← Schema.fromNative reading.fields
  let outputs ← reading.batches.mapM (receive settings schema)
  return outputs.filter fun output => output.rowCount ≠ 0

def traverseFiles : List String → Except Error (List Batch)
  | [] => .ok []
  | key :: files => do
    let batches ← fileBatches settings (shelf.file key)
    let rest ← traverseFiles files
    return batches ++ rest

def traverse : List String → Except Error (List Batch)
  | [] => .ok []
  | path :: plans => do
    let keys ← shelf.list (partitionPrefix settings path)
    let batches ← traverseFiles settings shelf (parquetFiles keys)
    let rest ← traverse plans
    return batches ++ rest

/-! ## Answers of a store -/

/-- What a consumer of every batch does next. -/
def Enumeration.pull (s : Enumeration) : Enumeration :=
  match s.phase with
  | .idle => (step settings source s .demand).2
  | .running _ => (step settings source s .turn).2
  | .ended => s

/-- An enumeration that the consumer comes to. -/
def Reached (plans : List String) (s : Enumeration) : Prop :=
  ∃ n, (Enumeration.pull settings source)^[n] (start plans) = s

/-- A reader opened by a call returns its batches to the calls that follow, then its end. -/
structure Opens (reading : FileReading) (call : Nat) (key : String) : Prop where
  fields : source.openReader call key = .ok reading.fields
  batches : ∀ i ≤ reading.batches.length, source.next (call + 1 + i) = .ok reading.batches[i]?

/-- The call that an enumeration makes next is answered by a shelf. -/
def Answered (s : Enumeration) : Prop :=
  match s.phase with
  | .running { plans := path :: _, files := [], current := none } =>
    source.list s.world.calls (partitionPrefix settings path) = shelf.list (partitionPrefix settings path)
  | .running { files := key :: _, current := none, .. } => Opens source (shelf.file key) s.world.calls key
  | _ => True

/-- The calls of a stream are answered by a shelf. -/
def Answers (plans : List String) : Prop :=
  ∀ s, Reached settings source plans s → Answered settings source shelf s

end

end DatasetStream

/-- The listings of a store and the files that its keys are read as. -/
def Store.shelf {σ : Type} (store : Store σ) (state : σ) (file : String → DatasetStream.FileReading) :
    DatasetStream.Shelf where
  list := fun text => (store.list state text).map fun entries => entries.map Metadata.key
  file

/-- `Dataset.read`. -/
def Dataset.read (dataset : Dataset) (options : DatasetStream.Options) (source : DatasetStream.Source) (fuel : Nat) :
    Option (Except (Stop Error) (List Row)) :=
  match DatasetStream.openWith dataset options with
  | .error stop => some (.error stop)
  | .ok (settings, plans) =>
    (DatasetStream.toList settings source fuel (DatasetStream.start (plans.map Partition.path))).map fun batches =>
      TimePartition.liftError (batches.map Finite.decodeRows)

end Parquex
