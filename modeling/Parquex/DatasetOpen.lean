import Parquex.DatasetStream

/-!
# Opening a dataset stream

The options of a stream: its bounds, the columns it returns, a condition on its
rows and how many partitions it may plan. Both bounds are encoded in the unit of
the dataset before anything is compared with them.
-/

namespace Parquex

namespace DatasetStream

/-- A keyword list of a stream. -/
abbrev Options := List (String × Term)

def optionKeys : List String :=
  ["from", "until", "columns", "where", "batch_size", "prefetch_depth", "max_partitions"]

def validateOptions (options : Options) : Except Error Unit :=
  if (options.map Prod.fst).diff optionKeys = [] then .ok ()
  else .error (datasetInvalid "unknown dataset stream option")

def required (options : Options) (key : String) : Except Error Term :=
  match options.lookup key with
  | some value => .ok value
  | none => .error (datasetInvalid "dataset stream requires :from and :until")

def projection (schema : Schema) (columns : Term) : Except Error Schema :=
  match columns with
  | .atom "nil" => .ok schema
  | .list (column :: columns) =>
    let names := (column :: columns).map Input.normalizeName
    if (∀ name ∈ names, name ∈ schema.names.map fun name => some (.text name)) ∧ names.Nodup then
      .ok { fields := schema.fields.filter fun field => names.contains (some (.text field.name)) }
    else .error (datasetInvalid "columns must be unique dataset field names")
  | _ => .error (datasetInvalid "columns must be a non-empty list")

/-- The settings of the traversal and the planned partitions. -/
def openWith (dataset : Dataset) (options : Options) : Except (Stop Error) (Settings × List Partition) := do
  TimePartition.liftError (validateOptions options)
  let from' ← TimePartition.liftError (required options "from")
  let until' ← TimePartition.liftError (required options "until")
  let fromEncoded ← TimePartition.liftError (dataset.partition.normalizeTimestamp from')
  let untilEncoded ← TimePartition.liftError (dataset.partition.normalizeTimestamp until')
  let plans ← dataset.partition.planWith from' until'
    [("max_partitions", (options.lookup "max_partitions").getD (.int 10000))]
  let outputSchema ← TimePartition.liftError (projection dataset.schema ((options.lookup "columns").getD .nil))
  let predicate ← TimePartition.liftError (datasetPredicate dataset.schema ((options.lookup "where").getD .nil))
  return ({ dataset, outputSchema, from' := fromEncoded.1, until' := untilEncoded.1, predicate }, plans)

end DatasetStream

end Parquex
