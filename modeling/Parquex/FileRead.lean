import Parquex.DatasetPredicate
import Parquex.FiniteRows
import Parquex.ObjectKey

/-!
# Reading a file

The options of a stream over one file, checked in the order of the library before
anything is opened, and all the batches of that stream as rows.
-/

namespace Parquex

namespace FileStream

/-! ## Options -/

/-- A keyword list of a stream. -/
abbrev Options := List (String × Term)

def optionKeys : List String := ["batch_size", "prefetch_depth", "columns", "where"]

def maxPrefetchDepth : Nat := 16

def validateKeys (options : Options) : Except Error Unit :=
  if (options.map Prod.fst).diff optionKeys = [] then .ok () else .error (readerInvalid "unknown stream option")

def positiveInteger (options : Options) (key : String) (default : Int) : Except Error Nat :=
  let refused := .error (readerInvalid (key ++ " must be a positive integer"))
  match (options.lookup key).getD (.int default) with
  | .int value => if 0 < value then .ok value.toNat else refused
  | _ => refused

def validatePrefetch (depth : Nat) : Except Error Unit :=
  if depth ≤ maxPrefetchDepth then .ok () else .error (readerInvalid "prefetch_depth exceeds the maximum")

def columnsInvalid : Error := readerInvalid "columns must be a non-empty list of unique names"

def validateColumns (columns : Term) : Except Error (List Binary) :=
  match columns with
  | .atom "nil" => .ok []
  | .list columns =>
    match columns.mapM readerName with
    | some names => if names ≠ [] ∧ Binary.text "" ∉ names ∧ names.Nodup then .ok names else .error columnsInvalid
    | none => .error columnsInvalid
  | _ => .error columnsInvalid

/-- The map of options that goes to the native library. -/
structure ReaderOptions where
  batchSize : Nat
  prefetchDepth : Nat
  columns : List Binary
  predicate : Option PredicateMap

def readerOptions (options : Options) : Except Error ReaderOptions := do
  validateKeys options
  let batchSize ← positiveInteger options "batch_size" 1024
  let prefetchDepth ← positiveInteger options "prefetch_depth" 1
  validatePrefetch prefetchDepth
  let columns ← validateColumns ((options.lookup "columns").getD .nil)
  let predicate ← validatePredicate ((options.lookup "where").getD .nil)
  return { batchSize, prefetchDepth, columns, predicate }

def decodePredicate (predicate : Option PredicateMap) : Except (Stop Error) (Option NativePredicate) :=
  match predicate with
  | none => .ok none
  | some predicate => do
    let predicate ← predicate.decode
    return some predicate

/-- The native call takes words of 64 bits and valid strings; other options are no argument of it, which raises. -/
def ReaderOptions.decode (options : ReaderOptions) : Except (Stop Error) (Nat × ReaderOpenSettings) :=
  if 2 ^ 64 ≤ options.batchSize then .error .raised
  else
    match options.columns.mapM fun column => (Term.binary column).string? with
    | none => .error .raised
    | some columns => do
      let predicate ← decodePredicate options.predicate
      return (options.batchSize, { prefetchDepth := options.prefetchDepth, columns, predicate })

/-! ## Streams -/

/-- What the native library finds under a key: no file that it can open, or a file for every size of batches. -/
abbrev Files := String → Except NativeFailure (Nat → ParquetFile)

/-- `Parquex.stream`. -/
def openWith (files : Files) (key : String) (options : Options) : Except (Stop Error) (ReaderState × Schema) := do
  let key ← TimePartition.liftError (normalizeKey key)
  let options ← TimePartition.liftError (readerOptions options)
  let (batchSize, settings) ← options.decode
  let file ← TimePartition.nativeResult (files key)
  let (state, fields) ← Finite.nativeStop (openBackend (file batchSize) settings)
  let schema ← TimePartition.liftError (Schema.fromNative fields)
  return (state, schema)

/-- `Parquex.read`, unless the fuel runs out. -/
def read (memorySize : RecordBatch → Nat) (files : Files) (key : String) (options : Options) (fuel : Nat) :
    Option (Except (Stop Error) (List Row)) :=
  match openWith files key options with
  | .error stop => some (.error stop)
  | .ok (state, schema) =>
    (Finite.toList memorySize schema fuel state).map fun batches => batches.map Finite.decodeRows

end FileStream

end Parquex
