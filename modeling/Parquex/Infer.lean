import Parquex.DatasetPredicate
import Parquex.Input

/-!
# Inferred schemas

The schema that the library makes of finite input without one, from the kinds of
the values under each name, and the batches under it. The names of such a schema
are whatever binaries the rows have.
-/

namespace Parquex

namespace Input

/-! ## Kinds of values -/

inductive ValueKind
  | boolean | integer | float | datetime | utf8 | binary | unsupported
  deriving DecidableEq, Repr

def valueKind : Term → ValueKind
  | .atom name => if name = "true" ∨ name = "false" then .boolean else .unsupported
  | .int _ => .integer
  | .float _ => .float
  | .dateTime _ => .datetime
  | .binary (.text _) => .utf8
  | .binary (.raw _) => .binary
  | _ => .unsupported

/-- The type of a column whose values other than `nil` have these kinds. -/
def kindsType (kinds : List ValueKind) : Option FlatType :=
  if ∀ kind ∈ kinds, kind = .integer then some (.integer 64 true)
  else if ∀ kind ∈ kinds, kind = .integer ∨ kind = .float then some (.float 64)
  else if ∀ kind ∈ kinds, kind = .boolean then some .boolean
  else if ∀ kind ∈ kinds, kind = .utf8 then some .utf8
  else if ∀ kind ∈ kinds, kind = .binary then some .binary
  else if ∀ kind ∈ kinds, kind = .datetime then some (.timestamp .microsecond (some "UTC"))
  else none

/-! ## Fields -/

structure InferredField where
  name : Binary
  type : FlatType
  nullable : Bool
  deriving DecidableEq

section
variable (inspect : Binary → String)

def inferType (name : Binary) (values : List Term) : Except Error FlatType :=
  if values = [] then
    .error (invalid ("cannot infer all-null field " ++ inspect name ++ "; supply an explicit schema"))
  else
    match kindsType (values.map valueKind) with
    | some type => .ok type
    | none => .error (invalid ("field " ++ inspect name ++ " contains incompatible or unsupported values"))

def inferField (name : Binary) (values : List Term) : Except Error InferredField := do
  let nonNull := values.filter fun value => !value.isNil
  let type ← inferType inspect name nonNull
  return { name, type, nullable := nonNull.length != values.length }

/-- Binaries are sorted by their bytes. -/
def sortNames (names : List Binary) : List Binary := names.insertionSort fun left right => ¬ right.bytes < left.bytes

def consistentNames (rows : List (List (Binary × Term))) : Except Error (List Binary) :=
  let names := sortNames ((rows.headD []).map Prod.fst)
  if names ≠ [] ∧ ∀ row ∈ rows, sortNames (row.map Prod.fst) = names then .ok names
  else .error (invalid "all rows must contain the same non-empty set of fields")

/-- A row is a map with unique keys; a missing key raises. -/
def fetchField (row : List (Binary × Term)) (name : Binary) : Except (Stop Error) Term :=
  match row.lookup name with
  | some value => .ok value
  | none => .error .raised

def infer (rows : List Term) : Except (Stop Error) (List InferredField) :=
  if rows = [] then .error (.error (invalid "cannot infer a schema from empty input; supply :schema"))
  else do
    let rows ← rows.mapM normalizeRow
    let names ← TimePartition.liftError (consistentNames rows)
    names.mapM fun name => do
      let values ← rows.mapM fun row => fetchField row name
      TimePartition.liftError (inferField inspect name values)

end

/-! ## Batches -/

def encodeInferred (fields : List InferredField) (row : List (Binary × Term)) :
    Except (Stop Error) (List (Binary × Term)) :=
  fields.mapM fun field => do
    let value ← fetchField row field.name
    let value ← encodeValue value (.flat field.type)
    return (field.name, value)

/-- The rows under the inferred names, which are those of each row; what raises is rescued. -/
def normalizeInferred (rows : List Term) (fields : List InferredField) :
    Except Error (List (List (Binary × Term))) :=
  let normalized : Except (Stop Error) (List (List (Binary × Term))) := do
    let rows ← rows.mapM normalizeRow
    rows.mapM (encodeInferred fields)
  match normalized with
  | .ok rows => .ok rows
  | .error (.error error) => .error error
  | .error .raised => .error (invalid "row values do not match the supplied schema")

/-- The inferred fields, and the rows of each batch. -/
def inferAndBatches (inspect : Binary → String) (input : Term) (batchRows : Nat) :
    Except (Stop Error) (List InferredField × List (List (List (Binary × Term)))) := do
  let rows ← TimePartition.liftError (finiteRows input)
  let fields ← infer inspect rows
  let encoded ← TimePartition.liftError (normalizeInferred rows fields)
  return (fields, chunkEvery batchRows encoded.length encoded)

end Input

end Parquex
