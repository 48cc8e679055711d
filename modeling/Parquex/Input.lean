import Parquex.Batch

/-!
# Finite input

Rows, lists of rows and maps of columns as the library accepts them, and the
batches it makes of them for a schema.
-/

namespace Parquex

namespace Input

def invalid (message : String) : Error := .invalid "parquet_input" message

/-! ## Rows of the input -/

def normalizeName : Term → Option Binary
  | .atom name => some (.text name)
  | .binary name => if name = .text "" then none else some name
  | _ => none

/-- The key a normalized name becomes; none is the atom `nil`. -/
def nameTerm : Option Binary → Term
  | some name => .binary name
  | none => .nil

def isMap : Term → Bool
  | .map _ | .dateTime _ | .naiveDateTime _ => true
  | _ => false

def mapPut {κ α : Type} [DecidableEq κ] (entries : List (κ × α)) (key : κ) (value : α) : List (κ × α) :=
  if key ∈ entries.map Prod.fst then entries.map fun entry => if entry.1 = key then (key, value) else entry
  else entries ++ [(key, value)]

/-- A map of some pairs; the last of several with one key stays. -/
def mapNew {κ α : Type} [DecidableEq κ] (pairs : List (κ × α)) : List (κ × α) :=
  pairs.foldl (fun entries pair => mapPut entries pair.1 pair.2) []

def columnsToRows (columns : List (Term × Term)) : Except Error (List Term) :=
  let pairs := columns.map fun column => (normalizeName column.1, column.2.list?.getD [])
  match (pairs.map fun pair => pair.2.length).eraseDups with
  | [rowCount] => .ok ((List.range rowCount).map fun index =>
      .map ((mapNew (pairs.map fun pair => (pair.1, pair.2.getD index .nil))).map fun entry =>
        (nameTerm entry.1, entry.2)))
  | _ => .error (invalid "column lists must have equal lengths")

def finiteRows (input : Term) : Except Error (List Term) :=
  match input with
  | .list items =>
    if items.all isMap then .ok items
    else .error (invalid "finite input must be a list of row maps or a column map")
  | .map entries =>
    if entries ≠ [] ∧ entries.all (fun entry => entry.2.list?.isSome) then columnsToRows entries else .ok [input]
  | _ => .error (invalid "finite input must be a list of row maps or a column map")

/-! ## Rows of a schema -/

def normalizePair (pair : Term × Term) : Option (Binary × Term) :=
  (normalizeName pair.1).map fun name => (name, pair.2)

/-- The row under unique names; a struct cannot be enumerated. -/
def normalizeRow : Term → Except (Stop Error) (List (Binary × Term))
  | .map entries =>
    match entries.mapM normalizePair with
    | some pairs =>
      if (pairs.map Prod.fst).Nodup then .ok pairs
      else .error (.error (invalid "row keys must be unique atoms or strings"))
    | none => .error (.error (invalid "row keys must be unique atoms or strings"))
  | _ => .error .raised

def validateSchemaNames (rows : List (List (Binary × Term))) (schema : Schema) : Except (Stop Error) Unit :=
  if rows.all fun row => (row.map Prod.fst).isPerm (schema.names.map .text) then .ok ()
  else .error (.error (invalid "row fields must match the supplied schema exactly"))

/-- The nearest double of a value, when it is finite. -/
def float64? (value : Rat) : Option Rat :=
  if value = 0 then some 0
  else
    let quantum := powerOfTwo (max (binaryExponent value) (-1022) - 52)
    let rounded := roundHalfEven (value / quantum) * quantum
    if -powerOfTwo 1024 < rounded ∧ rounded < powerOfTwo 1024 then some rounded else none

def encodeValue (value : Term) (type : FieldType) : Except (Stop Error) Term :=
  match type, value with
  | .flat (.float _), .int value =>
    match float64? value with
    | some value => .ok (.float value)
    | none => .error .raised
  | .flat (.timestamp unit _), .dateTime value => .ok (.int (value.toUnix unit))
  | _, value => .ok value

def encodeField (row : List (Binary × Term)) (field : SchemaField) : Except (Stop Error) (String × Term) :=
  match row.lookup (.text field.name) with
  | some value => do
    let value ← encodeValue value field.type
    return (field.name, value)
  | none => .error .raised

def encodeRow (schema : Schema) (row : List (Binary × Term)) : Except (Stop Error) Row :=
  schema.fields.mapM (encodeField row)

def normalizeRows (rows : List Term) (schema : Schema) : Except Error (List Row) :=
  let normalized : Except (Stop Error) (List Row) := do
    let rows ← rows.mapM normalizeRow
    validateSchemaNames rows schema
    rows.mapM (encodeRow schema)
  match normalized with
  | .ok rows => .ok rows
  | .error (.error error) => .error error
  | .error .raised => .error (invalid "row values do not match the supplied schema")

/-! ## Batches -/

/-- Chunks of `count`; the fuel is the length of the list. -/
def chunkEvery {α : Type} (count : Nat) : Nat → List α → List (List α)
  | 0, _ => []
  | _, [] => []
  | fuel + 1, items => items.take count :: chunkEvery count fuel (items.drop count)

def batches (input : Term) (schema : Schema) (batchRows : Nat) : Except Error (List Batch) := do
  let rows ← finiteRows input
  let normalized ← normalizeRows rows schema
  match normalized with
  | [] => do
    let batch ← Batch.new schema (columnsOf schema [])
    return [batch]
  | rows => (chunkEvery batchRows rows.length rows).mapM fun chunk => Batch.new schema (columnsOf schema chunk)

/-! ## What the batches hold -/

/-- One row of the input under a schema. -/
def encodedRow (schema : Schema) (row : Term) : Except (Stop Error) Row := do
  let row ← normalizeRow row
  validateSchemaNames [row] schema
  encodeRow schema row

end Input

end Parquex
