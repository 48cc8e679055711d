import Parquex.Input
import Parquex.Reader
import Parquex.Utf8Order

/-!
# Predicates of files and of datasets

Both kinds of stream take `{operator, column, literal}`. A file stream hands the
predicate to the native library, which compiles it for the type of its column. A
dataset stream compares the terms of each row itself.
-/

namespace Parquex

/-! ## The order of terms -/

/-- The literals that a predicate compares with. -/
inductive Scalar
  | integer (value : Int)
  | float (value : Rat)
  | binary (value : Binary)
  | boolean (value : Bool)
  deriving DecidableEq

def Term.scalar? : Term → Option Scalar
  | .int value => some (.integer value)
  | .float value => some (.float value)
  | .binary value => some (.binary value)
  | .atom name => if name = "true" then some (.boolean true) else if name = "false" then some (.boolean false) else none
  | _ => none

def Binary.bytes : Binary → List UInt8
  | .text value => utf8Bytes value
  | .raw value => value.bytes.toList

/-- The place of a kind of term in the order of all terms. -/
def Term.rank : Term → Nat
  | .int _ | .float _ => 0
  | .atom _ => 1
  | .other => 2
  | .tuple _ => 3
  | .map _ | .dateTime _ | .naiveDateTime _ => 4
  | .list _ => 5
  | .binary _ => 6

def Scalar.rank : Scalar → Nat
  | .integer _ | .float _ => 0
  | .boolean _ => 1
  | .binary _ => 6

def orderOf {α : Type} [LT α] [DecidableLT α] [DecidableEq α] (left right : α) : Ordering :=
  if left < right then .lt else if left = right then .eq else .gt

/-- Numbers compare by value, atoms by name, binaries by bytes and the rest by kind. -/
def Term.order (left : Term) (right : Scalar) : Ordering :=
  match left, right with
  | .int left, .integer right => orderOf left right
  | .int left, .float right => orderOf (left : Rat) right
  | .float left, .integer right => orderOf left right
  | .float left, .float right => orderOf left right
  | .atom left, .boolean right => orderOf left (if right then "true" else "false")
  | .binary left, .binary right => orderOf left.bytes right.bytes
  | left, right => orderOf left.rank right.rank

/-! ## The dataset stream -/

structure DatasetPredicate where
  operator : PredicateOperator
  column : String
  literal : Scalar
  deriving DecidableEq

def whereOperator (operator : String) : Option PredicateOperator :=
  match operator with
  | "gt" => some .gt
  | "gte" => some .gte
  | "lt" => some .lt
  | "lte" => some .lte
  | "eq" => some .eq
  | _ => none

def datasetInvalid (message : String) : Error := .invalid "dataset_stream" message

/-- `predicate` of a dataset stream. -/
def datasetPredicate (schema : Schema) (condition : Term) : Except Error (Option DatasetPredicate) :=
  match condition with
  | .atom "nil" => .ok none
  | .tuple [.atom operator, column, literal] =>
    match whereOperator operator with
    | none => .error (datasetInvalid "where must be {operator, column, literal}")
    | some operator =>
      match Input.normalizeName column, literal.scalar? with
      | some (.text column), some literal =>
        if (schema.field column).isSome then .ok (some { operator, column, literal })
        else .error (datasetInvalid "where must reference a field with a scalar literal")
      | _, _ => .error (datasetInvalid "where must reference a field with a scalar literal")
  | _ => .error (datasetInvalid "where must be {operator, column, literal}")

def compareTerm (left : Term) (right : Scalar) (operator : PredicateOperator) : Bool :=
  if left.isNil then false
  else
    match operator with
    | .eq => left.order right == .eq
    | .gt => left.order right == .gt
    | .gte => left.order right != .lt
    | .lt => left.order right == .lt
    | .lte => left.order right != .gt

def DatasetPredicate.selects (predicate : DatasetPredicate) (value : Term) : Bool :=
  compareTerm value predicate.literal predicate.operator

/-! ## The file stream -/

/-- The map that goes to the native library. -/
structure PredicateMap where
  operator : String
  column : Binary
  kind : String
  integer : Option Int
  float : Option Rat
  string : Option Binary
  boolean : Option Bool
  deriving DecidableEq

def readerInvalid (message : String) : Error := .invalid "reader_open" message

def literalMap (operator : String) (column : Binary) (literal : Term) : Option PredicateMap :=
  match literal.scalar? with
  | some (.boolean value) =>
    some { operator, column, kind := "boolean", integer := none, float := none, string := none, boolean := value }
  | some (.integer value) =>
    if inI64 value then
      some { operator, column, kind := "integer", integer := value, float := none, string := none, boolean := none }
    else none
  | some (.float value) =>
    some { operator, column, kind := "float", integer := none, float := value, string := none, boolean := none }
  | some (.binary value) =>
    some { operator, column, kind := "utf8", integer := none, float := none, string := value, boolean := none }
  | none => none

def readerName : Term → Option Binary
  | .atom name => some (.text name)
  | .binary name => some name
  | _ => none

def validatePredicate (condition : Term) : Except Error (Option PredicateMap) :=
  match condition with
  | .atom "nil" => .ok none
  | .tuple [.atom operator, column, literal] =>
    if (whereOperator operator).isNone then .error (readerInvalid "where must be {operator, column, literal}")
    else
      match readerName column with
      | none => .error (readerInvalid "predicate literal type is unsupported")
      | some column =>
        match literalMap operator column literal with
        | some predicate =>
          if column = .text "" then .error (readerInvalid "predicate literal type is unsupported")
          else .ok (some predicate)
        | none => .error (readerInvalid "predicate literal type is unsupported")
  | _ => .error (readerInvalid "where must be {operator, column, literal}")

/-- The native strings are valid UTF-8; a map with others is no argument of the call, which raises. -/
def PredicateMap.decode (predicate : PredicateMap) : Except (Stop Error) NativePredicate :=
  let native (column : String) (string : Option String) : NativePredicate :=
    { column, operator := predicate.operator
      literal := { kind := predicate.kind, integer := predicate.integer, float := predicate.float.map .finite, string,
                   boolean := predicate.boolean } }
  match predicate.column, predicate.string with
  | .text column, none => .ok (native column none)
  | .text column, some (.text string) => .ok (native column (some string))
  | _, _ => .error .raised

/-- How the predicate of a file stream is taken: by the library, at the boundary and against the fields of the file. -/
def streamPredicate (fields : List Field) (condition : Term) : Except (Stop Error) (Option CompiledPredicate) := do
  let predicate ← TimePartition.liftError (validatePredicate condition)
  match predicate with
  | none => return none
  | some predicate => do
    let native ← predicate.decode
    TimePartition.nativeResult (compileOptional (some native) fields)

end Parquex
