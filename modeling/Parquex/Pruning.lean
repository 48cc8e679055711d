import Parquex.Arrow

/-!
# Predicates and row-group pruning

A predicate compares one root column with a literal. Row groups whose statistics
exclude every match are not read; the rows of the others are masked.
-/

namespace Parquex

/-! ## Compiled predicates -/

inductive PredicateOperator
  | gt | gte | lt | lte | eq
  deriving DecidableEq, Repr

inductive PredicateLiteral
  | integer (value : Int)
  | float (value : Double)
  | utf8 (value : String)
  | boolean (value : Bool)
  deriving DecidableEq, Repr

inductive PruneKind
  | int32 | int64
  deriving DecidableEq, Repr

/-- A literal with the name of its kind. -/
structure NativeLiteral where
  kind : String
  integer : Option Int
  float : Option Double
  string : Option String
  boolean : Option Bool

structure NativePredicate where
  column : String
  operator : String
  literal : NativeLiteral

structure CompiledPredicate where
  column : String
  columnIndex : Nat
  rootIndex : Nat
  operator : PredicateOperator
  literal : PredicateLiteral
  pruneKind : Option PruneKind
  deriving DecidableEq, Repr

def predicateLiteralError : NativeFailure :=
  .invalid .readerOpen "predicate literal does not match the column type"

def literalOf {α : Type} (literal : NativeLiteral) (kind : String) (value : Option α) : Except NativeFailure α :=
  if literal.kind = kind then
    match value with
    | some value => .ok value
    | none => .error predicateLiteralError
  else .error predicateLiteralError

def integerLiteral (literal : NativeLiteral) : Except NativeFailure Int := literalOf literal "integer" literal.integer

def floatLiteral (literal : NativeLiteral) : Except NativeFailure Double :=
  literalOf literal "float" (literal.float.filter fun value =>
    match value with
    | .finite _ => true
    | _ => false)

def stringLiteral (literal : NativeLiteral) : Except NativeFailure String := literalOf literal "utf8" literal.string

def booleanLiteral (literal : NativeLiteral) : Except NativeFailure Bool := literalOf literal "boolean" literal.boolean

def predicateOperator (operator : String) : Except NativeFailure PredicateOperator :=
  match operator with
  | "gt" => .ok .gt
  | "gte" => .ok .gte
  | "lt" => .ok .lt
  | "lte" => .ok .lte
  | "eq" => .ok .eq
  | _ => .error (.invalid .readerOpen "predicate operator is unsupported")

/-- The literal of a column type and the statistics that can prune it. -/
def predicateLiteral (dataType : DataType) (operator : PredicateOperator) (literal : NativeLiteral) :
    Except NativeFailure (PredicateLiteral × Option PruneKind) :=
  let unsupported := .error (.new .unsupported .readerOpen "predicate column type or operator is unsupported")
  match dataType with
  | .scalar (.integer .int32) => do return (.integer (← integerLiteral literal), some .int32)
  | .scalar (.integer .int64) => do return (.integer (← integerLiteral literal), some .int64)
  | .scalar (.integer _) => do return (.integer (← integerLiteral literal), none)
  | .scalar .float32 | .scalar .float64 => do return (.float (← floatLiteral literal), none)
  | .scalar .utf8 | .scalar .largeUtf8 => do return (.utf8 (← stringLiteral literal), none)
  | .scalar .boolean =>
    if operator = .eq then do return (.boolean (← booleanLiteral literal), none) else unsupported
  | _ => unsupported

def compilePredicate (predicate : NativePredicate) (fields : List Field) : Except NativeFailure CompiledPredicate :=
  match fields.findIdx? (fun field => field.name == predicate.column) with
  | none => .error (.invalid .readerOpen "predicate column does not exist")
  | some rootIndex => do
    let operator ← predicateOperator predicate.operator
    match fields[rootIndex]? with
    | none => .error (.invalid .readerOpen "predicate column does not exist")
    | some field =>
      let (literal, pruneKind) ← predicateLiteral field.dataType operator predicate.literal
      return { column := predicate.column, columnIndex := 0, rootIndex, operator, literal, pruneKind }

/-! ## Statistics -/

structure ValueStatistics where
  min : Option Int
  max : Option Int
  deriving DecidableEq, Repr

inductive TypedStatistics
  | int32 (values : ValueStatistics)
  | int64 (values : ValueStatistics)
  | other
  deriving DecidableEq, Repr

structure Statistics where
  values : TypedStatistics
  nullCount : Option Nat
  minIsExact : Bool
  maxIsExact : Bool
  deriving DecidableEq, Repr

structure RowGroupMetaData where
  numRows : Int
  /-- The statistics of each leaf column. -/
  columns : List (Option Statistics)
  deriving DecidableEq, Repr

structure ParquetMetaData where
  /-- The paths of the leaf columns. -/
  columns : List (List String)
  rowGroups : List RowGroupMetaData
  deriving DecidableEq, Repr

def integerStatisticsSkip (min max : Option Int) (minExact maxExact : Bool) (literal : Int)
    (operator : PredicateOperator) : Bool :=
  match operator with
  | .gt => maxExact && max.any fun max => decide (max ≤ literal)
  | .gte => maxExact && max.any fun max => decide (max < literal)
  | .lt => minExact && min.any fun min => decide (min ≥ literal)
  | .lte => minExact && min.any fun min => decide (min > literal)
  | .eq => (minExact && min.any fun min => decide (min > literal)) ||
      (maxExact && max.any fun max => decide (max < literal))

/-- The statistics show that no row of the group matches. -/
def skipRowGroup (predicate : CompiledPredicate) (pruneKind : PruneKind) (rowGroup : RowGroupMetaData)
    (statistics : Statistics) : Bool :=
  if statistics.nullCount = (if 0 ≤ rowGroup.numRows then some rowGroup.numRows.toNat else none) then true
  else
    match pruneKind, statistics.values, predicate.literal with
    | .int32, .int32 values, .integer literal =>
      integerStatisticsSkip values.min values.max statistics.minIsExact statistics.maxIsExact literal predicate.operator
    | .int64, .int64 values, .integer literal =>
      integerStatisticsSkip values.min values.max statistics.minIsExact statistics.maxIsExact literal predicate.operator
    | _, _, _ => false

def columnSkips (predicate : CompiledPredicate) (pruneKind : PruneKind) (columnIndex : Nat)
    (rowGroup : RowGroupMetaData) : Bool :=
  (rowGroup.columns[columnIndex]?.join).any (skipRowGroup predicate pruneKind rowGroup)

/-- The first leaf column beneath the root column of that name. -/
def leafColumn (metadata : ParquetMetaData) (column : String) : Option Nat :=
  metadata.columns.findIdx? fun path => path.head? == some column

def selectRowGroups (metadata : ParquetMetaData) (predicate : Option CompiledPredicate) : List Nat :=
  let all := List.range metadata.rowGroups.length
  match predicate with
  | none => all
  | some predicate =>
    match predicate.pruneKind with
    | none => all
    | some pruneKind =>
      match leafColumn metadata predicate.column with
      | none => all
      | some columnIndex =>
        metadata.rowGroups.zipIdx.filterMap fun entry =>
          if columnSkips predicate pruneKind columnIndex entry.1 then none else some entry.2

/-! ## Masks -/

def compareInteger (value literal : Int) : PredicateOperator → Bool
  | .gt => decide (value > literal)
  | .gte => decide (value ≥ literal)
  | .lt => decide (value < literal)
  | .lte => decide (value ≤ literal)
  | .eq => decide (value = literal)

def compareFloat (value literal : Double) : PredicateOperator → Bool
  | .gt => literal.lt value
  | .gte => literal.lt value || literal.eq value
  | .lt => value.lt literal
  | .lte => value.lt literal || value.eq literal
  | .eq => value.eq literal

def compareStr (value literal : String) : PredicateOperator → Bool
  | .gt => decide (value > literal)
  | .gte => decide (value ≥ literal)
  | .lt => decide (value < literal)
  | .lte => decide (value ≤ literal)
  | .eq => decide (value = literal)

/-- The mask of a column array; only arrays of the literal's kind are compared. -/
def arrayMask (array : ArrowArray) (literal : PredicateLiteral) (operator : PredicateOperator) :
    Option (List (Option Bool)) :=
  match literal, array with
  | .integer literal, .flat (.integer _) (.integers values) =>
    some (values.map fun value => value.map fun value => compareInteger value literal operator)
  | .float literal, .flat .float32 (.floats values) | .float literal, .flat .float64 (.floats values) =>
    some (values.map fun value => value.map fun value => compareFloat value literal operator)
  | .utf8 literal, .flat .utf8 (.strings values) | .utf8 literal, .flat .largeUtf8 (.strings values) =>
    some (values.map fun value => value.map fun value => compareStr value literal operator)
  | .boolean literal, .flat .boolean (.booleans values) =>
    some (values.map fun value => value.map fun value => value == literal)
  | _, _ => none

def predicateMask (columns : List ArrowArray) (predicate : CompiledPredicate) :
    Except NativeFailure (List (Option Bool)) :=
  match (columns[predicate.columnIndex]?).bind fun array => arrayMask array predicate.literal predicate.operator with
  | some mask => .ok mask
  | none => .error (.new .malformedData .readerNext "predicate column data is incompatible")

/-- The rows whose mask is true; a null mask entry drops its row. -/
def filterRows {ρ : Type} (mask : List (Option Bool)) (rows : List ρ) : List ρ :=
  (rows.zip mask).filterMap fun (row, kept) => if kept = some true then some row else none

end Parquex
