import Parquex.EventTime
import Parquex.NativeSchema

/-!
# Schemas of public descriptors

A caller builds a schema of terms. The constructor takes the descriptors of fields
apart, checks some types by itself and asks the encoder about the rest; nothing in
an accepted type needs to be one that the native boundary knows.
-/

namespace Parquex

namespace PublicSchema

/-! ## Terms -/

/-- How going through a term ends, after what it yields. -/
inductive Ending
  | done | functionClause | raised
  deriving DecidableEq

/-- The terms of a descriptor. `other` is of none of the kinds before it: it has the entries of a
struct, and yields what it is enumerated to. -/
inductive SchemaTerm
  | atom (name : String)
  | int (value : Int)
  | binary (value : Binary)
  | list (items : List SchemaTerm)
  | tuple (items : List SchemaTerm)
  | field (name type nullable : SchemaTerm)
  | map (entries : List (SchemaTerm × SchemaTerm))
  | other (entries : List (SchemaTerm × SchemaTerm)) (items : List SchemaTerm) (ending : Ending)

namespace SchemaTerm

mutual
def beq : SchemaTerm → SchemaTerm → Bool
  | .atom name, .atom name' => name == name'
  | .int value, .int value' => value == value'
  | .binary value, .binary value' => decide (value = value')
  | .list items, .list items' => beqItems items items'
  | .tuple items, .tuple items' => beqItems items items'
  | .field name type nullable, .field name' type' nullable' =>
    beq name name' && beq type type' && beq nullable nullable'
  | .map entries, .map entries' => beqEntries entries entries'
  | .other entries items ending, .other entries' items' ending' =>
    beqEntries entries entries' && beqItems items items' && decide (ending = ending')
  | _, _ => false

def beqItems : List SchemaTerm → List SchemaTerm → Bool
  | [], [] => true
  | item :: items, item' :: items' => beq item item' && beqItems items items'
  | _, _ => false

def beqEntries : List (SchemaTerm × SchemaTerm) → List (SchemaTerm × SchemaTerm) → Bool
  | [], [] => true
  | (key, value) :: entries, (key', value') :: entries' =>
    beq key key' && beq value value' && beqEntries entries entries'
  | _, _ => false
end

mutual
theorem beq_iff : ∀ term term' : SchemaTerm, beq term term' = true ↔ term = term'
  | .atom _, term' => by cases term' <;> simp [beq]
  | .int _, term' => by cases term' <;> simp [beq]
  | .binary _, term' => by cases term' <;> simp [beq]
  | .list items, term' => by cases term' <;> simp [beq, beqItems_iff items]
  | .tuple items, term' => by cases term' <;> simp [beq, beqItems_iff items]
  | .field name type nullable, term' => by
    cases term' <;> simp [beq, beq_iff name, beq_iff type, beq_iff nullable, and_assoc]
  | .map entries, term' => by cases term' <;> simp [beq, beqEntries_iff entries]
  | .other entries items _, term' => by
    cases term' <;> simp [beq, beqEntries_iff entries, beqItems_iff items, and_assoc]

theorem beqItems_iff : ∀ items items' : List SchemaTerm, beqItems items items' = true ↔ items = items'
  | [], items' => by cases items' <;> simp [beqItems]
  | item :: items, items' => by cases items' <;> simp [beqItems, beq_iff item, beqItems_iff items]

theorem beqEntries_iff : ∀ entries entries' : List (SchemaTerm × SchemaTerm),
    beqEntries entries entries' = true ↔ entries = entries'
  | [], entries' => by cases entries' <;> simp [beqEntries]
  | (key, value) :: entries, entries' => by
    cases entries' <;> simp [beqEntries, beq_iff key, beq_iff value, beqEntries_iff entries, Prod.ext_iff]
end

instance : DecidableEq SchemaTerm := fun term term' => decidable_of_iff _ (beq_iff term term')

/-! ## Guards -/

def isBoolean : SchemaTerm → Bool
  | .atom name => name == "true" || name == "false"
  | _ => false

def isOneOf (values : List Int) : SchemaTerm → Bool
  | .int value => values.contains value
  | _ => false

def isPositive : SchemaTerm → Bool
  | .int value => decide (0 < value)
  | _ => false

def isInteger : SchemaTerm → Bool
  | .int _ => true
  | _ => false

def isAtomOf (names : List String) : SchemaTerm → Bool
  | .atom name => names.contains name
  | _ => false

def isUnit : SchemaTerm → Bool := isAtomOf ["second", "millisecond", "microsecond", "nanosecond"]

/-- A binary or `nil`. -/
def isTimezone : SchemaTerm → Bool
  | .binary _ => true
  | .atom name => name == "nil"
  | _ => false

/-- The entry under an atom. -/
def entry? (entries : List (SchemaTerm × SchemaTerm)) (name : String) : Option SchemaTerm :=
  (entries.find? fun entry => entry.1 = .atom name).map Prod.snd

end SchemaTerm

/-! ## Kinds -/

def kindAtom : Kind → String
  | .null => "null"
  | .boolean => "boolean"
  | .integer => "integer"
  | .float => "float"
  | .utf8 => "utf8"
  | .binary => "binary"
  | .fixedBinary => "fixed_binary"
  | .date32 => "date32"
  | .date64 => "date64"
  | .time => "time"
  | .timestamp => "timestamp"
  | .duration => "duration"
  | .decimal => "decimal"
  | .list => "list"
  | .largeList => "large_list"
  | .fixedList => "fixed_list"
  | .struct => "struct"

def kinds : List Kind :=
  [.null, .boolean, .integer, .float, .utf8, .binary, .fixedBinary, .date32, .date64, .time, .timestamp, .duration,
    .decimal, .list, .largeList, .fixedList, .struct]

def kindOf (name : String) : Option Kind := kinds.find? fun kind => kindAtom kind == name

/-- The kinds of types that are atoms. -/
def isPlain : Kind → Bool
  | .boolean | .utf8 | .binary | .date32 | .date64 | .null => true
  | _ => false

/-- The type of a kind, with its arguments. -/
def typed (kind : Kind) (args : List SchemaTerm) : SchemaTerm := .tuple (.atom (kindAtom kind) :: args)

/-! ## The library encodes -/

/-- The entries of an encoded type, of which a kind sets its own. -/
structure TypeEntries where
  kind : Kind
  bitWidth : SchemaTerm := .atom "nil"
  signed : SchemaTerm := .atom "nil"
  unit : SchemaTerm := .atom "nil"
  timezone : SchemaTerm := .atom "nil"
  precision : SchemaTerm := .atom "nil"
  scale : SchemaTerm := .atom "nil"
  length : SchemaTerm := .atom "nil"

mutual
inductive NativeTerm
  | mk (entries : TypeEntries) (children : List NativeFieldTerm)

inductive NativeFieldTerm
  | mk (name nullable : SchemaTerm) (dataType : NativeTerm)
end

/-- No clause of a function takes its arguments, or something else is raised. -/
inductive Raise
  | functionClause | other
  deriving DecidableEq

mutual
def encodeType : SchemaTerm → Except Raise NativeTerm
  | .atom name =>
    match kindOf name with
    | some kind => if isPlain kind then .ok (.mk { kind } []) else .error .functionClause
    | none => .error .functionClause
  | .tuple (.atom name :: args) =>
    match kindOf name, args with
    | some .integer, [bits, signed] => .ok (.mk { kind := .integer, bitWidth := bits, signed } [])
    | some .float, [bits] => .ok (.mk { kind := .float, bitWidth := bits } [])
    | some .fixedBinary, [length] => .ok (.mk { kind := .fixedBinary, length } [])
    | some .time, [unit, bits] => .ok (.mk { kind := .time, unit, bitWidth := bits } [])
    | some .timestamp, [unit, timezone] => .ok (.mk { kind := .timestamp, unit, timezone } [])
    | some .duration, [unit] => .ok (.mk { kind := .duration, unit } [])
    | some .decimal, [bits, precision, scale] =>
      .ok (.mk { kind := .decimal, bitWidth := bits, precision, scale } [])
    | some .list, [field] => do
      let child ← encodeField field
      return .mk { kind := .list } [child]
    | some .largeList, [field] => do
      let child ← encodeField field
      return .mk { kind := .largeList } [child]
    | some .fixedList, [field, length] => do
      let child ← encodeField field
      return .mk { kind := .fixedList, length } [child]
    | some .struct, [fields] => do
      let children ← encodeChildren fields
      return .mk { kind := .struct } children
    | _, _ => .error .functionClause
  | _ => .error .functionClause

/-- The clauses of a list's type and of a field take the same terms. -/
def encodeField : SchemaTerm → Except Raise NativeFieldTerm
  | .field name type nullable => do
    let dataType ← encodeType type
    return .mk name nullable dataType
  | _ => .error .functionClause

def encodeFields : List SchemaTerm → Except Raise (List NativeFieldTerm)
  | [] => .ok []
  | field :: fields => do
    let child ← encodeField field
    let children ← encodeFields fields
    return child :: children

/-- A map yields its entries as pairs. -/
def encodeChildren : SchemaTerm → Except Raise (List NativeFieldTerm)
  | .list fields => encodeFields fields
  | .map [] => .ok []
  | .map (_ :: _) => .error .functionClause
  | .other _ items ending => do
    let children ← encodeFields items
    match ending with
    | .done => return children
    | .functionClause => throw .functionClause
    | .raised => throw .other
  | _ => .error .other
end

/-- The native fields of a schema's fields. -/
def toNative (schema : List SchemaTerm) : Except Raise (List NativeFieldTerm) := encodeFields schema

/-! ## The library decodes -/

def isTimeOf (unit bits : SchemaTerm) : Bool :=
  bits.isOneOf [32] && unit.isAtomOf ["second", "millisecond"] ||
    bits.isOneOf [64] && unit.isAtomOf ["microsecond", "nanosecond"]

def decodedWhen (type : SchemaTerm) (condition : Bool) : Except Error SchemaTerm :=
  if condition then .ok type else .error invalidSchema

def decodeFlat (e : TypeEntries) : Except Error SchemaTerm :=
  match e.kind with
  | .integer =>
    decodedWhen (typed .integer [e.bitWidth, e.signed]) (e.bitWidth.isOneOf [8, 16, 32, 64] && e.signed.isBoolean)
  | .float => decodedWhen (typed .float [e.bitWidth]) (e.bitWidth.isOneOf [32, 64])
  | .fixedBinary => decodedWhen (typed .fixedBinary [e.length]) e.length.isPositive
  | .time => decodedWhen (typed .time [e.unit, e.bitWidth]) (isTimeOf e.unit e.bitWidth)
  | .timestamp => decodedWhen (typed .timestamp [e.unit, e.timezone]) (e.unit.isUnit && e.timezone.isTimezone)
  | .duration => decodedWhen (typed .duration [e.unit]) e.unit.isUnit
  | .decimal =>
    decodedWhen (typed .decimal [e.bitWidth, e.precision, e.scale])
      (e.bitWidth.isOneOf [32, 64, 128, 256] && e.precision.isPositive && e.scale.isInteger)
  | kind => decodedWhen (.atom (kindAtom kind)) (isPlain kind)

mutual
def decodeType : NativeTerm → Except Error SchemaTerm
  | .mk e children =>
    match e.kind, children with
    | .list, [child] => do
      let field ← decodeField child
      return typed .list [field]
    | .largeList, [child] => do
      let field ← decodeField child
      return typed .largeList [field]
    | .fixedList, [child] =>
      if e.length.isPositive then do
        let field ← decodeField child
        return typed .fixedList [field, e.length]
      else .error invalidSchema
    | .struct, children => do
      let fields ← decodeFields children
      return typed .struct [.list fields]
    | _, _ => decodeFlat e

def decodeField : NativeFieldTerm → Except Error SchemaTerm
  | .mk (.binary name) nullable dataType =>
    if nullable.isBoolean then do
      let type ← decodeType dataType
      return .field (.binary name) type nullable
    else .error invalidSchema
  | _ => .error invalidSchema

def decodeFields : List NativeFieldTerm → Except Error (List SchemaTerm)
  | [] => .ok []
  | field :: fields => do
    let field ← decodeField field
    let fields ← decodeFields fields
    return field :: fields
end

def fromNative (fields : List NativeFieldTerm) : Except Error (List SchemaTerm) := decodeFields fields

/-! ## Descriptors of fields -/

def schemaError (message : String) : Error := .invalid "schema" message

def refuse {α : Type} (message : String) : Except (Stop Error) α := .error (.error (schemaError message))

def normalizePublicName : SchemaTerm → Except (Stop Error) Binary
  | .atom name => if name ≠ "" then .ok (.text name) else refuse "schema field names must be non-empty"
  | .binary name => if name ≠ .text "" then .ok name else refuse "schema field names must be non-empty"
  | _ => refuse "schema field names must be non-empty"

/-- A type that the encoder has clauses for. -/
def encodable (type : SchemaTerm) : Except (Stop Error) SchemaTerm :=
  match encodeType type with
  | .ok _ => .ok type
  | .error .functionClause => refuse "schema field type is unsupported"
  | .error .other => .error .raised

def publicAlias : String → Option SchemaTerm
  | "string" => some (.atom "utf8")
  | "int8" => some (typed .integer [.int 8, .atom "true"])
  | "int16" => some (typed .integer [.int 16, .atom "true"])
  | "int32" => some (typed .integer [.int 32, .atom "true"])
  | "int64" => some (typed .integer [.int 64, .atom "true"])
  | "uint8" => some (typed .integer [.int 8, .atom "false"])
  | "uint16" => some (typed .integer [.int 16, .atom "false"])
  | "uint32" => some (typed .integer [.int 32, .atom "false"])
  | "uint64" => some (typed .integer [.int 64, .atom "false"])
  | "float32" => some (typed .float [.int 32])
  | "float64" => some (typed .float [.int 64])
  | "date" => some (.atom "date32")
  | _ => none

/-- The types that the constructor checks by itself. -/
def isChecked : SchemaTerm → Bool
  | .atom name => ["boolean", "utf8", "binary", "date32", "date64", "null"].contains name
  | .tuple [.atom "integer", bits, signed] => bits.isOneOf [8, 16, 32, 64] && signed.isBoolean
  | .tuple [.atom "float", bits] => bits.isOneOf [32, 64]
  | .tuple [.atom "timestamp", unit, timezone] => unit.isUnit && timezone.isTimezone
  | _ => false

/-- The type of a name or of a timestamp without a zone. -/
def aliased : SchemaTerm → Option SchemaTerm
  | .atom name => publicAlias name
  | .tuple [.atom "timestamp", unit] =>
    if unit.isUnit then some (typed .timestamp [unit, .binary (.text "UTC")]) else none
  | _ => none

def normalizePublicType (type : SchemaTerm) : Except (Stop Error) SchemaTerm :=
  match aliased type with
  | some type => .ok type
  | none => if isChecked type then .ok type else encodable type

def fieldMessage : String := "each schema field must contain a name, type, and optional nullability"

def normalizePublicTriple (name type nullable : SchemaTerm) : Except (Stop Error) SchemaTerm :=
  if nullable.isBoolean then do
    let name ← normalizePublicName name
    let type ← normalizePublicType type
    return .field (.binary name) type nullable
  else refuse fieldMessage

def normalizePublicEntries (entries : List (SchemaTerm × SchemaTerm)) : Except (Stop Error) SchemaTerm :=
  match SchemaTerm.entry? entries "name", SchemaTerm.entry? entries "type" with
  | some name, some type =>
    normalizePublicTriple name type ((SchemaTerm.entry? entries "nullable").getD (.atom "true"))
  | _, _ => refuse fieldMessage

def normalizePublicField : SchemaTerm → Except (Stop Error) SchemaTerm
  | .tuple [name, type] => normalizePublicTriple name type (.atom "true")
  | .tuple [name, type, nullable] => normalizePublicTriple name type nullable
  | .field name type nullable => normalizePublicTriple name type nullable
  | .map entries => normalizePublicEntries entries
  | .other entries _ _ => normalizePublicEntries entries
  | _ => refuse fieldMessage

/-! ## Schemas -/

def fieldName : SchemaTerm → Option Binary
  | .field (.binary name) _ _ => some name
  | _ => none

def validateUniqueNames (fields : List SchemaTerm) : Except (Stop Error) Unit :=
  if (fields.map fieldName).Nodup then .ok () else refuse "schema field names must be unique"

/-- The fields of a new schema. -/
def new (fields : List SchemaTerm) : Except (Stop Error) (List SchemaTerm) := do
  let fields ← fields.mapM normalizePublicField
  validateUniqueNames fields
  return fields

/-! ## Schemas that the library writes -/

mutual
def validNestedType : SchemaTerm → Bool
  | .tuple [.atom name, field] =>
    match kindOf name, field with
    | some .list, .field name type nullable => validField (.field name type nullable)
    | some .largeList, .field name type nullable => validField (.field name type nullable)
    | some .struct, .list fields => !fields.isEmpty && validFields fields && decide (fields.map fieldName).Nodup
    | some .struct, _ => false
    | _, _ => true
  | .tuple [.atom name, field, _] =>
    match kindOf name, field with
    | some .fixedList, .field name type nullable => validField (.field name type nullable)
    | _, _ => true
  | _ => true

def validField : SchemaTerm → Bool
  | .field (.binary name) type nullable => name ≠ .text "" && nullable.isBoolean && validNestedType type
  | _ => false

def validFields : List SchemaTerm → Bool
  | [] => true
  | field :: fields => validField field && validFields fields
end

/-- The native fields of a schema that the writer takes; what raises is rescued. -/
def nativeSchema (schema : List SchemaTerm) : Except Error (List NativeFieldTerm) :=
  let refused : Except Error (List NativeFieldTerm) :=
    .error (.invalid "parquet_writer_open" "schema contains an invalid field or type")
  match toNative schema with
  | .ok native =>
    if !schema.isEmpty && validFields schema && decide (schema.map fieldName).Nodup then
      match fromNative native with
      | .ok schema' => if schema' = schema then .ok native else refused
      | .error _ => refused
    else refused
  | .error _ => refused

end PublicSchema

end Parquex
