import Parquex.BatchEncode
import Parquex.NativeSchema
import Parquex.FlatBuilder

/-!
# Nested values in arrays

What a builder holds after its appends: the terms that the reader encodes from
it. A list keeps its items in a row and their groups by offsets, a fixed list by
its length, with null padding in the place of a missing group, and a struct keeps
one column for each field.
-/

namespace Parquex

/-! ## Types that are written -/

mutual
/-- Fixed lengths are positive, and a struct has a field. -/
def DataType.regular : DataType → Bool
  | .scalar (.fixedSizeBinary length) => decide (0 < length)
  | .scalar _ => true
  | .list (.mk _ dataType _) | .largeList (.mk _ dataType _) => dataType.regular
  | .fixedSizeList (.mk _ dataType _) length => decide (0 < length) && dataType.regular
  | .struct fields => !fields.isEmpty && regularFields fields

def regularFields : List Field → Bool
  | [] => true
  | .mk _ dataType _ :: fields => dataType.regular && regularFields fields
end

def Storage.supported : Storage → Bool
  | .unsupported => false
  | _ => true

mutual
/-- There are builders for all that the type holds. -/
def DataType.supported : DataType → Bool
  | .scalar type => type.storage.supported
  | .list (.mk _ dataType _) | .largeList (.mk _ dataType _) | .fixedSizeList (.mk _ dataType _) _ =>
    dataType.supported
  | .struct fields => supportedFields fields

def supportedFields : List Field → Bool
  | [] => true
  | .mk _ dataType _ :: fields => dataType.supported && supportedFields fields
end

/-! ## Terms of a type -/

def Term.isMap : Term → Bool
  | .map _ => true
  | _ => false

def Storage.conforms : Storage → Term → Bool
  | .null, _ => false
  | .boolean, term => term.bool?.isSome
  | .integer type, term => (integer? type term).isSome
  | .float32, term => (term.float?.bind float32?).isSome
  | .float64, term => term.float?.isSome
  | .decimal lower upper, term =>
    (term.string?.bind parseInt).any fun value => decide (lower ≤ value) && decide (value ≤ upper)
  | .string, term => term.string?.isSome
  | .binary, term => term.binary?.isSome
  | .fixedBinary length, term => term.binary?.any fun value => decide ((value.size : Int) = length)
  | .unsupported, _ => false

/-- The form in which a value comes back: decimals without leading signs and zeros, singles rounded. -/
def Storage.canonical : Storage → Term → Term
  | .decimal _ _, term => ((term.string?.bind parseInt).map fun value => .text (toString value)).getD term
  | .float32, term => ((term.float?.bind float32?).map Term.float).getD term
  | _, term => term

mutual
/-- The term has the type, and a null is allowed where it stands, at every level. -/
def conforms : DataType → Bool → Term → Bool
  | .scalar type, nullable, term => if term.isNil then nullable else type.storage.conforms term
  | .list (.mk _ dataType itemNullable), nullable, term
  | .largeList (.mk _ dataType itemNullable), nullable, term =>
    if term.isNil then nullable else term.list?.any fun items => items.all (conforms dataType itemNullable)
  | .fixedSizeList (.mk _ dataType itemNullable) length, nullable, term =>
    if term.isNil then nullable
    else term.list?.any fun items =>
      decide ((items.length : Int) = length) && items.all (conforms dataType itemNullable)
  | .struct fields, nullable, term => if term.isNil then nullable else term.isMap && conformsFields fields term

def conformsFields : List Field → Term → Bool
  | [], _ => true
  | .mk name dataType nullable :: fields, term =>
    (term.mapGet name).any (conforms dataType nullable) && conformsFields fields term
end

/-- The map of a struct, from the values of its fields in order. -/
def putFields : List Field → List Term → List (Term × Term) → List (Term × Term)
  | [], _, entries => entries
  | field :: fields, row, entries => putFields fields row.tail (mapPut entries field.name (row.headD .nil))

mutual
/-- The form in which a term comes back: struct maps have the declared fields. -/
def canonical : DataType → Term → Term
  | .scalar type, term => if term.isNil then .nil else type.storage.canonical term
  | .list (.mk _ dataType _), term | .largeList (.mk _ dataType _), term | .fixedSizeList (.mk _ dataType _) _, term =>
    if term.isNil then .nil else .list ((term.list?.getD []).map (canonical dataType))
  | .struct fields, term => if term.isNil then .nil else .map (putFields fields (canonicalFields fields term) [])

def canonicalFields : List Field → Term → List Term
  | [], _ => []
  | .mk name dataType _ :: fields, term =>
    canonical dataType ((term.mapGet name).getD .nil) :: canonicalFields fields term
end

/-! ## Arrays in step -/

mutual
/-- The children of a struct are as long as it, and the child of a fixed list so many times as long. -/
def ArrowArray.InStep : ArrowArray → Prop
  | .flat _ _ => True
  | .list _ _ _ _ values => values.InStep
  | .fixedSizeList _ listLength valid values => values.length = listLength.toNat * valid.length ∧ values.InStep
  | .struct fields valid columns => columns.length = fields.length ∧ InStepColumns valid.length columns

def InStepColumns (length : Nat) : List ArrowArray → Prop
  | [] => True
  | column :: columns => (column.length = length ∧ column.InStep) ∧ InStepColumns length columns
end

/-! ## What an array holds -/

/-- The slots of a flat array are of its kind, and are encoded as the terms. -/
structure FlatHolds (storage : Storage) (slots : Slots) (terms : List Term) : Prop where
  length : slots.length = terms.length
  encode : ∀ index term, terms[index]? = some term → encodeSlots storage slots index = .ok term

/-- The term of a group of items, or of none. -/
def ofGroup : Option (List Term) → Term
  | none => .nil
  | some items => .list items

def ofRow (fields : List Field) : Option (List Term) → Term
  | none => .nil
  | some row => .map (putFields fields row [])

/-- The items of a list array lie in a row, group after group. -/
def GroupsHold (offsets : List Nat) (valid : List Bool) (terms : List Term) (values : List Term → Prop) : Prop :=
  ∃ groups : List (Option (List Term)), terms = groups.map ofGroup ∧ valid = groups.map Option.isSome ∧
    offsets.length = groups.length + 1 ∧
    (∀ index ≤ groups.length, offsets.getD index 0 = ((groups.take index).map (·.getD [])).flatten.length) ∧
    values (groups.map (·.getD [])).flatten

/-- Every group of a fixed list has its length, with padding for those that are missing. -/
def FixedGroupsHold (length : Nat) (valid : List Bool) (terms : List Term) (values : List Term → Prop) : Prop :=
  ∃ groups : List (Option (List Term)), terms = groups.map ofGroup ∧ valid = groups.map Option.isSome ∧
    (∀ items, some items ∈ groups → items.length = length) ∧
    values (groups.map (·.getD (List.replicate length .nil))).flatten

mutual
def Holds : DataType → ArrowArray → List Term → Prop
  | .scalar type, .flat type' slots, terms =>
    type' = type ∧ type.storage.fills slots = true ∧ FlatHolds type.storage slots terms
  | .list (.mk _ dataType _), .list false _ offsets valid values, terms =>
    GroupsHold offsets valid terms (Holds dataType values)
  | .largeList (.mk _ dataType _), .list true _ offsets valid values, terms =>
    GroupsHold offsets valid terms (Holds dataType values)
  | .fixedSizeList (.mk _ dataType _) length, .fixedSizeList _ listLength valid values, terms =>
    listLength = length ∧ FixedGroupsHold length.toNat valid terms (Holds dataType values)
  | .struct fields, .struct fields' valid columns, terms =>
    fields' = fields ∧ ∃ rows : List (Option (List Term)), terms = rows.map (ofRow fields) ∧
      valid = rows.map Option.isSome ∧ HoldsColumns fields columns (rows.map (·.getD []))
  | _, _, _ => False

/-- One column for each field, of the values at its place in the rows. -/
def HoldsColumns : List Field → List ArrowArray → List (List Term) → Prop
  | [], [], _ => True
  | .mk _ dataType _ :: fields, column :: columns, rows =>
    Holds dataType column (rows.map (·.headD .nil)) ∧ HoldsColumns fields columns (rows.map List.tail)
  | _, _, _ => False
end

end Parquex
