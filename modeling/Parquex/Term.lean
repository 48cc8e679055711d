import Parquex.Arrow

/-!
# Terms of the virtual machine

The terms that cross the native boundary and their decoding into native values.
`nil`, `true` and `false` are atoms. A date and time counts microseconds since the
epoch with a precision.
-/

namespace Parquex

structure DateTime where
  microseconds : Int
  precision : Nat
  deriving DecidableEq, Repr

inductive Term
  | atom (name : String)
  | int (value : Int)
  | float (value : Rat)
  | binary (value : Binary)
  | dateTime (value : DateTime)
  | naiveDateTime (value : DateTime)
  | list (items : List Term)
  | tuple (items : List Term)
  | map (entries : List (Term × Term))
  | other

namespace Term

def text (value : String) : Term := .binary (.text value)

def nil : Term := .atom "nil"

def isNil : Term → Bool
  | .atom name => name == "nil"
  | _ => false

def bool? : Term → Option Bool
  | .atom name => if name = "true" then some true else if name = "false" then some false else none
  | _ => none

def int? : Term → Option Int
  | .int value => some value
  | _ => none

def float? : Term → Option Rat
  | .float value => some value
  | _ => none

def binary? : Term → Option Binary
  | .binary value => some value
  | _ => none

def string? : Term → Option String
  | .binary (.text value) => some value
  | _ => none

def list? : Term → Option (List Term)
  | .list items => some items
  | _ => none

/-- The value of a string key. -/
def mapGet (key : String) : Term → Option Term
  | .map entries => (entries.find? fun entry => entry.1.string? == some key).map Prod.snd
  | _ => none

end Term

/-! ## Numbers of a native width -/

def integer? (type : IntegerType) (term : Term) : Option Int := term.int?.filter type.holds

def powerOfTwo (exponent : Int) : Rat :=
  if 0 ≤ exponent then ((2 ^ exponent.toNat : Nat) : Rat) else 1 / ((2 ^ (-exponent).toNat : Nat) : Rat)

/-- The exponent of the leading binary digit of a nonzero number. -/
def binaryExponent (value : Rat) : Int :=
  let guess : Int := (Nat.log2 value.num.natAbs : Int) - Nat.log2 value.den
  if mkRat value.num.natAbs value.den < powerOfTwo guess then guess - 1 else guess

def roundHalfEven (value : Rat) : Int :=
  let low := value.floor
  let rest := value - low
  if rest < 1 / 2 then low
  else if 1 / 2 < rest then low + 1
  else if low % 2 = 0 then low
  else low + 1

/-- The nearest single-precision value, when it is finite. -/
def float32? (value : Rat) : Option Rat :=
  if value = 0 then some 0
  else
    let quantum := powerOfTwo (max (binaryExponent value) (-126) - 23)
    let rounded := roundHalfEven (value / quantum) * quantum
    if -powerOfTwo 128 < rounded ∧ rounded < powerOfTwo 128 then some rounded else none

end Parquex
