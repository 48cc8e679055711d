import Parquex.Term

/-!
# Event times

Dates and times as the library counts them, and its side of the time partitions:
timestamps are encoded in the unit of a dataset before they cross the native
boundary. A call of the boundary raises when an integer does not fit its native
type.
-/

namespace Parquex

/-- How a computation of the library stops early. -/
inductive Stop (ε : Type)
  | error (error : ε)
  | raised
  deriving DecidableEq, Repr

/-! ## Dates and times -/

namespace DateTime

/-- The unit's ticks since the epoch, rounded down. -/
def toUnix (d : DateTime) (unit : TimeUnit) : Int := d.microseconds * 1000 / unit.factor

def precisionForUnit : TimeUnit → Nat
  | .second => 0
  | .millisecond => 3
  | .microsecond | .nanosecond => 6

/-- Years from -9999 to 9999, in microseconds; a finer part is rounded down. -/
def fromUnix (value : Int) (unit : TimeUnit) : Option DateTime :=
  let total := value * unit.factor / 1000
  if -377705116800000000 ≤ total ∧ total ≤ 253402300799999999 then
    some { microseconds := total, precision := precisionForUnit unit }
  else none

def compare (left right : DateTime) : Ordering := Ord.compare left.microseconds right.microseconds

end DateTime

/-! ## Partition specifications -/

structure TimePartition where
  column : String
  granularity : Granularity
  timestampUnit : TimeUnit
  deriving DecidableEq, Repr

structure Partition where
  path : String
  start : DateTime
  until' : DateTime
  deriving DecidableEq, Repr

def partitionError (message : String) : Error := .invalid "time_partition" message

def encodeTimestamp (timestamp : Term) (unit : TimeUnit) : Except Error Int :=
  match timestamp with
  | .int value => .ok value
  | .dateTime value | .naiveDateTime value => .ok (value.toUnix unit)
  | _ => .error (partitionError "timestamp must be an integer, DateTime, or UTC NaiveDateTime")

def encodedDatetime (value : Int) (unit : TimeUnit) : Except Error DateTime :=
  match DateTime.fromUnix value unit with
  | some datetime => .ok datetime
  | none => .error (partitionError "timestamp is outside the supported range")

namespace Partition

def datetime (seconds : Int) (nanosecond : Nat) : Except Error DateTime :=
  match DateTime.fromUnix (seconds * 1000000000 + nanosecond) .nanosecond with
  | some datetime => .ok datetime
  | none => .error (partitionError "native partition timestamp is invalid")

def fromNative (native : NativePartition) : Except Error Partition := do
  let start ← datetime native.startSeconds native.startNanosecond
  let until' ← datetime native.untilSeconds native.untilNanosecond
  return { path := native.path, start, until' }

end Partition

namespace TimePartition

variable (spec : TimePartition)

def normalizeTimestamp (timestamp : Term) : Except Error (Int × DateTime) := do
  let encoded ← encodeTimestamp timestamp spec.timestampUnit
  let datetime ← encodedDatetime encoded spec.timestampUnit
  return (encoded, datetime)

/-- The answer of a native call, as the library hands it on. -/
def nativeResult {α : Type} : Except NativeFailure α → Except (Stop Error) α
  | .ok result => .ok result
  | .error failure => .error (.error (.fromNative failure))

def liftError {α : Type} : Except Error α → Except (Stop Error) α
  | .ok result => .ok result
  | .error error => .error (.error error)

theorem nativeResult_eq_ok {α : Type} {x : Except NativeFailure α} {a : α} : nativeResult x = .ok a ↔ x = .ok a := by
  cases x <;> simp [nativeResult]

theorem liftError_eq_ok {α : Type} {x : Except Error α} {a : α} : liftError x = .ok a ↔ x = .ok a := by
  cases x <;> simp [liftError]

def forTimestamp (timestamp : Term) : Except (Stop Error) Partition := do
  let encoded ← liftError (encodeTimestamp timestamp spec.timestampUnit)
  if !inI64 encoded then throw .raised
  let native ← nativeResult (partitionFor encoded spec.timestampUnit spec.granularity)
  liftError (Partition.fromNative native)

def path (timestamp : Term) : Except (Stop Error) String := do
  let partition ← spec.forTimestamp timestamp
  return partition.path

def plan (from' until' : Term) (maxPartitions : Int) : Except (Stop Error) (List Partition) := do
  if ¬ 0 < maxPartitions then throw (.error (partitionError "max_partitions must be a positive integer"))
  let from' ← liftError (encodeTimestamp from' spec.timestampUnit)
  let until' ← liftError (encodeTimestamp until' spec.timestampUnit)
  if !inI64 from' || !inI64 until' || decide (2 ^ 64 ≤ maxPartitions) then throw .raised
  let native ← nativeResult (Parquex.plan from' until' spec.timestampUnit spec.granularity maxPartitions.toNat)
  native.mapM fun entry => liftError (Partition.fromNative entry)

/-- A plan under a keyword list; the first of several entries with one key counts. -/
def planWith (from' until' : Term) (options : List (String × Term)) : Except (Stop Error) (List Partition) :=
  if (options.map Prod.fst).diff ["max_partitions"] = [] then
    match (options.lookup "max_partitions").getD (.int 10000) with
    | .int maxPartitions => spec.plan from' until' maxPartitions
    | _ => .error (.error (partitionError "max_partitions must be a positive integer"))
  else .error (.error (partitionError "unknown partition plan option"))

end TimePartition

end Parquex
