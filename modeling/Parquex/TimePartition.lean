import Parquex.Calendar
import Parquex.NativeFailure
import Parquex.Text

/-!
# Time partitions

The native planner of event-time partitions. A `NaiveDate` is a day of the
Gregorian calendar within the years chrono can hold, a `UtcDateTime` is a unix
second of such a day with its nanosecond.
-/

namespace Parquex

open Calendar

/-! ## Dates and instants -/

def minYear : Int := -262143

def maxYear : Int := 262142

def minDay : Int := yearStart minYear

def maxDay : Int := yearStart (maxYear + 1) - 1

@[ext]
structure NaiveDate where
  day : Int
  lower : minDay ≤ day
  upper : day ≤ maxDay
  deriving DecidableEq

namespace NaiveDate

def ofDay (day : Int) : Option NaiveDate :=
  if h : minDay ≤ day ∧ day ≤ maxDay then some ⟨day, h.1, h.2⟩ else none

def fromYmdOpt (year : Int) (month : Nat) (day : Nat) : Option NaiveDate :=
  if ValidYmd year month day then ofDay (ofYmd year month day) else none

/-- The Monday of an ISO week. -/
def fromIsoywdOpt (year : Int) (week : Nat) : Option NaiveDate :=
  if ValidIsoWeek year week then ofDay (ofIsoWeek year week) else none

def year (date : NaiveDate) : Int := yearOf date.day

def month (date : NaiveDate) : Nat := monthOf date.day

def dayOfMonth (date : NaiveDate) : Nat := (dayOf date.day).toNat

def numDaysFromMonday (date : NaiveDate) : Nat := (weekday date.day).toNat

def checkedSubDays (date : NaiveDate) (days : Nat) : Option NaiveDate := ofDay (date.day - days)

end NaiveDate

def minSecond : Int := 86400 * minDay

def maxSecond : Int := 86400 * maxDay + 86399

@[ext]
structure UtcDateTime where
  timestamp : Int
  nanosecond : Nat
  lower : minSecond ≤ timestamp
  upper : timestamp ≤ maxSecond
  nanosecond_lt : nanosecond < 1000000000
  deriving DecidableEq

namespace UtcDateTime

def fromTimestamp (seconds : Int) (nanosecond : Nat) : Option UtcDateTime :=
  if h : minSecond ≤ seconds ∧ seconds ≤ maxSecond ∧ nanosecond < 1000000000 then
    some ⟨seconds, nanosecond, h.1, h.2.1, h.2.2⟩
  else none

/-- Nanoseconds since the epoch. -/
def nanos (instant : UtcDateTime) : Int := 1000000000 * instant.timestamp + instant.nanosecond

def lt (left right : UtcDateTime) : Bool :=
  decide (left.timestamp < right.timestamp ∨ left.timestamp = right.timestamp ∧ left.nanosecond < right.nanosecond)

def dateNaive (instant : UtcDateTime) : NaiveDate where
  day := instant.timestamp / 86400
  lower := by have := instant.lower; unfold minSecond at this; omega
  upper := by have := instant.upper; unfold maxSecond at this; omega

def secondOfDay (instant : UtcDateTime) : Nat := (instant.timestamp % 86400).toNat

def hour (instant : UtcDateTime) : Nat := instant.secondOfDay / 3600

def minute (instant : UtcDateTime) : Nat := instant.secondOfDay / 60 % 60

def year (instant : UtcDateTime) : Int := instant.dateNaive.year

def month (instant : UtcDateTime) : Nat := instant.dateNaive.month

def day (instant : UtcDateTime) : Nat := instant.dateNaive.dayOfMonth

def isoYear (instant : UtcDateTime) : Int := isoYearOf instant.dateNaive.day

def isoWeek (instant : UtcDateTime) : Int := isoWeekOf instant.dateNaive.day

def checkedAddSeconds (instant : UtcDateTime) (seconds : Int) : Option UtcDateTime :=
  fromTimestamp (instant.timestamp + seconds) instant.nanosecond

/-- The same day of the next month, or its last day. -/
def checkedAddMonth (instant : UtcDateTime) : Option UtcDateTime :=
  let index := 12 * instant.year + instant.month
  let year := index / 12
  let month := (index % 12).toNat + 1
  let day := min instant.day (monthLength year month).toNat
  (NaiveDate.fromYmdOpt year month day).bind fun date =>
    fromTimestamp (86400 * date.day + instant.secondOfDay) instant.nanosecond

end UtcDateTime

/-- `and_hms_opt` with zero seconds, read as UTC. -/
def NaiveDate.andHmOpt (date : NaiveDate) (hour minute : Nat) : Option UtcDateTime :=
  if hour < 24 ∧ minute < 60 then UtcDateTime.fromTimestamp (86400 * date.day + 3600 * hour + 60 * minute) 0
  else none

/-! ## Partitions -/

inductive TimeUnit
  | second | millisecond | microsecond | nanosecond
  deriving DecidableEq, Repr

/-- Nanoseconds in one unit. -/
def TimeUnit.factor : TimeUnit → Int
  | .second => 1000000000
  | .millisecond => 1000000
  | .microsecond => 1000
  | .nanosecond => 1

theorem TimeUnit.factor_pos (unit : TimeUnit) : 0 < unit.factor := by
  cases unit <;> simp [TimeUnit.factor]

inductive Granularity
  | minute | hour | day | week | month
  deriving DecidableEq, Repr

structure NativePartition where
  path : String
  startSeconds : Int
  startNanosecond : Nat
  untilSeconds : Int
  untilNanosecond : Nat
  deriving DecidableEq, Repr

namespace NativePartition

def startNanos (p : NativePartition) : Int := 1000000000 * p.startSeconds + p.startNanosecond

def untilNanos (p : NativePartition) : Int := 1000000000 * p.untilSeconds + p.untilNanosecond

end NativePartition

def timePartitionInvalid (message : String) : NativeFailure := .invalid .timePartition message

/-- `ok_or_else` with an invalid-argument failure. -/
def okOr {α : Type} (value : Option α) (message : String) : Except NativeFailure α :=
  match value with
  | some a => .ok a
  | none => .error (timePartitionInvalid message)

def inI64 (v : Int) : Bool := decide (-9223372036854775808 ≤ v) && decide (v ≤ 9223372036854775807)

def checkedI128 (v : Int) : Option Int := if -2 ^ 127 ≤ v ∧ v < 2 ^ 127 then some v else none

def instant (timestamp : Int) (unit : TimeUnit) : Except NativeFailure UtcDateTime := do
  let nanos ← okOr (checkedI128 (timestamp * unit.factor)) "timestamp is out of range"
  let seconds := nanos / 1000000000
  let subsecond := nanos % 1000000000
  let seconds ← okOr (if inI64 seconds then some seconds else none) "timestamp is out of range"
  okOr (UtcDateTime.fromTimestamp seconds subsecond.toNat) "timestamp is out of range"

def partitionPath (granularity : Granularity) (start : UtcDateTime) : String :=
  match granularity with
  | .minute =>
    s!"year={start.year}/month={start.month}/day={start.day}/hour={start.hour}/minute={start.minute}"
  | .hour => s!"year={start.year}/month={start.month}/day={start.day}/hour={start.hour}"
  | .day => s!"year={start.year}/month={start.month}/day={start.day}"
  | .week => s!"iso_year={start.isoYear}/week={start.isoWeek}"
  | .month => s!"year={start.year}/month={start.month}"

def buildPartition (instant : UtcDateTime) (granularity : Granularity) : Except NativeFailure NativePartition := do
  let date := instant.dateNaive
  let startDate ← match granularity with
    | .week => okOr (date.checkedSubDays date.numDaysFromMonday) "partition date is out of range"
    | .month => okOr (NaiveDate.fromYmdOpt date.year date.month 1) "partition date is out of range"
    | _ => .ok date
  let (hour, minute) := match granularity with
    | .minute => (instant.hour, instant.minute)
    | .hour => (instant.hour, 0)
    | _ => (0, 0)
  let start ← okOr (startDate.andHmOpt hour minute) "partition start is out of range"
  let until' ← okOr (match granularity with
    | .minute => start.checkedAddSeconds 60
    | .hour => start.checkedAddSeconds 3600
    | .day => start.checkedAddSeconds 86400
    | .week => start.checkedAddSeconds 604800
    | .month => start.checkedAddMonth) "partition end is out of range"
  return {
    path := partitionPath granularity start
    startSeconds := start.timestamp
    startNanosecond := start.nanosecond
    untilSeconds := until'.timestamp
    untilNanosecond := until'.nanosecond }

def partitionFor (timestamp : Int) (unit : TimeUnit) (granularity : Granularity) :
    Except NativeFailure NativePartition := do
  let instant ← instant timestamp unit
  buildPartition instant granularity

def partitionStart (partition : NativePartition) : Except NativeFailure UtcDateTime :=
  okOr (UtcDateTime.fromTimestamp partition.startSeconds partition.startNanosecond) "partition start is invalid"

def partitionUntil (partition : NativePartition) : Except NativeFailure UtcDateTime :=
  okOr (UtcDateTime.fromTimestamp partition.untilSeconds partition.untilNanosecond) "partition end is invalid"

/-- The planning loop; `remaining` is the limit less the length of the output. -/
def planLoop (until' : UtcDateTime) (granularity : Granularity) :
    Nat → NativePartition → Except NativeFailure (List NativePartition)
  | remaining, current => do
    let start ← partitionStart current
    if start.lt until' then
      match remaining with
      | 0 => throw (timePartitionInvalid "partition range exceeds the planning limit")
      | remaining + 1 =>
        let next ← partitionUntil current
        let following ← buildPartition next granularity
        let output ← planLoop until' granularity remaining following
        return current :: output
    else return []

def plan (from' until' : Int) (unit : TimeUnit) (granularity : Granularity) (limit : Nat) :
    Except NativeFailure (List NativePartition) := do
  if limit = 0 then throw (timePartitionInvalid "partition planning limit must be positive")
  let from' ← instant from' unit
  let until' ← instant until' unit
  if until'.lt from' then throw (timePartitionInvalid "partition range must satisfy from <= until")
  if from' = until' then return []
  let current ← buildPartition from' granularity
  planLoop until' granularity limit current

/-! ## Parsing -/

def expectedNames : Granularity → List String
  | .minute => ["year", "month", "day", "hour", "minute"]
  | .hour => ["year", "month", "day", "hour"]
  | .day => ["year", "month", "day"]
  | .week => ["iso_year", "week"]
  | .month => ["year", "month"]

def canonicalInteger (value : String) : Option Int :=
  match parseInt value with
  | some parsed => if inI64 parsed ∧ toString parsed = value then some parsed else none
  | none => none

def parseSegments : List String → List String → Except NativeFailure (List Int)
  | part :: parts, expectedName :: expected =>
    match splitOnce '=' part with
    | none => .error (timePartitionInvalid "partition path segment is invalid")
    | some (name, value) =>
      match canonicalInteger value with
      | none => .error (timePartitionInvalid "partition path is not canonical")
      | some value =>
        if name ≠ expectedName then .error (timePartitionInvalid "partition path is not canonical")
        else do
          let values ← parseSegments parts expected
          return value :: values
  | _, _ => .ok []

def i32Value (value : Int) (message : String) : Except NativeFailure Int :=
  okOr (if -2147483648 ≤ value ∧ value ≤ 2147483647 then some value else none) message

def u32Of (value : Int) (message : String) : Except NativeFailure Nat :=
  okOr (if 0 ≤ value ∧ value ≤ 4294967295 then some value.toNat else none) message

def u32Value (value : Int) (name : String) : Except NativeFailure Nat := u32Of value (name ++ " is out of range")

def parseDate (granularity : Granularity) (values : List Int) : Except NativeFailure NaiveDate := do
  let date ← match granularity with
    | .week => do
      let year ← i32Value (values.getD 0 0) "ISO year is out of range"
      let week ← u32Of (values.getD 1 0) "ISO week is out of range"
      pure (NaiveDate.fromIsoywdOpt year week)
    | _ => do
      let year ← i32Value (values.getD 0 0) "year is out of range"
      let month ← u32Of (values.getD 1 0) "month is out of range"
      let day ← if values.length > 2 then u32Of (values.getD 2 0) "day is out of range" else pure 1
      pure (NaiveDate.fromYmdOpt year month day)
  okOr date "partition date is invalid"

def parseTime (granularity : Granularity) (values : List Int) : Except NativeFailure (Nat × Nat) :=
  match granularity with
  | .hour => do
    let hour ← u32Value (values.getD 3 0) "hour"
    return (hour, 0)
  | .minute => do
    let hour ← u32Value (values.getD 3 0) "hour"
    let minute ← u32Value (values.getD 4 0) "minute"
    return (hour, minute)
  | _ => .ok (0, 0)

def parse (path : String) (granularity : Granularity) : Except NativeFailure NativePartition := do
  let parts := splitSlash path
  let expected := expectedNames granularity
  if parts.length ≠ expected.length then
    throw (timePartitionInvalid "partition path has the wrong number of segments")
  let values ← parseSegments parts expected
  let date ← parseDate granularity values
  let (hour, minute) ← parseTime granularity values
  let start ← okOr (date.andHmOpt hour minute) "partition time is invalid"
  let partition ← buildPartition start granularity
  if partition.path = path then return partition
  else throw (timePartitionInvalid "partition path is not canonical")

end Parquex
