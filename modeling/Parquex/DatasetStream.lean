import Parquex.Dataset
import Parquex.DatasetPredicate
import Parquex.Machine
import Parquex.NativeSchema

/-!
# The dataset stream

A stream over the files of planned partitions that opens one file after another
as batches are asked for. A call of its next function turns from clause to clause
until it has a batch, comes to the end or raises; the finaliser is given what the
last call that returned had returned.
-/

namespace Parquex

namespace DatasetStream

/-! ## Rows and batches -/

/-- The options of a stream that its traversal reads. -/
structure Settings where
  dataset : Dataset
  outputSchema : Schema
  from' : Int
  until' : Int
  predicate : Option DatasetPredicate

def inRange (timestamp : Term) (from' until' : Int) : Bool :=
  match timestamp with
  | .int timestamp => decide (from' ≤ timestamp) && decide (timestamp < until')
  | _ => false

section
variable (settings : Settings)

/-- Whether a row is in the range and selected; a missing column raises. -/
def keepRow (row : Row) : Option Bool := do
  let timestamp ← row.lookup settings.dataset.column
  if inRange timestamp settings.from' settings.until' then
    match settings.predicate with
    | none => return true
    | some predicate => do
      let value ← row.lookup predicate.column
      return predicate.selects value
  else return false

def outputColumn (rows : List Row) (field : SchemaField) : Option (String × Term) := do
  let values ← rows.mapM fun row => row.lookup field.name
  return (field.name, .list values)

def filterBatch (batch : Batch) : Except Error Batch :=
  let columns : Option (List (String × Term)) := do
    let rows ← batch.toRows.filterM (keepRow settings)
    settings.outputSchema.fields.mapM (outputColumn rows)
  match columns with
  | some columns => Batch.new settings.outputSchema (Input.mapNew columns)
  | none => .error (datasetInvalid "dataset row does not match its timestamp or projection contract")

/-- What becomes of a batch of an open reader. -/
def receive (schema : Schema) (native : Term) : Except Error Batch := do
  let batch ← Batch.fromNative schema native
  filterBatch settings batch

end

/-! ## Open readers -/

/-- A stream over one file: its native reader and its schema. -/
structure OpenReader where
  handle : Nat
  schema : Schema

/-- The answers of the store by the number of the call. -/
structure Source where
  list : Nat → String → Except Error (List String)
  openReader : Nat → String → Except Error (List NativeField)
  next : Nat → Except NativeFailure (Option Term)

/-- The native readers by handle with their active flags, and the agent that knows the current one while it lives. -/
structure World where
  calls : Nat
  active : List Bool
  control : Option (Option OpenReader)

namespace World

def called (w : World) : World := { w with calls := w.calls + 1 }

def close (w : World) (reader : OpenReader) : World := { w with active := w.active.set reader.handle false }

def closeAny (w : World) (current : Option OpenReader) : World :=
  match current with
  | some reader => w.close reader
  | none => w

def setCurrent (w : World) (current : Option OpenReader) : World := { w with control := w.control.map fun _ => current }

def isActive (w : World) (handle : Nat) : Bool := w.active.getD handle false

def openReaders (w : World) : Nat := w.active.count true

end World

section
variable (source : Source)

/-- `Parquex.stream`; a reader whose fields the library cannot decode was opened all the same. -/
def openStream (key : String) (w : World) : Except Error OpenReader × World :=
  match source.openReader w.calls key with
  | .error error => (.error error, w.called)
  | .ok fields =>
    let opened := { w.called with active := w.active ++ [true] }
    match Schema.fromNative fields with
    | .ok schema => (.ok { handle := w.active.length, schema }, opened)
    | .error error => (.error error, opened)

def readerNext (handle : Nat) (w : World) : Except NativeFailure (Option Term) × World :=
  if w.isActive handle then (source.next w.calls, w.called) else (.error (.cancelled .readerNext), w.called)

end

/-! ## The next function -/

structure State where
  plans : List String
  files : List String
  current : Option OpenReader

/-- What a clause of the next function comes to. -/
inductive Turn
  | again (state : State)
  | emit (output : Batch) (state : State)
  | halt (state : State)
  | raised (error : Error)

section
variable (settings : Settings) (source : Source)

def partitionPrefix (path : String) : String := settings.dataset.prefix' ++ path ++ "/"

def parquetFiles (keys : List String) : List String :=
  (keys.filter fun key => hasSuffix key ".parquet").insertionSort (· ≤ ·)

/-- The next batch of the current reader, or its end. -/
def read (current : OpenReader) (state : State) (w : World) : Turn × World :=
  match readerNext source current.handle w with
  | (.ok none, w) => (.again { state with current := none }, (w.close current).setCurrent none)
  | (.ok (some native), w) =>
    match receive settings current.schema native with
    | .ok output => if output.rowCount = 0 then (.again state, w) else (.emit output state, w)
    | .error error => (.raised error, w)
  | (.error failure, w) => (.raised (.fromNative failure), w)

def next (state : State) (w : World) : Turn × World :=
  match state.current, state.files, state.plans with
  | some current, _, _ => read settings source current state w
  | none, key :: files, _ =>
    match openStream source key w with
    | (.ok current, w) => (.again { state with current := some current, files }, w.setCurrent (some current))
    | (.error error, w) => (.raised error, w)
  | none, [], path :: plans =>
    match source.list w.calls (partitionPrefix settings path) with
    | .ok keys => (.again { state with files := parquetFiles keys, plans }, w.called)
    | .error error => (.raised error, w.called)
  | none, [], [] => (.halt state, w)

end

def finalize (state : State) (w : World) : World := { w.closeAny state.current with control := none }

/-- `Dataset.Stream.close`: the current reader as the agent knows it. -/
def closeStream (w : World) : World :=
  match w.control with
  | some current => { w.closeAny current with control := none }
  | none => w

/-! ## Enumerations -/

/-- Between the calls of the next function, in one of them, or ended. -/
inductive Phase
  | idle
  | running (state : State)
  | ended

/-- An enumeration and the accumulator that the last call of the next function returned. -/
structure Enumeration where
  world : World
  accumulator : State
  phase : Phase

/-- The consumer asks for a batch, halts or raises between two, or anyone closes the stream; a call turns once. -/
inductive Event
  | demand
  | turn
  | halt
  | close
  deriving DecidableEq, Repr

inductive Reply
  | none
  | batch (output : Batch)
  | raised (error : Error)

section
variable (settings : Settings) (source : Source)

def finish (s : Enumeration) (state : State) (w : World) : Enumeration :=
  { s with world := finalize state w, phase := .ended }

def turn (s : Enumeration) (state : State) : Reply × Enumeration :=
  match next settings source state s.world with
  | (.again state, w) => (.none, { s with world := w, phase := .running state })
  | (.emit output state, w) => (.batch output, { world := w, accumulator := state, phase := .idle })
  | (.halt state, w) => (.none, finish s state w)
  | (.raised error, w) => (.raised error, finish s s.accumulator w)

def step (s : Enumeration) (e : Event) : Reply × Enumeration :=
  match e, s.phase with
  | .demand, .idle => (.none, { s with phase := .running s.accumulator })
  | .turn, .running state => turn settings source s state
  | .halt, .idle => (.none, finish s s.accumulator s.world)
  | .close, _ => (.none, { s with world := closeStream s.world })
  | _, _ => (.none, s)

def machine : Machine Enumeration Event Reply := ⟨step settings source⟩

end

/-- A stream over planned partitions before its first batch is asked for. -/
def start (plans : List String) : Enumeration where
  world := { calls := 0, active := [], control := some none }
  accumulator := { plans, files := [], current := none }
  phase := .idle

end DatasetStream

end Parquex
