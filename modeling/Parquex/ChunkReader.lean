import Parquex.Reader
import Parquex.StoreRead

/-!
# The bounded range reader

The Parquet library reads an object through ranges of bounded length: whole ones
for pages and metadata, and cursors that read on from a position. They share one
count of what they have read.
-/

namespace Parquex

/-! ## Metrics -/

structure RangeMetrics where
  requests : Nat := 0
  bytes : Nat := 0
  maxRequestBytes : Nat := 0
  deriving DecidableEq, Repr

/-- The counters are words of 64 bits and wrap around. -/
def RangeMetrics.record (metrics : RangeMetrics) (bytes : Nat) : RangeMetrics where
  requests := (metrics.requests + 1) % 2 ^ 64
  bytes := (metrics.bytes + bytes) % 2 ^ 64
  maxRequestBytes := max metrics.maxRequestBytes bytes

/-! ## The reader -/

structure ObjectChunkReader (σ : Type) where
  resource : NativeStore σ
  key : String
  size : Nat
  maxRangeBytes : Nat

/-- What a reader shares with its cursors, and the ranges that the store was asked for. -/
structure RangeUse where
  metrics : RangeMetrics := {}
  cancelled : Bool := false
  requests : List (Nat × Nat) := []

def RangeUse.record (use : RangeUse) (bytes : Bytes) : RangeUse :=
  { use with metrics := use.metrics.record bytes.length }

/-- How the read of a cursor fails: by the store, or by a number or a slice out of its bounds. -/
inductive CursorFailure
  | failed | panicked
  deriving DecidableEq, Repr

namespace ObjectChunkReader

variable {σ : Type} (reader : ObjectChunkReader σ) (state : σ)

def readRange (offset length : Nat) (use : RangeUse) : Except NativeFailure Bytes × RangeUse :=
  if use.cancelled then (.error (.cancelled .readerNext), use)
  else
    (reader.resource.readRange state reader.key offset length,
      { use with requests := use.requests ++ [(offset, length)] })

/-- The position of a new cursor. -/
def getRead (start : Nat) : Except ParquetError Nat :=
  if reader.size < start then .error (.eof "range begins beyond the object") else .ok start

def getBytes (start length : Nat) (use : RangeUse) : Except ParquetError Bytes × RangeUse :=
  if reader.maxRangeBytes < length then
    (.error (.general "Parquet page or metadata exceeds the configured range bound"), use)
  else if 2 ^ 64 ≤ start + length then (.error (.eof "range overflow"), use)
  else if reader.size < start + length then (.error (.eof "range exceeds the object"), use)
  else
    match reader.readRange state start length use with
    | (.error _, use) => (.error (.general "bounded object range failed"), use)
    | (.ok bytes, use) =>
      if bytes.length ≠ length then (.error (.eof "range was truncated"), use) else (.ok bytes, use.record bytes)

/-- What a cursor reads into a buffer, and its position after it. -/
def read (usizeMax position bufferLength : Nat) (use : RangeUse) : Except CursorFailure Bytes × Nat × RangeUse :=
  if bufferLength = 0 ∨ position = reader.size then (.ok [], position, use)
  else if reader.size < position then (.error .panicked, position, use)
  else
    let available := reader.size - position
    let length := min (min bufferLength reader.maxRangeBytes) (min available usizeMax)
    match reader.readRange state position length use with
    | (.error _, use) => (.error .failed, position, use)
    | (.ok bytes, use) =>
      if bufferLength < bytes.length ∨ 2 ^ 64 ≤ position + bytes.length then (.error .panicked, position, use)
      else (.ok bytes, position + bytes.length, use.record bytes)

/-! ## Successive reads -/

/-- The position and the shared state after so many reads. -/
def after (usizeMax : Nat) (buffers : Nat → Nat) (position : Nat) (use : RangeUse) : Nat → Nat × RangeUse
  | 0 => (position, use)
  | reads + 1 =>
    let (position, use) := after usizeMax buffers position use reads
    (reader.read state usizeMax position (buffers reads) use).2

/-- What one of the reads returns. -/
def readAt (usizeMax : Nat) (buffers : Nat → Nat) (position : Nat) (use : RangeUse) (index : Nat) :
    Except CursorFailure Bytes :=
  let (position, use) := reader.after state usizeMax buffers position use index
  (reader.read state usizeMax position (buffers index) use).1

/-! ## A reader in use -/

/-- The calls of the Parquet library, and the cancellation of the reader. -/
inductive Call
  | getRead (start : Nat)
  | getBytes (start length : Nat)
  | read (cursor bufferLength : Nat)
  | cancel

inductive Reply
  | opened (result : Except ParquetError Nat)
  | bytes (result : Except ParquetError Bytes)
  | read (result : Except CursorFailure Bytes)
  | nothing

/-- The positions of the cursors, and what the reader shares with them. -/
structure Session where
  use : RangeUse := {}
  cursors : List Nat := []

def serve (usizeMax : Nat) (session : Session) : Call → Reply × Session
  | .getRead start =>
    match reader.getRead start with
    | .ok position => (.opened (.ok position), { session with cursors := session.cursors ++ [position] })
    | .error error => (.opened (.error error), session)
  | .getBytes start length =>
    let (result, use) := reader.getBytes state start length session.use
    (.bytes result, { session with use })
  | .read cursor bufferLength =>
    match session.cursors[cursor]? with
    | none => (.nothing, session)
    | some position =>
      let (result, position, use) := reader.read state usizeMax position bufferLength session.use
      (.read result, { use, cursors := session.cursors.set cursor position })
  | .cancel => (.nothing, { session with use := { session.use with cancelled := true } })

def machine (usizeMax : Nat) : Machine Session Call Reply where
  step := reader.serve state usizeMax

/-- The bytes that a reply returns, unless a cursor is at its end. -/
def Reply.returned? : Reply → Option Bytes
  | .bytes (.ok data) => some data
  | .read (.ok data) => if data = [] then none else some data
  | _ => none

end ObjectChunkReader

end Parquex
