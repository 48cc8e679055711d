import Parquex.Machine
import Parquex.Object

/-!
# Multipart writers of a remote store

One writer and the upload it owns. A call holds the lock of the writer and is cut
where it waits for the remote store; parts finish and the owner dies at any time,
without the lock. A wait that the death of the owner overtakes drops its request
and the upload with it.
-/

namespace Parquex

/-! ## Limits -/

/-- The limits of a store, within what its options allow. -/
structure S3Limits where
  multipartPartSize : Nat
  maxInFlightParts : Nat
  partSize_bounds : 5 * 1024 * 1024 ≤ multipartPartSize ∧ multipartPartSize ≤ 512 * 1024 * 1024
  inFlight_bounds : 1 ≤ maxInFlightParts ∧ maxInFlightParts ≤ 16

/-- The largest `usize`. -/
def usizeMax : Nat := 18446744073709551615

def S3Limits.multipartBufferLimitBytes (limits : S3Limits) : Nat :=
  min (min (limits.maxInFlightParts + 1) usizeMax * limits.multipartPartSize) usizeMax

theorem S3Limits.multipartBufferLimitBytes_eq (limits : S3Limits) :
    limits.multipartBufferLimitBytes = (limits.maxInFlightParts + 1) * limits.multipartPartSize := by
  have hp := limits.partSize_bounds.2
  have hm := limits.inFlight_bounds.2
  have hmul : (limits.maxInFlightParts + 1) * limits.multipartPartSize ≤ 17 * (512 * 1024 * 1024) :=
    Nat.mul_le_mul (by omega) hp
  unfold multipartBufferLimitBytes usizeMax
  rw [Nat.min_eq_left (a := limits.maxInFlightParts + 1) (by omega), Nat.min_eq_left (by omega)]

/-! ## The state -/

/-- The partial part, and the parts whose uploads are under way. -/
structure WriteMultipart where
  buffer : Bytes
  tasks : List Bytes

structure RemoteWriter where
  limits : S3Limits
  key : String
  upload : Option WriteMultipart
  cancelled : Bool
  active : Bool
  bytesWritten : Nat

/-- Where the running call of a writer waits. -/
inductive RemotePhase
  | idle
  /-- A write for the capacity to start a part. -/
  | waiting (buffer : Bytes)
  /-- A write with bytes left to put into parts. -/
  | filling (left : Bytes) (length : Nat)
  /-- A publish for the last parts, for the completion, or for the abort that a failed completion asks for. -/
  | finishing (upload : WriteMultipart)
  | completing
  | undoing (kind : RemoteErrorKind)
  /-- A publish for the metadata of the object. -/
  | heading
  /-- An abort, or the abort of a drop. -/
  | aborting (dropping : Bool)
  | gone

/-- The writer, and what the store was asked to do with its upload. -/
structure RemoteState where
  writer : RemoteWriter
  phase : RemotePhase
  completed : Bool
  abortRequested : Bool

/-- A call, the owner's death, or a step of the remote store. -/
inductive RemoteEvent
  | write (buffer : Bytes)
  | publish
  | abort
  | drop
  | cancel
  /-- There is capacity for one more part. -/
  | capacity
  /-- The next bytes of a buffer go to the partial part. -/
  | copy
  | partDone (index : Nat)
  /-- The wait joins a part whose upload failed. -/
  | partFailed (index : Nat) (kind : RemoteErrorKind)
  /-- No part is left under way when the completion is requested. -/
  | uploaded
  | answered (result : Except RemoteErrorKind Nat)
  /-- The cancellation wins; the store may still have seen the completion. -/
  | overtaken (completed : Bool)

inductive RemoteReply
  | blocked
  | running
  | written (count : Nat)
  | published (metadata : ObjectMetadata)
  | aborted (active : Bool)
  | dropped
  | failed (failure : NativeFailure)

/-! ## The calls -/

/-- Append bytes to the partial part, up to the end of a part, and start its upload there. -/
def WriteMultipart.copy (partSize : Nat) (upload : WriteMultipart) (left : Bytes) : WriteMultipart × Bytes :=
  let remaining := partSize - upload.buffer.length
  let toRead := min left.length remaining
  let buffer := upload.buffer ++ left.take toRead
  if toRead = remaining then ({ buffer := [], tasks := upload.tasks ++ [buffer] }, left.drop toRead)
  else ({ upload with buffer }, left.drop toRead)

/-- The parts that a finish waits for. -/
def WriteMultipart.flushed (upload : WriteMultipart) : WriteMultipart :=
  if upload.buffer = [] then upload else { buffer := [], tasks := upload.tasks ++ [upload.buffer] }

namespace RemoteState

variable (s : RemoteState)

def put (upload : Option WriteMultipart) (phase : RemotePhase) : RemoteState :=
  { s with writer := { s.writer with upload }, phase }

def finishActive (phase : RemotePhase) : RemoteState := { s with writer := { s.writer with active := false }, phase }

def writeFailed : RemoteReply × RemoteState :=
  (.failed (.expected .storeWriterWrite "write failed"), { s with phase := .idle })

def beginWrite (buffer : Bytes) : RemoteReply × RemoteState :=
  if s.writer.cancelled then s.writeFailed
  else
    match s.writer.upload with
    | none => s.writeFailed
    | some _ => (.running, { s with phase := .waiting buffer })

/-- One round of the loop that fills parts. -/
def fill (left : Bytes) (length : Nat) : RemoteReply × RemoteState :=
  match left, s.writer.upload with
  | [], _ =>
    (.written length,
      { s with writer := { s.writer with bytesWritten := s.writer.bytesWritten + length }, phase := .idle })
  | _, none => (.blocked, s)
  | left, some upload =>
    let (upload, left) := upload.copy s.writer.limits.multipartPartSize left
    (.running, s.put (some upload) (.filling left length))

def beginPublish : RemoteReply × RemoteState :=
  if s.writer.cancelled then (.failed (.cancelled .s3WriterPublish), s)
  else
    match s.writer.upload with
    | none => (.failed (.cancelled .s3WriterPublish), s)
    | some upload => (.running, s.put none (.finishing upload.flushed))

def beginAbort (dropping : Bool) : RemoteReply × RemoteState :=
  let done : RemoteReply × RemotePhase → RemoteReply × RemotePhase := fun result =>
    if dropping then (.dropped, .gone) else result
  if !s.writer.active then
    let (reply, phase) := done (.aborted false, .idle)
    (reply, { s with phase })
  else
    let s := { s with writer := { s.writer with cancelled := true } }
    match s.writer.upload with
    | some _ => (.running, { s.put none (.aborting dropping) with abortRequested := true })
    | none =>
      let (reply, phase) := done (.aborted true, .idle)
      (reply, s.finishActive phase)

/-- The remote store has replied. -/
def answer (result : Except RemoteErrorKind Nat) : RemoteReply × RemoteState :=
  match s.phase with
  | .completing =>
    match result with
    | .ok _ => (.running, { s.finishActive .heading with completed := true })
    | .error kind => (.running, { s with phase := .undoing kind, abortRequested := true })
  | .undoing kind =>
    match result with
    | .ok _ => (.failed (.remoteError .s3WriterPublish kind), s.finishActive .idle)
    | .error kind => (.failed (.remoteError .s3WriterPublish kind), s.finishActive .idle)
  | .heading =>
    match result with
    | .ok size => (.published { path := s.writer.key, size }, { s with phase := .idle })
    | .error kind => (.failed (.remoteError .s3WriterPublish kind), { s with phase := .idle })
  | .aborting dropping =>
    if dropping then (.dropped, s.finishActive .gone)
    else
      match result with
      | .ok _ => (.aborted true, s.finishActive .idle)
      | .error kind => (.failed (.remoteError .s3WriterAbort kind), s.finishActive .idle)
  | _ => (.blocked, s)

/-- The cancellation branch of a wait is taken. -/
def overtake (completed : Bool) : RemoteReply × RemoteState :=
  let failed : RemoteReply := .failed (.cancelled .s3WriterPublish)
  if s.writer.cancelled then
    match s.phase with
    | .waiting _ => s.writeFailed
    | .finishing _ => (failed, s.finishActive .idle)
    | .completing => (failed, { s.finishActive .idle with completed })
    | .undoing _ => (failed, s.finishActive .idle)
    | .heading => (failed, { s with phase := .idle })
    | _ => (.blocked, s)
  else (.blocked, s)

/-- A part is no longer under way. -/
def joinPart (index : Nat) : RemoteReply × RemoteState :=
  let join (upload : WriteMultipart) : WriteMultipart := { upload with tasks := upload.tasks.eraseIdx index }
  match s.phase with
  | .finishing upload => (.running, { s with phase := .finishing (join upload) })
  | _ => (.running, s.put (s.writer.upload.map join) s.phase)

def failPart (index : Nat) (kind : RemoteErrorKind) : RemoteReply × RemoteState :=
  match s.phase with
  | .waiting _ =>
    if index < (s.writer.upload.elim [] WriteMultipart.tasks).length then (s.joinPart index).2.writeFailed
    else (.blocked, s)
  | .finishing upload =>
    if index < upload.tasks.length then (.failed (.remoteError .s3WriterPublish kind), s.finishActive .idle)
    else (.blocked, s)
  | _ => (.blocked, s)

def step (s : RemoteState) (event : RemoteEvent) : RemoteReply × RemoteState :=
  match event, s.phase with
  | .write buffer, .idle => s.beginWrite buffer
  | .publish, .idle => s.beginPublish
  | .abort, .idle => s.beginAbort false
  | .drop, .idle => s.beginAbort true
  | .cancel, _ => (.running, { s with writer := { s.writer with cancelled := true } })
  | .capacity, .waiting buffer =>
    if (s.writer.upload.elim [] WriteMultipart.tasks).length < s.writer.limits.maxInFlightParts then
      (.running, { s with phase := .filling buffer buffer.length })
    else (.blocked, s)
  | .copy, .filling left length => s.fill left length
  | .partDone index, _ => s.joinPart index
  | .partFailed index kind, _ => s.failPart index kind
  | .uploaded, .finishing upload =>
    if upload.tasks = [] then (.running, { s with phase := .completing }) else (.blocked, s)
  | .answered result, _ => s.answer result
  | .overtaken completed, _ => s.overtake completed
  | _, _ => (.blocked, s)

def machine : Machine RemoteState RemoteEvent RemoteReply := ⟨step⟩

/-- A writer whose upload has just been created. -/
def opened (limits : S3Limits) (key : String) : RemoteState where
  writer := {
    limits, key, upload := some { buffer := [], tasks := [] }, cancelled := false, active := true, bytesWritten := 0 }
  phase := .idle
  completed := false
  abortRequested := false

end RemoteState

end Parquex
