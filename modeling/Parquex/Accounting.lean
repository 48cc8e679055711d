import Parquex.Counted
import Parquex.LocalStore
import Parquex.Reader
import Parquex.RemoteWriter

/-!
# The counters of active resources

The readers, local writers and multipart writers of one runtime, with the counters
of those that are active. A resource is counted once its open has nothing left to
fail, and discounted where its code clears its active flag: a close or an abort, a
publish, the death of its owner, or the drop of what is left.
-/

namespace Parquex

inductive ResourceKind
  | reader
  | writer
  | multipart
  deriving DecidableEq, Repr

/-! ## Readers -/

/-- A reader, and whether a call on it has panicked with its lock. -/
inductive ReaderTask
  | absent
  | reader (state : ReaderState) (poisoned : Bool)
  | dropped

inductive ReaderAction
  /-- The head of the object and its metadata have been read, or not. -/
  | open (file : Except NativeFailure ParquetFile) (settings : ReaderOpenSettings)
  /-- The open monitors the owner, and closes the reader when there is none. -/
  | monitor (found : Bool)
  | next
  | panic
  | close
  | cancel
  | down
  | drop

/-- What closing a reader does to the counter. -/
def ReaderState.closeMove (state : ReaderState) : CounterMove := if state.close.1 then .sub else .keep

namespace ReaderTask

def openStore (file : Except NativeFailure ParquetFile) (settings : ReaderOpenSettings) : ReaderTask × CounterMove :=
  match file with
  | .error _ => (.dropped, .keep)
  | .ok file =>
    match openBackend file settings with
    | .error _ => (.dropped, .keep)
    | .ok (state, _) => (.reader state false, .add)

/-- A close needs the lock. -/
def close (state : ReaderState) (poisoned : Bool) : ReaderTask × CounterMove :=
  if poisoned then (.reader state true, .keep) else (.reader state.close.2 false, state.closeMove)

def step (memorySize : RecordBatch → Nat) (task : ReaderTask) (action : ReaderAction) : ReaderTask × CounterMove :=
  match task, action with
  | .absent, .open file settings => openStore file settings
  | .reader state poisoned, .monitor found => if found then (.reader state poisoned, .keep) else close state poisoned
  | .reader state poisoned, .next =>
    if poisoned then (.reader state true, .keep) else (.reader (state.nextBatch memorySize).2 false, .keep)
  | .reader state _, .panic => (.reader state true, .keep)
  | .reader state poisoned, .close => close state poisoned
  | .reader state poisoned, .cancel => (.reader { state with cancelled := true } poisoned, .keep)
  | .reader state poisoned, .down => close state poisoned
  | .reader state _, .drop => (.dropped, state.closeMove)
  | task, _ => (task, .keep)

def active : ReaderTask → Bool
  | .reader state _ => state.active
  | _ => false

def past : ReaderTask → Bool
  | .absent => false
  | _ => true

end ReaderTask

/-! ## Local writers -/

/-- The next system call of a writer ends with its `finish`. -/
def LocalWriter.finishes (files : FileSystem) (fault : Option Fault) (w : LocalWriter) : WriterPhase → Bool
  | .moving _ =>
    match attempt fault .rename (files.rename w.stagePath w.destination) with
    | .ok _ => decide (w.sync ≠ .all)
    | .error _ => false
  | .syncingParent _ | .cleaning _ | .removing => true
  | _ => false

namespace Task

def move (files : FileSystem) (fault : Option Fault) (task : Task) (action : Action) : CounterMove :=
  match task, action with
  | .opening _ _ (.create _ stagePath _), .advance =>
    match attempt fault .createNew (files.createNew stagePath) with
    | .ok _ => .add
    | .error _ => .keep
  | .writer w phase, .advance => if w.active && w.finishes files fault phase then .sub else .keep
  | _, _ => .keep

def active : Task → Bool
  | .writer w _ => w.active
  | _ => false

def past : Task → Bool
  | .absent | .opening .. => false
  | _ => true

end Task

/-! ## Multipart writers -/

inductive MultipartTask
  | absent
  | writer (state : RemoteState) (poisoned : Bool)
  | failed

inductive MultipartAction
  /-- The upload has been created, or not. -/
  | open (created : Except NativeFailure Unit) (limits : S3Limits) (key : String)
  | call (event : RemoteEvent)
  | panic

/-- Calls that take the lock of the writer. -/
def RemoteEvent.locks : RemoteEvent → Bool
  | .write _ | .publish | .abort => true
  | _ => false

/-- The step comes to `finish_active`. -/
def RemoteState.finishes (s : RemoteState) (event : RemoteEvent) : Bool :=
  match event, s.phase with
  | .abort, .idle | .drop, .idle => s.writer.upload.isNone
  | .answered result, .completing => result.toOption.isSome
  | .answered _, .undoing _ | .answered _, .aborting _ => true
  | .overtaken _, .finishing _ | .overtaken _, .completing | .overtaken _, .undoing _ => s.writer.cancelled
  | .partFailed index _, .finishing upload => decide (index < upload.tasks.length)
  | _, _ => false

namespace MultipartTask

/-- A call that panics leaves the writer where it stands, with its lock poisoned. -/
def panic (state : RemoteState) : MultipartTask :=
  match state.phase with
  | .gone | .aborting true => .writer state false
  | _ => .writer { state with phase := .idle } true

def step (task : MultipartTask) (action : MultipartAction) : MultipartTask × CounterMove :=
  match task, action with
  | .absent, .open created limits key =>
    match created with
    | .error _ => (.failed, .keep)
    | .ok () => (.writer (.opened limits key) false, .add)
  | .writer state poisoned, .call event =>
    if poisoned && event.locks then (.writer state true, .keep)
    else (.writer (state.step event).2 poisoned, if state.writer.active && state.finishes event then .sub else .keep)
  | .writer state false, .panic => (panic state, .keep)
  | task, _ => (task, .keep)

def active : MultipartTask → Bool
  | .writer state _ => state.writer.active
  | _ => false

def past : MultipartTask → Bool
  | .absent => false
  | _ => true

end MultipartTask

/-! ## The runtime -/

structure NativeState where
  readers : Nat → ReaderTask
  store : LocalState
  multiparts : Nat → MultipartTask
  /-- `ACTIVE_READERS`, `ACTIVE_WRITERS` and `ACTIVE_MULTIPART`. -/
  counters : ResourceKind → Nat

inductive NativeEvent
  | reader (task : Nat) (action : ReaderAction)
  | writer (event : StoreEvent)
  | multipart (task : Nat) (action : MultipartAction)

/-- What a step does to the counter of its resource. -/
structure CountReply where
  resource : ResourceKind × Nat
  move : CounterMove

namespace NativeState

/-- No resource has been opened yet. -/
def first (files : FileSystem) (stageSequence : Nat) (counters : ResourceKind → Nat) : NativeState :=
  ⟨fun _ => .absent, .first files stageSequence, fun _ => .absent, counters⟩

def count (s : NativeState) (kind : ResourceKind) (move : CounterMove) : ResourceKind → Nat :=
  Function.update s.counters kind (move.apply (s.counters kind))

def active (s : NativeState) (resource : ResourceKind × Nat) : Bool :=
  match resource.1 with
  | .reader => (s.readers resource.2).active
  | .writer => (s.store.tasks resource.2).active
  | .multipart => (s.multiparts resource.2).active

def past (s : NativeState) (resource : ResourceKind × Nat) : Bool :=
  match resource.1 with
  | .reader => (s.readers resource.2).past
  | .writer => (s.store.tasks resource.2).past
  | .multipart => (s.multiparts resource.2).past

/-- The resource is gone, or its open has failed. -/
def Dropped (s : NativeState) (resource : ResourceKind × Nat) : Prop :=
  match resource.1 with
  | .reader => s.readers resource.2 = .dropped
  | .writer => s.store.tasks resource.2 = .done
  | .multipart => s.multiparts resource.2 = .failed ∨
      ∃ state poisoned, s.multiparts resource.2 = .writer state poisoned ∧ state.phase = .gone

variable (host : Nat → LocalHost) (memorySize : RecordBatch → Nat)

def step (s : NativeState) (event : NativeEvent) : CountReply × NativeState :=
  match event with
  | .reader task action =>
    let result := (s.readers task).step memorySize action
    (⟨(.reader, task), result.2⟩,
      { s with readers := Function.update s.readers task result.1, counters := s.count .reader result.2 })
  | .writer event =>
    let move := (s.store.tasks event.task).move s.store.files event.fault event.action
    (⟨(.writer, event.task), move⟩,
      { s with store := (LocalState.step (host event.task) s.store event).2, counters := s.count .writer move })
  | .multipart task action =>
    let result := (s.multiparts task).step action
    (⟨(.multipart, task), result.2⟩,
      { s with multiparts := Function.update s.multiparts task result.1, counters := s.count .multipart result.2 })

def machine : Machine NativeState NativeEvent CountReply := ⟨step host memorySize⟩

def accounts : Accounts NativeState CountReply (ResourceKind × Nat) ResourceKind where
  kind := Prod.fst
  active := active
  past := past
  counter := counters
  resource := CountReply.resource
  move := CountReply.move

section
variable (files : FileSystem) (stageSequence : Nat) (counters : ResourceKind → Nat) (events : List NativeEvent)

/-- The runtime after these events. -/
def reached : NativeState := (machine host memorySize).run (first files stageSequence counters) events

/-- How often the counter of a resource was moved so for it. -/
def moved (move : CounterMove) (resource : ResourceKind × Nat) : Nat :=
  accounts.times ((machine host memorySize).trace (first files stageSequence counters) events) move resource

end

end NativeState

end Parquex
