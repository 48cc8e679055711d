import Parquex.RemoteNamespace
import Parquex.RemoteWriterSound

/-!
# Writers of a remote store

Any number of uploads and deletes of one store. A request that changes an object
is in flight from its sending on: the service carries it out at any time, also
when its caller has stopped waiting. A delete may be sent again and be carried out
again; a completion uses up its upload. A caller hears of a success only when its
request has been carried out.
-/

namespace Parquex

/-! ## Tasks -/

/-- The parts that a step hands over to the upload, in the order of their numbers. -/
def RemoteState.handed (s : RemoteState) (event : RemoteEvent) : List Bytes :=
  match event, s.phase, s.writer.upload with
  | .copy, .filling left _, some upload =>
    if left = [] then [] else (upload.copy s.writer.limits.multipartPartSize left).1.tasks.drop upload.tasks.length
  | .publish, .idle, some upload => if s.writer.cancelled then [] else upload.flushed.tasks.drop upload.tasks.length
  | _, _, _ => []

def RemotePhase.isCompleting : RemotePhase → Bool
  | .completing => true
  | _ => false

/-- A writer, and what the service has of its upload. -/
structure UploadTask where
  key : String
  location : String
  state : RemoteState
  parts : List Bytes
  /-- The completion has been sent. -/
  requested : Bool
  /-- The completion has been carried out. -/
  served : Bool

namespace UploadTask

variable (t : UploadTask) (contents : String → Option Bytes)

/-- The service answers no success without the act, and the size of an object as it is. -/
def answerable (event : RemoteEvent) : Bool :=
  match event, t.state.phase with
  | .answered (.ok _), .completing => t.served
  | .overtaken completed, .completing => completed == t.served
  | .answered (.ok size), .heading => (contents t.location).map List.length == some size
  | _, _ => true

def advance (event : RemoteEvent) : UploadTask :=
  { t with
    state := (t.state.step event).2
    parts := t.parts ++ t.state.handed event
    requested := t.requested || (t.state.step event).2.phase.isCompleting }

end UploadTask

inductive RemoteTask
  | absent
  | opening (key location : String)
  | writer (t : UploadTask)
  | deleting (key location : String) (served answered : Bool)
  | done

inductive RemoteAction
  | openWriter (key : String)
  | delete (key : String)
  /-- The service replies to the request for an upload or for a delete. -/
  | answered (result : Except RemoteErrorKind Unit)
  | writer (event : RemoteEvent)
  /-- The service carries out the completion or the delete that the task has sent. -/
  | serve

structure RemoteStoreEvent where
  task : Nat
  action : RemoteAction

inductive RemoteStoreReply
  | blocked
  | running
  | rejected (error : Error)
  | failed (failure : NativeFailure)
  | opened
  | writer (reply : RemoteReply)
  | deleted
  | completed
  | removed

/-! ## The store -/

structure RemoteWorld where
  contents : String → Option Bytes
  tasks : Nat → RemoteTask

namespace RemoteWorld

def first (contents : String → Option Bytes) : RemoteWorld := ⟨contents, fun _ => .absent⟩

/-- A reply, and what the task and the objects become. -/
structure Outcome where
  reply : RemoteStoreReply
  contents : String → Option Bytes
  task : RemoteTask

section
variable {σ : Type} (remote : RemoteStore σ) (limits : S3Limits) (contents : String → Option Bytes)

/-- The location of a key that the library and the native store take. -/
def locate (key : String) : Except RemoteStoreReply (String × String) :=
  match normalizeKey key with
  | .error error => .error (.rejected error)
  | .ok key =>
    match (do validateKey key false; remote.object key) with
    | .error failure => .error (.failed failure)
    | .ok object => .ok (key, object.path)

def begin (key : String) (task : String → String → RemoteTask) : Outcome :=
  match locate remote key with
  | .error reply => ⟨reply, contents, .done⟩
  | .ok (key, location) => ⟨.running, contents, task key location⟩

def answerOpen (key location : String) : Except RemoteErrorKind Unit → Outcome
  | .error kind => ⟨.failed (.remoteError .s3WriterOpen kind), contents, .done⟩
  | .ok () =>
    ⟨.opened, contents,
      .writer { key, location, state := .opened limits key, parts := [], requested := false, served := false }⟩

def answerDelete (key location : String) (served : Bool) (result : Except RemoteErrorKind Unit) : Outcome :=
  match result, served with
  | .error kind, _ => ⟨.failed (.remoteError .s3Delete kind), contents, .deleting key location served true⟩
  | .ok (), true => ⟨.deleted, contents, .deleting key location served true⟩
  | .ok (), false => ⟨.blocked, contents, .deleting key location served false⟩

def advanceWriter (t : UploadTask) (event : RemoteEvent) : Outcome :=
  if t.answerable contents event then ⟨.writer (t.state.step event).1, contents, .writer (t.advance event)⟩
  else ⟨.blocked, contents, .writer t⟩

def serveCompletion (t : UploadTask) : Outcome :=
  if t.requested && !t.served then
    ⟨.completed, Function.update contents t.location (some t.parts.flatten), .writer { t with served := true }⟩
  else ⟨.blocked, contents, .writer t⟩

def stepTask (task : RemoteTask) (action : RemoteAction) : Outcome :=
  match task, action with
  | .absent, .openWriter key => begin remote contents key .opening
  | .absent, .delete key => begin remote contents key fun key location => .deleting key location false false
  | .opening key location, .answered result => answerOpen limits contents key location result
  | .deleting key location served false, .answered result => answerDelete contents key location served result
  | .deleting key location _ answered, .serve =>
    ⟨.removed, Function.update contents location none, .deleting key location true answered⟩
  | .writer t, .writer event => advanceWriter contents t event
  | .writer t, .serve => serveCompletion contents t
  | task, _ => ⟨.blocked, contents, task⟩

def step (s : RemoteWorld) (event : RemoteStoreEvent) : RemoteStoreReply × RemoteWorld :=
  let outcome := stepTask remote limits s.contents (s.tasks event.task) event.action
  (outcome.reply, ⟨outcome.contents, Function.update s.tasks event.task outcome.task⟩)

def machine : Machine RemoteWorld RemoteStoreEvent RemoteStoreReply := ⟨step remote limits⟩

end

end RemoteWorld

/-! ## The map that the store is to be -/

namespace Ledger

def hear (l : Ledger) (event : RemoteStoreEvent) : Ledger :=
  match event.action with
  | .openWriter key => { l with key := Function.update l.key event.task key }
  | .delete key => { l with key := Function.update l.key event.task key }
  | .writer (.write chunk) => { l with chunk := Function.update l.chunk event.task chunk }
  | _ => l

def credit (l : Ledger) (task : Nat) : RemoteStoreReply → Ledger
  | .writer (.written _) => { l with accepted := Function.update l.accepted task (l.accepted task ++ l.chunk task) }
  | .completed => { l with contents := Function.update l.contents (l.key task) (some (l.accepted task)) }
  | .removed => { l with contents := Function.update l.contents (l.key task) none }
  | _ => l

/-- What the callers are told of an event, and when the service carries a request out. -/
def note (l : Ledger) (entry : RemoteStoreEvent × RemoteStoreReply) : Ledger :=
  match entry.2 with
  | .blocked | .writer .blocked => l
  | reply => (l.hear entry.1).credit entry.1.task reply

def noted (l : Ledger) (history : List (RemoteStoreEvent × RemoteStoreReply)) : Ledger := history.foldl note l

end Ledger

end Parquex
