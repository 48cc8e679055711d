import Parquex.Machine
import Parquex.Object
import Parquex.ObjectKey
import Mathlib.Algebra.Group.Nat.Defs
import Mathlib.Logic.Function.Basic

/-!
# Writers of a local store

Any number of writers and deletes share the files of one store. A call holds the
lock of its writer until it returns, and is cut at its system calls: the calls of
other writers, and the cancellation that the death of an owner sets without the
lock, come between any two of them. A fault names the system call that the
environment lets fail.
-/

namespace Parquex

/-! ## System calls that may fail -/

inductive SystemCall
  | metadata | createDir | canonicalize | createNew | writeAll | flush | sync | removeStage
  | removeDestination | rename | syncParent | removeObject
  deriving DecidableEq, Repr

/-- A failing call; a failing write has appended the first bytes of its chunk. -/
structure Fault where
  call : SystemCall
  kind : IoErrorKind
  written : Nat
  deriving DecidableEq, Repr

def faultOf (fault : Option Fault) (call : SystemCall) : Option IoErrorKind :=
  fault.bind fun f => if f.call = call then some f.kind else none

def attempt {α : Type} (fault : Option Fault) (call : SystemCall) (result : Except IoErrorKind α) :
    Except IoErrorKind α :=
  match faultOf fault call with
  | some kind => .error kind
  | none => result

/-! ## Locations -/

/-- What stays the same while a store is in use. -/
structure LocalHost where
  root : Path
  pid : Nat
  windows : Bool

def openLocal (fs : FileSystem) (path : Path) : Except NativeFailure Path :=
  match fs.canonicalize path with
  | .error kind => .error (.fromIo .storeOpen kind)
  | .ok root =>
    if fs.get root = some .directory then .ok root
    else .error (.invalid .storeOpen "local store root must be a directory")

namespace LocalHost

variable (host : LocalHost)

def location (key : String) : Path := host.root ++ keyPath key

def enforceAllowedRoot (fs : FileSystem) (canonical : Path) (operation : Operation) : Except NativeFailure Unit :=
  match fs.canonicalize host.root with
  | .error kind => .error (.fromIo operation kind)
  | .ok root =>
    if root.isPrefixOf canonical then .ok ()
    else .error (.new .permissionDenied operation "object is outside the configured allowed root")

def resolveExisting (fs : FileSystem) (path : Path) (operation : Operation) : Except NativeFailure Path :=
  match fs.canonicalize path with
  | .error kind => .error (.fromIo operation kind)
  | .ok canonical => do
    host.enforceAllowedRoot fs canonical operation
    return canonical

def resolveDestination (fs : FileSystem) (path : Path) (operation : Operation) : Except NativeFailure Path :=
  match path.getLast? with
  | none => .error (.invalid operation "destination requires a parent directory")
  | some name =>
    match fs.canonicalize path.dropLast with
    | .error kind => .error (.fromIo operation kind)
    | .ok parent => do
      host.enforceAllowedRoot fs parent operation
      return parent ++ [name]

/-- The metadata of an object under the name that the store gives it. -/
def localMetadata (path : Path) (size : Nat) : Except NativeFailure ObjectMetadata :=
  if host.root.isPrefixOf path then .ok { path := joinSlash (path.drop host.root.length), size }
  else .error (.invalid .storeHead "invalid local object path")

def stageName (fileName : String) (sequence : Nat) : String :=
  "." ++ fileName ++ ".parquex-" ++ toString host.pid ++ "-" ++ toString sequence ++ ".tmp"

end LocalHost

/-- The size of a regular file. -/
def metadataFor (fs : FileSystem) (path : Path) (operation : Operation) : Except NativeFailure Nat :=
  match fs.canonicalize path with
  | .error kind => .error (.fromIo operation kind)
  | .ok canonical =>
    match fs.get canonical with
    | some (.file content) => .ok content.length
    | _ => .error (.invalid operation "object operation requires a regular file")

/-! ## Tasks -/

structure LocalWriter where
  file : Bool
  stagePath : Path
  destination : Path
  flush : FlushPolicy
  sync : SyncPolicy
  cancelled : Bool
  active : Bool
  deriving DecidableEq

/-- The system call before which an open stands. -/
inductive OpenPhase
  | lookup (current left : Path)
  | createDir (current left : Path)
  | resolve
  | allocate (destination : Path) (attempts : Nat)
  | create (destination stagePath : Path) (attempts : Nat)

/-- The system call before which a writer stands, if one of its calls is running. -/
inductive WriterPhase
  | idle
  | writing (chunk : Bytes)
  | syncing
  | statting
  | replacing (size : Nat)
  | moving (size : Nat)
  | syncingParent (size : Nat)
  | cleaning (failure : Option NativeFailure)
  | removing

inductive DeletePhase
  | resolve (key : String)
  | remove (path : Path)

inductive Task
  | absent
  | opening (key : String) (options : WriteOptions) (phase : OpenPhase)
  | writer (writer : LocalWriter) (phase : WriterPhase)
  | deleting (phase : DeletePhase)
  | done

/-- A call, the next system call of the running one, or the owner's death. -/
inductive Action
  | openWriter (key : String) (options : WriteOptions)
  | delete (key : String)
  | write (chunk : Bytes)
  | publish
  | abort
  | drop
  | cancel
  | advance

structure StoreEvent where
  task : Nat
  action : Action
  fault : Option Fault

inductive StoreReply
  | blocked
  | running
  | rejected (error : Error)
  | failed (failure : NativeFailure)
  | opened
  | written (count : Nat)
  | published (metadata : ObjectMetadata)
  | aborted (active : Bool)
  | dropped
  | deleted

/-- A reply, and what the task leaves. -/
structure TaskStep where
  reply : StoreReply
  files : FileSystem
  stageSequence : Nat
  task : Task

variable (host : LocalHost) (files : FileSystem) (stageSequence : Nat) (fault : Option Fault)

/-! ## Opening a writer -/

/-- Look at the next directory above the object, or resolve the destination when all are there. -/
def OpenPhase.parents (current : Path) : Path → OpenPhase
  | [] => .resolve
  | name :: left => .lookup (current ++ [name]) left

def beginOpen (key : String) (options : WriteOptions) : TaskStep :=
  match normalizeKey key with
  | .error error => ⟨.rejected error, files, stageSequence, .done⟩
  | .ok key =>
    match validateKey key false with
    | .error failure => ⟨.failed failure, files, stageSequence, .done⟩
    | .ok () =>
      ⟨.running, files, stageSequence, .opening key options (.parents host.root (keyPath key).dropLast)⟩

def advanceOpen (key : String) (options : WriteOptions) : OpenPhase → TaskStep
  | .lookup current left =>
    match attempt fault .metadata ((files.get current).elim (.error .notFound) .ok) with
    | .ok (.symlink ..) =>
      ⟨.failed (.invalid .storeWriterOpen "local object parent cannot contain symlinks"), files, stageSequence, .done⟩
    | .ok (.file _) =>
      ⟨.failed (.invalid .storeWriterOpen "local object parent must be a directory"), files, stageSequence, .done⟩
    | .ok .directory => ⟨.running, files, stageSequence, .opening key options (.parents current left)⟩
    | .error .notFound => ⟨.running, files, stageSequence, .opening key options (.createDir current left)⟩
    | .error kind => ⟨.failed (.fromIo .storeWriterOpen kind), files, stageSequence, .done⟩
  | .createDir current left =>
    match attempt fault .createDir (files.createDir current) with
    | .error kind => ⟨.failed (.fromIo .storeWriterOpen kind), files, stageSequence, .done⟩
    | .ok files => ⟨.running, files, stageSequence, .opening key options (.parents current left)⟩
  | .resolve =>
    match faultOf fault .canonicalize with
    | some kind => ⟨.failed (.fromIo .writerOpen kind), files, stageSequence, .done⟩
    | none =>
      match host.resolveDestination files (host.location key) .writerOpen with
      | .error failure => ⟨.failed failure, files, stageSequence, .done⟩
      | .ok destination => ⟨.running, files, stageSequence, .opening key options (.allocate destination 63)⟩
  | .allocate destination attempts =>
    let stagePath := destination.dropLast ++ [host.stageName (destination.getLast?.getD "") stageSequence]
    ⟨.running, files, (stageSequence + 1) % 2 ^ 64, .opening key options (.create destination stagePath attempts)⟩
  | .create destination stagePath attempts =>
    match attempt fault .createNew (files.createNew stagePath) with
    | .ok files =>
      ⟨.opened, files, stageSequence,
        .writer
          { file := true, stagePath, destination, flush := options.flush, sync := options.sync,
            cancelled := false, active := true }
          .idle⟩
    | .error .alreadyExists =>
      match attempts with
      | 0 =>
        ⟨.failed (.new .conflict .writerOpen "could not allocate a unique staging file"), files, stageSequence, .done⟩
      | attempts + 1 => ⟨.running, files, stageSequence, .opening key options (.allocate destination attempts)⟩
    | .error kind => ⟨.failed (.fromIo .writerOpen kind), files, stageSequence, .done⟩

/-! ## Calls on an open writer -/

namespace LocalWriter

def finish (w : LocalWriter) : LocalWriter := { w with active := false }

def takeFile (w : LocalWriter) : LocalWriter := { w with file := false }

def cancel (w : LocalWriter) : LocalWriter := { w with cancelled := true }

def ensureOpen (w : LocalWriter) (operation : Operation) : Except NativeFailure Unit :=
  if w.cancelled then .error (.cancelled operation)
  else if w.active && w.file then .ok ()
  else .error (.cancelled operation)

def beginWrite (w : LocalWriter) (chunk : Bytes) : TaskStep :=
  match w.ensureOpen .writerWrite with
  | .error failure => ⟨.failed failure, files, stageSequence, .writer w .idle⟩
  | .ok () => ⟨.running, files, stageSequence, .writer w (.writing chunk)⟩

/-- A failed step of a publish; the staging file goes next. -/
def cleanup (w : LocalWriter) (failure : NativeFailure) : TaskStep :=
  ⟨.running, files, stageSequence, .writer w.takeFile (.cleaning (some failure))⟩

def beginPublish (w : LocalWriter) : TaskStep :=
  match w.ensureOpen .writerPublish with
  | .error failure => ⟨.failed failure, files, stageSequence, .writer w .idle⟩
  | .ok () =>
    match if w.flush = .none then none else faultOf fault .flush with
    | some kind => w.cleanup files stageSequence (.fromIo .writerPublish kind)
    | none => ⟨.running, files, stageSequence, .writer w (if w.sync = .none then .statting else .syncing)⟩

def beginAbort (w : LocalWriter) : TaskStep :=
  if w.active then ⟨.running, files, stageSequence, .writer w.cancel.takeFile .removing⟩
  else ⟨.aborted false, files, stageSequence, .writer w .idle⟩

def beginDrop (w : LocalWriter) : TaskStep :=
  if w.active then ⟨.running, files, stageSequence, .writer w.cancel.takeFile (.cleaning none)⟩
  else ⟨.dropped, files, stageSequence, .done⟩

def publishedReply (w : LocalWriter) (size : Nat) : StoreReply :=
  match host.localMetadata w.destination size with
  | .ok metadata => .published metadata
  | .error failure => .failed failure

def advance (w : LocalWriter) : WriterPhase → TaskStep
  | .idle => ⟨.blocked, files, stageSequence, .writer w .idle⟩
  | .writing chunk =>
    match faultOf fault .writeAll with
    | some kind =>
      let appended := chunk.take ((fault.map Fault.written).getD 0)
      ⟨.failed (.fromIo .writerWrite kind), files.append w.stagePath appended, stageSequence, .writer w .idle⟩
    | none =>
      let files := files.append w.stagePath chunk
      match if w.flush = .eachChunk then faultOf fault .flush else none with
      | some kind => ⟨.failed (.fromIo .writerWrite kind), files, stageSequence, .writer w .idle⟩
      | none => ⟨.written chunk.length, files, stageSequence, .writer w .idle⟩
  | .syncing =>
    match faultOf fault .sync with
    | some kind => w.cleanup files stageSequence (.fromIo .writerPublish kind)
    | none => ⟨.running, files, stageSequence, .writer w .statting⟩
  | .statting =>
    match faultOf fault .metadata with
    | some kind => w.cleanup files stageSequence (.fromIo .writerPublish kind)
    | none =>
      match metadataFor files w.stagePath .writerPublish with
      | .error failure => w.cleanup files stageSequence failure
      | .ok size =>
        ⟨.running, files, stageSequence,
          .writer w.takeFile (if host.windows then .replacing size else .moving size)⟩
  | .replacing size =>
    match attempt fault .removeDestination (files.removeFile w.destination) with
    | .ok files => ⟨.running, files, stageSequence, .writer w (.moving size)⟩
    | .error .notFound => ⟨.running, files, stageSequence, .writer w (.moving size)⟩
    | .error kind => w.cleanup files stageSequence (.fromIo .writerPublish kind)
  | .moving size =>
    match attempt fault .rename (files.rename w.stagePath w.destination) with
    | .error kind => w.cleanup files stageSequence (.fromIo .writerPublish kind)
    | .ok files =>
      if w.sync = .all then ⟨.running, files, stageSequence, .writer w (.syncingParent size)⟩
      else ⟨w.publishedReply host size, files, stageSequence, .writer w.finish .idle⟩
  | .syncingParent size =>
    match faultOf fault .syncParent with
    | some _ =>
      ⟨.failed (.new .nativeFailure .writerPublish "destination directory sync failed"), files, stageSequence,
        .writer w.finish .idle⟩
    | none => ⟨w.publishedReply host size, files, stageSequence, .writer w.finish .idle⟩
  | .cleaning failure =>
    let files := (attempt fault .removeStage (files.removeFile w.stagePath)).toOption.getD files
    match failure with
    | some failure => ⟨.failed failure, files, stageSequence, .writer w.finish .idle⟩
    | none => ⟨.dropped, files, stageSequence, .done⟩
  | .removing =>
    match attempt fault .removeStage (files.removeFile w.stagePath) with
    | .ok files => ⟨.aborted true, files, stageSequence, .writer w.finish .idle⟩
    | .error .notFound => ⟨.aborted true, files, stageSequence, .writer w.finish .idle⟩
    | .error kind => ⟨.failed (.fromIo .writerAbort kind), files, stageSequence, .writer w.finish .idle⟩

end LocalWriter

/-! ## Deleting an object -/

def beginDelete (key : String) : TaskStep :=
  match normalizeKey key with
  | .error error => ⟨.rejected error, files, stageSequence, .done⟩
  | .ok key =>
    match validateKey key false with
    | .error failure => ⟨.failed failure, files, stageSequence, .done⟩
    | .ok () => ⟨.running, files, stageSequence, .deleting (.resolve key)⟩

def advanceDelete : DeletePhase → TaskStep
  | .resolve key =>
    match faultOf fault .canonicalize with
    | some kind => ⟨.failed (.fromIo .delete kind), files, stageSequence, .done⟩
    | none =>
      match host.resolveExisting files (host.location key) .delete with
      | .error failure => ⟨.failed failure, files, stageSequence, .done⟩
      | .ok path => ⟨.running, files, stageSequence, .deleting (.remove path)⟩
  | .remove path =>
    match attempt fault .removeObject (files.removeFile path) with
    | .error kind => ⟨.failed (.fromIo .delete kind), files, stageSequence, .done⟩
    | .ok files => ⟨.deleted, files, stageSequence, .done⟩

/-! ## The store -/

/-- One step of a task; a call that cannot be made now is blocked. -/
def Task.step (task : Task) (action : Action) : TaskStep :=
  match task, action with
  | .absent, .openWriter key options => beginOpen host files stageSequence key options
  | .absent, .delete key => beginDelete files stageSequence key
  | .opening key options phase, .advance => advanceOpen host files stageSequence fault key options phase
  | .deleting phase, .advance => advanceDelete host files stageSequence fault phase
  | .writer w .idle, .write chunk => w.beginWrite files stageSequence chunk
  | .writer w .idle, .publish => w.beginPublish files stageSequence fault
  | .writer w .idle, .abort => w.beginAbort files stageSequence
  | .writer w .idle, .drop => w.beginDrop files stageSequence
  | .writer w phase, .cancel => ⟨.running, files, stageSequence, .writer w.cancel phase⟩
  | .writer w phase, .advance => w.advance host files stageSequence fault phase
  | task, _ => ⟨.blocked, files, stageSequence, task⟩

structure LocalState where
  files : FileSystem
  stageSequence : Nat
  tasks : Nat → Task

namespace LocalState

/-- A store that no writer has touched. -/
def first (files : FileSystem) (stageSequence : Nat) : LocalState := ⟨files, stageSequence, fun _ => .absent⟩

def step (s : LocalState) (event : StoreEvent) : StoreReply × LocalState :=
  let result := (s.tasks event.task).step host s.files s.stageSequence event.fault event.action
  (result.reply,
    { files := result.files
      stageSequence := result.stageSequence
      tasks := Function.update s.tasks event.task result.task })

def machine : Machine LocalState StoreEvent StoreReply := ⟨step host⟩

end LocalState

end Parquex
