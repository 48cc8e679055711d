import Parquex.Directory
import Parquex.LocalObjects

/-!
# Opening a writer on any tree

The open of a local writer on a tree that may hold links anywhere. A system call
follows the links on the way to the last name of its path; a call that creates or
only looks does not follow that name itself.
-/

namespace Parquex

namespace FileSystem

/-- The place that a path names when its last name is not followed. -/
def place (fs : FileSystem) (p : Path) : Except IoErrorKind Path :=
  match p.getLast? with
  | none => .ok []
  | some name =>
    match fs.canonicalize p.dropLast with
    | .error kind => .error kind
    | .ok parent => .ok (parent ++ [name])

def symlinkMetadata (fs : FileSystem) (p : Path) : Except IoErrorKind Entry := do
  let p ← fs.place p
  fs.requireParent p
  (fs.get p).elim (.error .notFound) .ok

def createDirAt (fs : FileSystem) (p : Path) : Except IoErrorKind FileSystem := do
  let p ← fs.place p
  fs.createDir p

def createNewAt (fs : FileSystem) (p : Path) : Except IoErrorKind FileSystem := do
  let p ← fs.place p
  fs.createNew p

end FileSystem

/-- A writer, or why there is none, with the files and the sequence number that the open leaves. -/
structure Opened where
  result : Except NativeFailure LocalWriter
  files : FileSystem
  stageSequence : Nat

/-- What the open returns to its caller. -/
def Opened.step (o : Opened) : TaskStep :=
  match o.result with
  | .ok writer => ⟨.opened, o.files, o.stageSequence, .writer writer .idle⟩
  | .error failure => ⟨.failed failure, o.files, o.stageSequence, .done⟩

namespace LocalHost

variable (host : LocalHost)

/-- Create the directories that are missing on the way to an object. -/
def ensureLocalParent (files : FileSystem) (current : Path) : Path → Except NativeFailure Unit × FileSystem
  | [] => (.ok (), files)
  | name :: left =>
    match files.symlinkMetadata (current ++ [name]) with
    | .ok (.symlink ..) =>
      (.error (.invalid .storeWriterOpen "local object parent cannot contain symlinks"), files)
    | .ok (.file _) => (.error (.invalid .storeWriterOpen "local object parent must be a directory"), files)
    | .ok .directory => ensureLocalParent files (current ++ [name]) left
    | .error .notFound =>
      match files.createDirAt (current ++ [name]) with
      | .error kind => (.error (.fromIo .storeWriterOpen kind), files)
      | .ok files => ensureLocalParent files (current ++ [name]) left
    | .error kind => (.error (.fromIo .storeWriterOpen kind), files)

/-- Create a staging file beside the destination, under the first name that is free. -/
def openStage (destination : Path) (options : WriteOptions) : Nat → FileSystem → Nat → Opened
  | 0, files, stageSequence =>
    ⟨.error (.new .conflict .writerOpen "could not allocate a unique staging file"), files, stageSequence⟩
  | attempts + 1, files, stageSequence =>
    let stagePath := destination.dropLast ++ [host.stageName (destination.getLast?.getD "") stageSequence]
    match files.createNewAt stagePath with
    | .ok files =>
      ⟨.ok {
          file := true, stagePath, destination, flush := options.flush, sync := options.sync, cancelled := false,
          active := true },
        files, (stageSequence + 1) % 2 ^ 64⟩
    | .error .alreadyExists => openStage destination options attempts files ((stageSequence + 1) % 2 ^ 64)
    | .error kind => ⟨.error (.fromIo .writerOpen kind), files, (stageSequence + 1) % 2 ^ 64⟩

def openWriter (files : FileSystem) (stageSequence : Nat) (key : String) (options : WriteOptions) : Opened :=
  match validateKey key false with
  | .error failure => ⟨.error failure, files, stageSequence⟩
  | .ok () =>
    match ensureLocalParent files host.root (keyPath key).dropLast with
    | (.error failure, files) => ⟨.error failure, files, stageSequence⟩
    | (.ok (), files) =>
      match host.resolveDestination files (host.location key) .writerOpen with
      | .error failure => ⟨.error failure, files, stageSequence⟩
      | .ok destination => host.openStage destination options 64 files stageSequence

/-- The next system call of a task, when it does not fail. -/
def next (t : TaskStep) : TaskStep := t.task.step host t.files t.stageSequence none .advance

/-- The directory of the path is at or beneath the root, once all links are followed. -/
def Contained (files : FileSystem) (path : Path) : Prop :=
  ∃ root, files.canonicalize host.root = .ok root ∧ root <+: path.dropLast ∧ path ≠ [] ∧
    files.canonicalize path.dropLast = .ok path.dropLast

end LocalHost

end Parquex
