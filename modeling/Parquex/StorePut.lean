import Parquex.LocalCalls
import Parquex.LocalObjects

/-!
# Putting an object

A put opens a writer, hands it the chunks one after the other, publishes it, and
cancels it whatever has come of that. On a local store each native call is one
function of the files that it finds and of the system calls that fail in it.
-/

namespace Parquex

/-- What the enumeration of the chunks of a put goes through. -/
inductive Chunks
  | done
  /-- The enumeration raises, perhaps because there is nothing to enumerate. -/
  | raises (undefined : Bool)
  /-- A chunk, which may be no iodata. -/
  | next (data : Option Bytes) (rest : Chunks)

/-! ## The calls of the library -/

/-- The native calls on the writers of a backend. -/
structure NativeWriters (σ ω : Type) where
  openWriter : σ → String → WriteOptions → Except NativeFailure ω × σ
  write : σ → ω → Bytes → Except NativeFailure Nat × σ × ω
  publish : σ → ω → Except NativeFailure ObjectMetadata × σ × ω
  abort : σ → ω → Except NativeFailure Bool × σ × ω

structure WritableStore (σ ω : Type) extends Store σ where
  native : NativeWriters σ ω

/-- A native writer, and the key that it was opened for. -/
structure StoreWriter (ω : Type) where
  resource : ω
  key : String

namespace WritableStore

variable {σ ω : Type} (store : WritableStore σ ω) (state : σ)

def openWriter (key : String) : Except Error (StoreWriter ω) × σ :=
  match normalizeKey key with
  | .error error => (.error error, state)
  | .ok key =>
    let (opened, state) := store.native.openWriter state key { flush := .beforePublish, sync := .none }
    (do let resource ← Store.nativeResult opened; return { resource, key }, state)

variable (writer : StoreWriter ω)

def write (data : Option Bytes) : Except Error Unit × σ × StoreWriter ω :=
  match data with
  | none => (.error (.invalid "store_writer_write" "writer chunks must be valid iodata"), state, writer)
  | some binary =>
    let (written, state, resource) := store.native.write state writer.resource binary
    (do let _ ← Store.nativeResult written, state, { writer with resource })

def writeAll (state : σ) (writer : StoreWriter ω) : Chunks → Except (Stop Error) Unit × σ × StoreWriter ω
  | .done => (.ok (), state, writer)
  | .raises true => (.error (.error (.invalid "store_put" "chunks must be enumerable")), state, writer)
  | .raises false => (.error .raised, state, writer)
  | .next data rest =>
    match store.write state writer data with
    | (.ok (), state, writer) => writeAll state writer rest
    | (.error error, state, writer) => (.error (.error error), state, writer)

def publish : Except Error Metadata × σ × StoreWriter ω :=
  let (published, state, resource) := store.native.publish state writer.resource
  (do let metadata ← Store.nativeResult published; return .fromNative writer.key metadata, state,
    { writer with resource })

def cancel : Except Error Unit × σ × StoreWriter ω :=
  let (aborted, state, resource) := store.native.abort state writer.resource
  (do let _ ← Store.nativeResult aborted, state, { writer with resource })

/-- What is left when a writer has been given its chunks. -/
def finishPut (written : Except (Stop Error) Unit × σ × StoreWriter ω) :
    Except (Stop Error) Metadata × σ × StoreWriter ω :=
  match written with
  | (.error stop, state, writer) => (.error stop, state, writer)
  | (.ok (), state, writer) =>
    let (published, state, writer) := store.publish state writer
    (TimePartition.liftError published, state, writer)

/-- The cancel comes last, also when the chunks have raised, and what it answers is dropped. -/
def put (key : String) (chunks : Chunks) : Except (Stop Error) Metadata × σ :=
  match store.openWriter state key with
  | (.error error, state) => (.error (.error error), state)
  | (.ok writer, state) =>
    let (result, state, writer) := store.finishPut (store.writeAll state writer chunks)
    (result, (store.cancel state writer).2.1)

end WritableStore

/-! ## The native calls of a local store -/

namespace LocalHost

section
variable (host : LocalHost) (faults : Faults)

/-- Look at each directory on the way, and make it when it is missing. -/
def ensureParents (files : FileSystem) (current : Path) : Path → Except NativeFailure Unit × FileSystem
  | [] => (.ok (), files)
  | name :: left =>
    match faults.attempt .metadata ((files.get (current ++ [name])).elim (.error .notFound) .ok) with
    | .ok (.symlink ..) =>
      (.error (.invalid .storeWriterOpen "local object parent cannot contain symlinks"), files)
    | .ok (.file _) => (.error (.invalid .storeWriterOpen "local object parent must be a directory"), files)
    | .ok .directory => ensureParents files (current ++ [name]) left
    | .error .notFound =>
      match faults.attempt .createDir (files.createDir (current ++ [name])) with
      | .error kind => (.error (.fromIo .storeWriterOpen kind), files)
      | .ok files => ensureParents files (current ++ [name]) left
    | .error kind => (.error (.fromIo .storeWriterOpen kind), files)

variable (stageSequence : Nat) (options : WriteOptions)

/-- Create a staging file beside the destination, under the first of the next names that is free. -/
def allocateStage (files : FileSystem) (stageSequence : Nat) (destination : Path) :
    Nat → Except NativeFailure LocalWriter × FileSystem × Nat
  | 0 =>
    (.error (.new .conflict .writerOpen "could not allocate a unique staging file"), files, stageSequence)
  | attempts + 1 =>
    let stagePath := destination.dropLast ++ [host.stageName (destination.getLast?.getD "") stageSequence]
    match faults.attempt .createNew (files.createNew stagePath) with
    | .ok files =>
      (.ok { file := true, stagePath, destination, flush := options.flush, sync := options.sync,
             cancelled := false, active := true }, files, (stageSequence + 1) % 2 ^ 64)
    | .error .alreadyExists => allocateStage files ((stageSequence + 1) % 2 ^ 64) destination attempts
    | .error kind => (.error (.fromIo .writerOpen kind), files, (stageSequence + 1) % 2 ^ 64)

def stage (files : FileSystem) (key : String) : Except NativeFailure LocalWriter × FileSystem × Nat :=
  match (do faults.check .canonicalize .writerOpen
            host.resolveDestination files (host.location key) .writerOpen) with
  | .error failure => (.error failure, files, stageSequence)
  | .ok destination => host.allocateStage faults options files stageSequence destination 64

def storeOpenWriter (files : FileSystem) (key : String) : Except NativeFailure LocalWriter × FileSystem × Nat :=
  match validateKey key false with
  | .error failure => (.error failure, files, stageSequence)
  | .ok () =>
    match ensureParents faults files host.root (keyPath key).dropLast with
    | (.error failure, files) => (.error failure, files, stageSequence)
    | (.ok (), files) => host.stage faults stageSequence options files key

end

/-- The files of a store, the number of its next staging file, and the native calls on writers so far. -/
structure StoreDisk where
  files : FileSystem
  stageSequence : Nat
  calls : Nat

variable (host : LocalHost) (faults : Nat → Faults)

/-- The calls on writers, each under the faults of its own. -/
def nativeWriters : NativeWriters StoreDisk LocalWriter where
  openWriter s key options :=
    let (opened, files, stageSequence) := host.storeOpenWriter (faults s.calls) s.stageSequence options s.files key
    (opened, ⟨files, stageSequence, s.calls + 1⟩)
  write s w chunk :=
    let (written, files) := w.write (faults s.calls) s.files chunk
    (written, { s with files, calls := s.calls + 1 }, w)
  publish s w :=
    let (size, files, w') := w.publish host (faults s.calls) s.files
    (size >>= host.localMetadata w.destination, { s with files, calls := s.calls + 1 }, w')
  abort s w :=
    let (active, files, w') := w.abort (faults s.calls) s.files
    (active, { s with files, calls := s.calls + 1 }, w')

def heldStore : NativeStore StoreDisk where
  head s := host.storeHead s.files
  readRange s := host.storeReadRange s.files
  list s := host.storeList s.files
  delete s key := do
    let files ← host.storeDelete s.files key
    return { s with files }

def writableStore (maxRangeBytes : Nat) : WritableStore StoreDisk LocalWriter where
  resource := host.heldStore
  maxRangeBytes
  native := host.nativeWriters faults

end LocalHost

/-! ## Histories of calls -/

inductive StoreCall
  | put (key : String) (chunks : Chunks)
  | delete (key : String)
  | head (key : String)
  | readRange (key : String) (offset length : Nat)
  | list (text : String)

inductive StoreAnswer
  | put (result : Except (Stop Error) Metadata)
  | delete (result : Except Error Unit)
  | head (result : Except Error Metadata)
  | readRange (result : Except (Stop Error) Bytes)
  | list (result : Except Error (List Metadata))

namespace WritableStore

variable {σ ω : Type} (store : WritableStore σ ω)

def call (state : σ) : StoreCall → StoreAnswer × σ
  | .put key chunks =>
    let (result, state) := store.put state key chunks
    (.put result, state)
  | .delete key =>
    match store.delete state key with
    | .ok state => (.delete (.ok ()), state)
    | .error error => (.delete (.error error), state)
  | .head key => (.head (store.head state key), state)
  | .readRange key offset length => (.readRange (store.readRange state key offset length), state)
  | .list text => (.list (store.list state text), state)

def machine : Machine σ StoreCall StoreAnswer := ⟨store.call⟩

end WritableStore

end Parquex
