import Parquex.LocalListExact

/-!
# A listing, call by call

The native listing as a run of system calls. Between two of them the other tasks of
the store make theirs.
-/

namespace Parquex

/-- What reading a directory tells of an entry. -/
inductive FileType
  | file | directory | symlink
  deriving DecidableEq, Repr

def Entry.fileType : Entry → FileType
  | .file _ => .file
  | .directory => .directory
  | .symlink .. => .symlink

/-- The system call before which a listing stands. -/
inductive ListPhase
  | lookup (pre : String)
  | parent (path : Path) (name : String)
  | headResolve (path : Path)
  | headMetadata (path : Path)
  | resolve (path : Path) (pre : String)
  | rootType (root : Path) (pre : String)
  | allowedRoot (root : Path) (pre : String)
  | walk (root allowedRoot : Path) (pre : String) (left : List (Path × FileType)) (found : List (Path × Nat))
  | done (result : Except Error (List Metadata))
  deriving DecidableEq

namespace LocalHost

variable (host : LocalHost) (files : FileSystem)

/-- The objects of the files that were found, or why there are none. -/
def finishList (found : Except NativeFailure (List (Path × Nat))) : ListPhase :=
  .done (do
    let entries ← Store.nativeResult (found >>= fun found => found.mapM fun e => host.localMetadata e.1 e.2)
    return entries.map fun entry => .fromNative entry.path entry)

def beginDirectory (path : Path) (pre : String) : ListPhase :=
  match validatePrefix pre with
  | .error failure => host.finishList (.error failure)
  | .ok () => .resolve path pre

def beginList (text : String) : ListPhase :=
  match normalizeListPrefix text with
  | .error error => .done (.error error)
  | .ok pre =>
    match validateKey pre true with
    | .error failure => host.finishList (.error failure)
    | .ok () => if pre = "" then host.beginDirectory (host.location "") "" else .lookup pre

section
variable (root allowedRoot : Path) (pre : String) (left : List (Path × FileType)) (found : List (Path × Nat))

def proceed : Except NativeFailure (List (Path × Nat)) → ListPhase
  | .error failure => host.finishList (.error failure)
  | .ok more => .walk root allowedRoot pre left (found ++ more)

/-- Visit the next name; what a directory holds comes before what is left. -/
def visitNext : Path × FileType → ListPhase
  | (path, .symlink) => host.proceed root allowedRoot pre left found (visitLink files allowedRoot path)
  | (path, .file) => host.proceed root allowedRoot pre left found (visitFile files root pre path)
  | (path, .directory) =>
    match files.readDir path with
    | .error kind => host.finishList (.error (.fromIo .list kind))
    | .ok entries =>
      .walk root allowedRoot pre (entries.map (fun entry => (path ++ [entry.1], entry.2.fileType)) ++ left) found

end

def advanceList : ListPhase → ListPhase
  | .lookup pre =>
    match files.metadata (host.location pre) with
    | .ok .directory => host.beginDirectory (host.location pre) ""
    | .ok (.file _) => .headResolve (host.location pre)
    | .ok (.symlink ..) => host.finishList (.ok [])
    | .error .notFound =>
      match (keyPath pre).getLast? with
      | none => host.finishList (.ok [])
      | some name => .parent (host.location pre).dropLast name
    | .error kind => host.finishList (.error (.fromIo .storeList kind))
  | .parent path name => if files.isDir path then host.beginDirectory path name else host.finishList (.ok [])
  | .headResolve path =>
    match host.resolveExisting files path .head with
    | .error failure => host.finishList (.error failure)
    | .ok path => .headMetadata path
  | .headMetadata path => host.finishList ((metadataFor files path .head).map fun size => [(path, size)])
  | .resolve path pre =>
    match host.resolveExisting files path .list with
    | .error failure => host.finishList (.error failure)
    | .ok root => .rootType root pre
  | .rootType root pre =>
    if files.isDir root then .allowedRoot root pre
    else host.finishList (.error (.invalid .list "listing requires a directory location"))
  | .allowedRoot root pre =>
    match files.canonicalize host.root with
    | .error kind => host.finishList (.error (.fromIo .list kind))
    | .ok allowedRoot => .walk root allowedRoot pre [(root, .directory)] []
  | .walk _ _ _ [] found => host.finishList (.ok (found.insertionSort PathLe))
  | .walk root allowedRoot pre (entry :: left) found => host.visitNext files root allowedRoot pre left found entry
  | .done result => .done result

end LocalHost

/-! ## Beside the other tasks -/

/-- The next call of the listing, or a step of another task. -/
inductive ListEvent
  | advance
  | store (event : StoreEvent)

structure Listing where
  state : LocalState
  phase : ListPhase

namespace Listing

def start (host : LocalHost) (state : LocalState) (text : String) : Listing := ⟨state, host.beginList text⟩

def step (host : LocalHost) (s : Listing) : ListEvent → Listing
  | .advance => { s with phase := host.advanceList s.state.files s.phase }
  | .store event => { s with state := (s.state.step host event).2 }

def machine (host : LocalHost) : Machine Listing ListEvent Unit := ⟨fun s event => ((), s.step host event)⟩

end Listing

/-! ## What a listing waits for -/

def unlessFailing (fault : Option Fault) (call : SystemCall) (path : Path) : Option Path :=
  if faultOf fault call = none then some path else none

/-- The path from which the next step of a task takes its file away. -/
def Task.takes (fault : Option Fault) : Task → Action → Option Path
  | .writer w (.replacing _), .advance => unlessFailing fault .removeDestination w.destination
  | .writer w (.moving _), .advance => unlessFailing fault .rename w.stagePath
  | .writer w (.cleaning _), .advance => unlessFailing fault .removeStage w.stagePath
  | .writer w .removing, .advance => unlessFailing fault .removeStage w.stagePath
  | .deleting (.remove path), .advance => unlessFailing fault .removeObject path
  | _, _ => none

namespace Listing

end Listing

end Parquex
