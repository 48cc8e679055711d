import Parquex.Directory
import Parquex.LocalStore
import Parquex.Store
import Mathlib.Data.List.Sort
import Mathlib.Data.String.Basic

/-!
# Objects of a local store

The native calls on the objects of a store, each as one function of the files
that it finds.
-/

namespace Parquex

namespace LocalHost

variable (host : LocalHost) (files : FileSystem)

/-! ## Single objects -/

def headObject (path : Path) : Except NativeFailure (Path × Nat) := do
  let path ← host.resolveExisting files path .head
  let size ← metadataFor files path .head
  return (path, size)

/-- The part of a range that a file holds. -/
def readFile (content : Bytes) (offset length : Nat) : Except NativeFailure Bytes :=
  if content.length < offset then .error (.invalid .readRange "range offset is beyond end of object")
  else .ok ((content.drop offset).take length)

def readObject (path : Path) (offset length : Nat) : Except NativeFailure Bytes := do
  let path ← host.resolveExisting files path .readRange
  match files.metadata path with
  | .error kind => .error (.fromIo .readRange kind)
  | .ok (.file content) => readFile content offset length
  | .ok _ => .error (.invalid .readRange "range reads require a regular file")

def deleteObject (path : Path) : Except NativeFailure FileSystem := do
  let path ← host.resolveExisting files path .delete
  match files.removeFile path with
  | .error kind => .error (.fromIo .delete kind)
  | .ok files => .ok files

/-! ## Listing a directory -/

def validatePrefix (pre : String) : Except NativeFailure Unit :=
  if !hasPrefix pre "/" ∧ (components pre).all (fun component => component.name?.isSome || component == .curDir) then
    .ok ()
  else .error (.invalid .list "list prefix must be relative and cannot traverse parents")

section
variable (listingRoot allowedRoot : Path) (pre : String)

/-- A file, under its path relative to the directory that is listed. -/
def visitFile (path : Path) : Except NativeFailure (List (Path × Nat)) :=
  if hasPrefix (joinSlash (path.drop listingRoot.length)) pre then do
    let size ← metadataFor files path .list
    return [(path, size)]
  else .ok []

/-- Links are passed over, once they are known to stay within the allowed root. -/
def visitLink (path : Path) : Except NativeFailure (List (Path × Nat)) :=
  match files.canonicalize path with
  | .error kind => .error (.fromIo .list kind)
  | .ok target =>
    if allowedRoot.isPrefixOf target then .ok []
    else .error (.new .permissionDenied .list "listed symlink escapes the configured allowed root")

def visitEntry (visit : Path → Except NativeFailure (List (Path × Nat))) (directory : Path) (entry : String × Entry) :
    Except NativeFailure (List (Path × Nat)) :=
  match entry.2 with
  | .symlink .. => visitLink files allowedRoot (directory ++ [entry.1])
  | .directory => visit (directory ++ [entry.1])
  | .file _ => visitFile files listingRoot pre (directory ++ [entry.1])

/-- Visit a directory and at most the given number of levels beneath it. -/
def visitDirectory : Nat → Path → Except NativeFailure (List (Path × Nat))
  | 0, _ => .ok []
  | levels + 1, directory =>
    match files.readDir directory with
    | .error kind => .error (.fromIo .list kind)
    | .ok entries => do
      let visited ← entries.mapM (visitEntry files listingRoot allowedRoot pre (visitDirectory levels) directory)
      return visited.flatten

end

/-- The order of the paths as text. -/
def PathLe (left right : Path × Nat) : Prop := joinSlash left.1 ≤ joinSlash right.1

instance : DecidableRel PathLe := fun left right =>
  inferInstanceAs (Decidable (joinSlash left.1 ≤ joinSlash right.1))

def listDirectory (path : Path) (pre : String) : Except NativeFailure (List (Path × Nat)) := do
  validatePrefix pre
  let root ← host.resolveExisting files path .list
  if !files.isDir root then throw (.invalid .list "listing requires a directory location")
  match files.canonicalize host.root with
  | .error kind => .error (.fromIo .list kind)
  | .ok allowedRoot => do
    let entries ← visitDirectory files root allowedRoot pre (files.depth + 1) root
    return entries.insertionSort PathLe

/-! ## The native calls -/

/-- List what is beneath a directory, a file alone, or what in its directory begins with a missing name. -/
def localList (pre : String) : Except NativeFailure (List (Path × Nat)) :=
  if pre = "" then host.listDirectory files (host.location "") ""
  else
    match files.metadata (host.location pre) with
    | .ok .directory => host.listDirectory files (host.location pre) ""
    | .ok (.file _) => do
      let entry ← host.headObject files (host.location pre)
      return [entry]
    | .ok (.symlink ..) => .ok []
    | .error .notFound =>
      match (keyPath pre).getLast? with
      | none => .ok []
      | some name =>
        if files.isDir (host.location pre).dropLast then
          host.listDirectory files (host.location pre).dropLast name
        else .ok []
    | .error kind => .error (.fromIo .storeList kind)

def storeHead (key : String) : Except NativeFailure ObjectMetadata := do
  validateKey key false
  let (path, size) ← host.headObject files (host.location key)
  host.localMetadata path size

def storeReadRange (key : String) (offset length : Nat) : Except NativeFailure Bytes := do
  validateKey key false
  host.readObject files (host.location key) offset length

def storeList (pre : String) : Except NativeFailure (List ObjectMetadata) := do
  validateKey pre true
  let entries ← host.localList files pre
  entries.mapM fun entry => host.localMetadata entry.1 entry.2

def storeDelete (key : String) : Except NativeFailure FileSystem := do
  validateKey key false
  host.deleteObject files (host.location key)

def nativeStore : NativeStore FileSystem where
  head := host.storeHead
  readRange := host.storeReadRange
  list := host.storeList
  delete := host.storeDelete

end LocalHost

end Parquex
