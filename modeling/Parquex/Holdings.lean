import Parquex.RemoteObjectsSound
import Parquex.Specification
import Parquex.StorePut

/-!
# What a local store is to be

A store holds contents under keys, and directories that come with the first object
beneath them and never go. Nothing can be put beneath an object or over a
directory; every answer follows from what is at the key.
-/

namespace Parquex

/-- What the chunks come to. -/
def Chunks.content : Chunks → Except (Stop Error) Bytes
  | .done => .ok []
  | .raises true => .error (.error (.invalid "store_put" "chunks must be enumerable"))
  | .raises false => .error .raised
  | .next none _ => .error (.error (.invalid "store_writer_write" "writer chunks must be valid iodata"))
  | .next (some data) rest => do
    let content ← rest.content
    return data ++ content

/-! ## Places -/

inductive Place
  | object (content : Bytes)
  | directory
  /-- An object is above the place. -/
  | beneath
  | nothing

namespace Place

def head (key : String) : Place → Except NativeFailure Metadata
  | .object content => .ok { key, size := content.length }
  | .directory => .error (.invalid .head "object operation requires a regular file")
  | .beneath => .error (.fromIo .head .notADirectory)
  | .nothing => .error (.fromIo .head .notFound)

def readRange (offset length : Nat) : Place → Except NativeFailure Bytes
  | .object content =>
    if content.length < offset then .error (.invalid .readRange "range offset is beyond end of object")
    else .ok ((content.drop offset).take length)
  | .directory => .error (.invalid .readRange "range reads require a regular file")
  | .beneath => .error (.fromIo .readRange .notADirectory)
  | .nothing => .error (.fromIo .readRange .notFound)

def delete : Place → Except NativeFailure Unit
  | .object _ => .ok ()
  | .directory => .error (.fromIo .delete .isADirectory)
  | .beneath => .error (.fromIo .delete .notADirectory)
  | .nothing => .error (.fromIo .delete .notFound)

end Place

/-! ## The store -/

structure Holdings where
  objects : String → Option Bytes
  directories : String → Prop

namespace Holdings

variable (s : Holdings)

def Under (key : String) : Prop := ∃ k, s.objects k ≠ none ∧ hasPrefix key (k ++ "/") = true

/-- The keys that a listing returns. -/
def Listed (pre key : String) : Prop :=
  pre = "" ∨ key = pre ∨ hasPrefix key (pre ++ "/") = true ∨
    ((s.objects pre = none ∧ ¬ s.directories pre) ∧ hasPrefix key pre = true)

def store (key : String) (content : Option Bytes) : Holdings :=
  { s with objects := Function.update s.objects key content }

/-- The directories above a key. -/
def grow (key : String) : Holdings :=
  { s with directories := fun k => s.directories k ∨ hasPrefix key (k ++ "/") = true }

open Classical in
noncomputable def place (key : String) : Place :=
  match s.objects key with
  | some content => .object content
  | none => if s.directories key then .directory else if s.Under key then .beneath else .nothing

open Classical in
noncomputable def putAt (key : String) (chunks : Chunks) : Except (Stop Error) Metadata × Holdings :=
  if s.Under key then
    (.error (.error (.fromNative (.invalid .storeWriterOpen "local object parent must be a directory"))), s)
  else
    match chunks.content with
    | .error stop => (.error stop, s.grow key)
    | .ok content =>
      if s.directories key then
        (.error (.error (.fromNative (.fromIo .writerPublish .isADirectory))), s.grow key)
      else (.ok { key, size := content.length }, (s.grow key).store key (some content))

open Classical in
/-- What a call comes to that stores content, or fails with what it makes of it, and that fails over a directory. -/
noncomputable def storeAt (key : String) (content : Except (Stop Error) Bytes) (occupied : NativeFailure) :
    Except (Stop Error) Metadata × Holdings :=
  if s.Under key then
    (.error (.error (.fromNative (.invalid .storeWriterOpen "local object parent must be a directory"))), s)
  else
    match content with
    | .error stop => (.error stop, s.grow key)
    | .ok content =>
      if s.directories key then (.error (.error (.fromNative occupied)), s.grow key)
      else (.ok { key, size := content.length }, (s.grow key).store key (some content))

theorem putAt_eq (key : String) (chunks : Chunks) :
    s.putAt key chunks = s.storeAt key chunks.content (.fromIo .writerPublish .isADirectory) := rfl

noncomputable def put (key : String) (chunks : Chunks) : Except (Stop Error) Metadata × Holdings :=
  match normalizeKey key with
  | .error error => (.error (.error error), s)
  | .ok key => s.putAt key chunks

noncomputable def delete (key : String) : Except Error Unit × Holdings :=
  match normalizeKey key with
  | .error error => (.error error, s)
  | .ok key =>
    match (s.place key).delete with
    | .error failure => (.error (.fromNative failure), s)
    | .ok () => (.ok (), s.store key none)

noncomputable def head (key : String) : Except Error Metadata := do
  let key ← normalizeKey key
  Store.nativeResult ((s.place key).head key)

noncomputable def readRange (maxRangeBytes : Nat) (key : String) (offset length : Nat) :
    Except (Stop Error) Bytes := do
  let key ← TimePartition.liftError (normalizeKey key)
  if maxRangeBytes < length then
    throw (.error (.invalid "store_read_range" "requested range exceeds the configured maximum"))
  if 2 ^ 64 ≤ offset ∨ 2 ^ 64 ≤ length then throw .raised
  TimePartition.nativeResult ((s.place key).readRange offset length)

open Classical in
/-- A listing is refused beneath an object; else it is of the listed keys, in order and with their sizes. -/
def Lists (text : String) (result : Except Error (List Metadata)) : Prop :=
  match normalizeListPrefix text with
  | .error error => result = .error error
  | .ok pre =>
    if pre ≠ "" ∧ s.Under pre then result = .error (.fromNative (.fromIo .storeList .notADirectory))
    else ∃ entries, ListsKeys s.objects (s.Listed pre) entries ∧
      result = .ok (entries.map fun entry => .fromNative entry.path entry)

def Allows (maxRangeBytes : Nat) (s : Holdings) : StoreCall → StoreAnswer → Prop
  | .put key chunks, reply => reply = .put (s.put key chunks).1
  | .delete key, reply => reply = .delete (s.delete key).1
  | .head key, reply => reply = .head (s.head key)
  | .readRange key offset length, reply => reply = .readRange (s.readRange maxRangeBytes key offset length)
  | .list text, reply => ∃ result, s.Lists text result ∧ reply = .list result

noncomputable def next (s : Holdings) : StoreCall → StoreAnswer → Holdings
  | .put key chunks, _ => (s.put key chunks).2
  | .delete key, _ => (s.delete key).2
  | _, _ => s

end Holdings

end Parquex
