import Parquex.Store
import Mathlib.Data.List.Sort
import Mathlib.Data.String.Basic
import Mathlib.Logic.Function.Basic

/-!
# Objects of a remote store

The native calls on the objects of a bucket. The client of the object service is
a parameter; its rules are those that its documentation states.
-/

namespace Parquex

/-! ## The service -/

/-- The client of an object service, over the states of the service. -/
structure ObjectService (σ : Type) where
  parse : String → Option String
  head : σ → String → Except RemoteErrorKind Nat
  getRange : σ → String → Nat → Nat → Except RemoteErrorKind Bytes
  list : σ → Option String → Except RemoteErrorKind (List (String × Nat))
  delete : σ → String → Except RemoteErrorKind σ

/-- The path lies beneath the prefix, segment by segment; a service may count the prefix itself. -/
def InPrefix (self : Bool) (path : String) : Option String → Prop
  | none => True
  | some pre => hasPrefix path (pre ++ "/") = true ∨ (self = true ∧ path = pre)

def hasControl (s : String) : Bool := s.toList.any fun c => decide (c.toNat < 32 ∨ c.toNat = 127)

/-- What services of the same interface do differently. -/
structure ServiceChoices where
  /-- A range that starts at the end of the object or after it. -/
  beyond : RemoteErrorKind
  /-- The deletion of a path without an object. -/
  deleteMissing : Except RemoteErrorKind Unit
  /-- A listing returns the object whose path is the prefix. -/
  listsSelf : Bool

/-- The documented behaviour of a service that holds these contents, when its requests go through. -/
structure ObjectService.Rules {σ : Type} (service : ObjectService σ) (contents : σ → String → Option Bytes)
    (choices : ServiceChoices) : Prop where
  parse : ∀ s, (s = "" ∨ ∀ segment ∈ splitSlash s, segment ≠ "" ∧ segment ≠ "." ∧ segment ≠ "..") →
    service.parse s = if hasControl s then none else some s
  head : ∀ state path content, contents state path = some content → service.head state path = .ok content.length
  headMissing : ∀ state path, contents state path = none → service.head state path = .error .notFound
  getRange : ∀ state path content start stop, contents state path = some content → start < content.length →
    start < stop → service.getRange state path start stop = .ok ((content.drop start).take (stop - start))
  getRangeBeyond : ∀ state path content start stop, contents state path = some content → content.length ≤ start →
    start < stop → service.getRange state path start stop = .error choices.beyond
  getRangeMissing : ∀ state path start stop, contents state path = none → start < stop →
    service.getRange state path start stop = .error .notFound
  list : ∀ state pre, ∃ entries, service.list state pre = .ok entries ∧ (entries.map Prod.fst).Nodup ∧
    ∀ path size, (path, size) ∈ entries ↔
      InPrefix choices.listsSelf path pre ∧ (contents state path).map List.length = some size
  delete : ∀ state path content, contents state path = some content →
    ∃ state', service.delete state path = .ok state' ∧ contents state' = Function.update (contents state) path none
  deleteMissing : ∀ state path, contents state path = none →
    (service.delete state path).map (fun _ => ()) = choices.deleteMissing ∧
      ∀ state', service.delete state path = .ok state' → contents state' = contents state

/-! ## Keys in a bucket -/

def trimSlashes (s : String) : String := String.ofList ((s.toList.dropWhile (· == '/')).rdropWhile (· == '/'))

def joinKey (base suffix : String) : String :=
  if trimSlashes base = "" then trimSlashes suffix
  else if trimSlashes suffix = "" then trimSlashes base
  else trimSlashes base ++ "/" ++ trimSlashes suffix

/-! ## The native calls -/

structure RemoteStore (σ : Type) where
  service : ObjectService σ
  base : String

/-- An object, or a prefix, with the text of its path. -/
structure RemoteObject where
  path : String
  key : String

def remoteCall {α : Type} (operation : Operation) : Except RemoteErrorKind α → Except NativeFailure α
  | .ok result => .ok result
  | .error kind => .error (.remoteError operation kind)

/-- The order of the keys as text. -/
def KeyLe (left right : String × Nat) : Prop := left.1 ≤ right.1

instance : DecidableRel KeyLe := fun left right => inferInstanceAs (Decidable (left.1 ≤ right.1))

namespace RemoteStore

variable {σ : Type} (remote : RemoteStore σ) (state : σ)

def object (key : String) : Except NativeFailure RemoteObject :=
  match remote.service.parse (joinKey remote.base key) with
  | none => .error (.invalid .storeOpen "object key is invalid")
  | some path => .ok { path, key := joinKey remote.base key }

def headObject (object : RemoteObject) (operation : Operation) : Except NativeFailure Nat :=
  remoteCall operation (remote.service.head state object.path)

def readObject (object : RemoteObject) (offset length : Nat) (operation : Operation) : Except NativeFailure Bytes :=
  if 2 ^ 64 ≤ offset + length then .error (.invalid operation "S3 range overflow")
  else if length = 0 then .ok []
  else remoteCall operation (remote.service.getRange state object.path offset (offset + length))

def listPrefix (combined : String) : Except NativeFailure (Option String) :=
  if combined = "" then .ok none
  else
    match remote.service.parse combined with
    | none => .error (.invalid .s3List "S3 list prefix is invalid")
    | some pre => .ok (some pre)

def listObject (object : RemoteObject) (explicitPrefix : String) : Except NativeFailure (List (String × Nat)) := do
  let pre ← remote.listPrefix (joinKey object.key explicitPrefix)
  let entries ← remoteCall .s3List (remote.service.list state pre)
  return entries.insertionSort KeyLe

/-- The key that a path has within the store. -/
def stripMarker (path : String) : String :=
  if trimSlashes remote.base = "" then path
  else if hasPrefix path (trimSlashes remote.base ++ "/") then
    String.ofList (path.toList.drop (trimSlashes remote.base ++ "/").toList.length)
  else path

def storeHead (key : String) : Except NativeFailure ObjectMetadata := do
  validateKey key false
  let object ← remote.object key
  let size ← remote.headObject state object .storeHead
  return { path := key, size }

def storeReadRange (key : String) (offset length : Nat) : Except NativeFailure Bytes := do
  validateKey key false
  let object ← remote.object key
  remote.readObject state object offset length .storeReadRange

def storeList (pre : String) : Except NativeFailure (List ObjectMetadata) := do
  validateKey pre true
  let object ← remote.object ""
  let entries ← remote.listObject state object pre
  return entries.map fun entry => { path := remote.stripMarker entry.1, size := entry.2 }

def storeDelete (key : String) : Except NativeFailure σ := do
  validateKey key false
  let object ← remote.object key
  remoteCall .s3Delete (remote.service.delete state object.path)

def nativeStore : NativeStore σ where
  head := remote.storeHead
  readRange := remote.storeReadRange
  list := remote.storeList
  delete := remote.storeDelete

def store (maxRangeBytes : Nat) : Store σ := ⟨remote.nativeStore, maxRangeBytes⟩

end RemoteStore

end Parquex
