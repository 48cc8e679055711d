import Parquex.Object
import Parquex.ObjectKey
import Parquex.EventTime

/-!
# Calls on a store

What the library does around the calls of the native store: it normalises the
key, bounds the range and hands on the answer. Either backend stands behind the
same calls.
-/

namespace Parquex

/-- The native calls on the objects of a backend, of which a deletion changes the state. -/
structure NativeStore (σ : Type) where
  head : σ → String → Except NativeFailure ObjectMetadata
  readRange : σ → String → Nat → Nat → Except NativeFailure Bytes
  list : σ → String → Except NativeFailure (List ObjectMetadata)
  delete : σ → String → Except NativeFailure σ

/-- The metadata of one key. -/
structure Metadata where
  key : String
  size : Nat
  deriving DecidableEq, Repr

def Metadata.fromNative (key : String) (metadata : ObjectMetadata) : Metadata := { key, size := metadata.size }

structure Store (σ : Type) where
  resource : NativeStore σ
  maxRangeBytes : Nat

namespace Store

def nativeResult {α : Type} : Except NativeFailure α → Except Error α
  | .ok result => .ok result
  | .error failure => .error (.fromNative failure)

variable {σ : Type} (store : Store σ) (state : σ)

def head (key : String) : Except Error Metadata := do
  let key ← normalizeKey key
  let metadata ← nativeResult (store.resource.head state key)
  return .fromNative key metadata

def ensureBounded (length : Nat) : Except Error Unit :=
  if length ≤ store.maxRangeBytes then .ok ()
  else .error (.invalid "store_read_range" "requested range exceeds the configured maximum")

/-- The native call takes words of 64 bits. -/
def readRange (key : String) (offset length : Nat) : Except (Stop Error) Bytes := do
  let key ← TimePartition.liftError (normalizeKey key)
  TimePartition.liftError (store.ensureBounded length)
  if 2 ^ 64 ≤ offset ∨ 2 ^ 64 ≤ length then throw .raised
  TimePartition.nativeResult (store.resource.readRange state key offset length)

def list (text : String) : Except Error (List Metadata) := do
  let pre ← normalizeListPrefix text
  let entries ← nativeResult (store.resource.list state pre)
  return entries.map fun entry => .fromNative entry.path entry

def delete (key : String) : Except Error σ := do
  let key ← normalizeKey key
  nativeResult (store.resource.delete state key)

theorem list_eq {store : Store σ} {state : σ} {text pre : String} (hn : normalizeListPrefix text = .ok pre) :
    store.list state text = nativeResult (store.resource.list state pre) >>= fun entries =>
      pure (entries.map fun entry => .fromNative entry.path entry) := by
  unfold list
  rw [hn]
  rfl

/-! ## Calls on accepted keys -/

section
variable {store : Store σ} {state : σ} {key : String} (hk : AcceptedKey key)
include hk

theorem head_eq : store.head state key = nativeResult (store.resource.head state key) >>= fun metadata =>
    pure (.fromNative key metadata) := by
  unfold head
  rw [show normalizeKey key = .ok key from hk]
  rfl

theorem delete_eq : store.delete state key = nativeResult (store.resource.delete state key) := by
  unfold delete
  rw [show normalizeKey key = .ok key from hk]
  rfl

theorem readRange_eq {offset length : Nat} (hlength : length ≤ store.maxRangeBytes) (hoffset : offset < 2 ^ 64)
    (hword : length < 2 ^ 64) :
    store.readRange state key offset length =
      TimePartition.nativeResult (store.resource.readRange state key offset length) := by
  unfold readRange ensureBounded
  have hwords : ¬ (2 ^ 64 ≤ offset ∨ 2 ^ 64 ≤ length) := by omega
  rw [show normalizeKey key = .ok key from hk, if_pos hlength]
  simp only [hwords, TimePartition.liftError, bind, Except.bind, if_false]

end

end Store

end Parquex
