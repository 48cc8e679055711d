import Parquex.LocalListExact
import Parquex.Machine
import Parquex.RemoteObjects

/-!
# Reading an object in ranges

A read asks for the size of an object and then for one range after the other, each
in a call of its own. A publish of the same key may come before any of them, and on
a local store also between the two looks that one range takes at the object.
-/

namespace Parquex

/-- A store whose range reads look an object up and then fetch what they have found. -/
structure RangeStore (σ ρ : Type) extends Store σ where
  lookup : σ → String → Nat → Nat → Except NativeFailure ρ
  fetch : σ → ρ → Except NativeFailure Bytes
  readRange_eq : ∀ state key offset length,
    resource.readRange state key offset length = lookup state key offset length >>= fetch state

/-! ## A local store -/

/-- What a local range read has found: a file, and how much of it to read. -/
structure FoundRange where
  path : Path
  offset : Nat
  length : Nat
  deriving DecidableEq

namespace LocalHost

variable (host : LocalHost) (files : FileSystem)

def lookupRange (key : String) (offset length : Nat) : Except NativeFailure FoundRange := do
  validateKey key false
  let path ← host.resolveExisting files (host.location key) .readRange
  match files.metadata path with
  | .error kind => .error (.fromIo .readRange kind)
  | .ok (.file content) =>
    if content.length < offset then .error (.invalid .readRange "range offset is beyond end of object")
    else .ok ⟨path, offset, min length (content.length - offset)⟩
  | .ok _ => .error (.invalid .readRange "range reads require a regular file")

/-- Open the file and read on from the offset. A directory opens too, but has nothing to read. -/
def fetchRange (range : FoundRange) : Except NativeFailure Bytes :=
  match files.metadata range.path with
  | .error kind => .error (.fromIo .readRange kind)
  | .ok (.file content) => .ok ((content.drop range.offset).take range.length)
  | .ok _ => if range.length = 0 then .ok [] else .error (.fromIo .readRange .isADirectory)

theorem readObject_eq (key : String) (offset length : Nat) :
    host.storeReadRange files key offset length = host.lookupRange files key offset length >>= fetchRange files := by
  unfold storeReadRange readObject lookupRange
  cases validateKey key false with
  | error failure => rfl
  | ok =>
    simp only [bind, Except.bind]
    cases host.resolveExisting files (host.location key) .readRange with
    | error failure => rfl
    | ok path =>
      simp only
      cases hm : files.metadata path with
      | error kind => rfl
      | ok entry =>
        cases entry with
        | file content =>
          simp only [readFile]
          split
          · rfl
          · simp only [fetchRange, hm]
            rw [List.take_eq_take_min, List.length_drop]
        | _ => rfl

def rangeStore (maxRangeBytes : Nat) : RangeStore FileSystem FoundRange where
  toStore := host.store maxRangeBytes
  lookup := host.lookupRange
  fetch := fetchRange
  readRange_eq := host.readObject_eq

/-- What the store finds under a key. -/
def objectAt (key : String) : Option Bytes :=
  match host.resolveExisting files (host.location key) .head with
  | .ok path => files.content path
  | .error _ => none

end LocalHost

/-- What a range that was found covers in these files. -/
def FoundRange.part (files : FileSystem) (range : FoundRange) : Bytes :=
  match files.metadata range.path with
  | .ok (.file content) => (content.drop range.offset).take range.length
  | _ => []

/-! ## A remote store -/

deriving instance DecidableEq for RemoteObject

/-- A range that the service is about to be asked for. -/
structure RequestedRange where
  object : RemoteObject
  offset : Nat
  length : Nat
  deriving DecidableEq

namespace RemoteStore

variable {σ : Type} (remote : RemoteStore σ)

def requestRange (key : String) (offset length : Nat) : Except NativeFailure RequestedRange := do
  validateKey key false
  let object ← remote.object key
  return ⟨object, offset, length⟩

theorem readObject_eq (state : σ) (key : String) (offset length : Nat) :
    remote.storeReadRange state key offset length = remote.requestRange key offset length >>= fun range =>
      remote.readObject state range.object range.offset range.length .storeReadRange := by
  unfold storeReadRange requestRange
  cases validateKey key false with
  | error failure => rfl
  | ok =>
    simp only [bind, Except.bind]
    cases remote.object key <;> rfl

def rangeStore (maxRangeBytes : Nat) : RangeStore σ RequestedRange where
  toStore := remote.store maxRangeBytes
  lookup _ := remote.requestRange
  fetch state range := remote.readObject state range.object range.offset range.length .storeReadRange
  readRange_eq := remote.readObject_eq

/-- What the service holds under a key of the store. -/
def objectAt (contents : σ → String → Option Bytes) (key : String) (state : σ) : Option Bytes :=
  match remote.object key with
  | .ok object => contents state object.path
  | .error _ => none

end RemoteStore

/-- What a requested range covers in the object that the service holds. -/
def RequestedRange.part {σ : Type} (contents : σ → String → Option Bytes) (state : σ) (range : RequestedRange) :
    Bytes :=
  (((contents state range.object.path).getD []).drop range.offset).take range.length

/-! ## A read -/

/-- The step before which a read stands. -/
inductive ReadPhase (ρ : Type)
  | head
  | lookup (size offset : Nat) (chunks : List Bytes)
  | fetch (size offset : Nat) (chunks : List Bytes) (range : ρ)
  | done (result : Except (Stop Error) Bytes)
  deriving DecidableEq

/-- The read's next step, or the state that a publish of its key leaves behind. -/
inductive ReadEvent (σ : Type)
  | advance
  | publish (state : σ)

structure Reading (σ ρ : Type) where
  key : String
  state : σ
  phase : ReadPhase ρ

/-- Go on with the next range, unless the object has been read. -/
def readChunks {ρ : Type} (size offset : Nat) (chunks : List Bytes) : ReadPhase ρ :=
  if size ≤ offset then .done (.ok chunks.reverse.flatten) else .lookup size offset chunks

def startRead {σ ρ : Type} (key : String) (state : σ) : Reading σ ρ :=
  match normalizeKey key with
  | .error error => ⟨key, state, .done (.error (.error error))⟩
  | .ok key => ⟨key, state, .head⟩

namespace RangeStore

variable {σ ρ : Type} (store : RangeStore σ ρ)

/-- A range read up to its first look at the object. -/
def openRange (state : σ) (key : String) (offset length : Nat) : Except (Stop Error) ρ := do
  let key ← TimePartition.liftError (normalizeKey key)
  TimePartition.liftError (store.ensureBounded length)
  if 2 ^ 64 ≤ offset ∨ 2 ^ 64 ≤ length then throw .raised
  TimePartition.nativeResult (store.lookup state key offset length)

/-- When nothing comes between them, the two looks are the range read of the store. -/
theorem store_readRange_eq (state : σ) (key : String) (offset length : Nat) :
    store.toStore.readRange state key offset length =
      store.openRange state key offset length >>= fun range =>
        TimePartition.nativeResult (store.fetch state range) := by
  unfold Store.readRange openRange
  cases hn : normalizeKey key with
  | error error => rfl
  | ok k =>
    simp only [TimePartition.liftError, bind, Except.bind]
    cases store.ensureBounded length with
    | error error => rfl
    | ok =>
      simp only
      by_cases hw : 2 ^ 64 ≤ offset ∨ 2 ^ 64 ≤ length
      · simp only [hw, if_true]
        rfl
      · simp only [hw, if_false, store.readRange_eq, bind, Except.bind]
        cases store.lookup state k offset length <;> rfl

def advance (key : String) (state : σ) : ReadPhase ρ → ReadPhase ρ
  | .head =>
    match store.toStore.head state key with
    | .error error => .done (.error (.error error))
    | .ok metadata => readChunks metadata.size 0 []
  | .lookup size offset chunks =>
    match store.openRange state key offset (min store.maxRangeBytes (size - offset)) with
    | .error stop => .done (.error stop)
    | .ok range => .fetch size offset chunks range
  | .fetch size offset chunks range =>
    match TimePartition.nativeResult (store.fetch state range) with
    | .error stop => .done (.error stop)
    | .ok chunk => readChunks size (offset + chunk.length) (chunk :: chunks)
  | .done result => .done result

def machine : Machine (Reading σ ρ) (ReadEvent σ) Unit where
  step s event :=
    match event with
    | .advance => ((), { s with phase := store.advance s.key s.state s.phase })
    | .publish state => ((), { s with state })

/-- What a read has come to. -/
def read (key : String) (state : σ) (events : List (ReadEvent σ)) : ReadPhase ρ :=
  (store.machine.run (startRead key state) events).phase

end RangeStore

/-! ## Versions -/

/-- The next step of a read finds what it would find if the object were this one: its size, or this part of it. -/
def Reading.Finds {σ ρ : Type} (current : σ → Option Bytes) (part : σ → ρ → Bytes) (version : Bytes)
    (s : Reading σ ρ) : ReadEvent σ → Prop
  | .publish _ => True
  | .advance =>
    match s.phase with
    | .head => ∀ content, current s.state = some content → content.length = version.length
    | .fetch _ offset _ range => part s.state range <+: version.drop offset
    | _ => True

namespace RangeStore

variable {σ ρ : Type} (store : RangeStore σ ρ)

/-- What a read takes from its calls: the size of the object, and a part of it at most as long as it asked for. -/
structure Shows (current : String → σ → Option Bytes) (part : σ → ρ → Bytes) : Prop where
  head : ∀ key state metadata, store.resource.head state key = .ok metadata →
    ∃ content, current key state = some content ∧ metadata.size = content.length
  lookup : ∀ key state later offset length range, store.lookup state key offset length = .ok range →
    (part later range).length ≤ length
  fetch : ∀ state range bytes, store.fetch state range = .ok bytes → bytes = part state range

end RangeStore

end Parquex
