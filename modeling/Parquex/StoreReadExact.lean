import Parquex.ContainmentSound
import Parquex.StoreReadEnds

/-!
# Reading an object that does not change

A read of an object that stays as it is asks for its bytes in order, as many at a
time as one range may have, each of them once, and returns them.
-/

namespace Parquex

/-- The range that a step asks for. -/
def ReadPhase.request? {ρ : Type} (maxRangeBytes : Nat) : ReadPhase ρ → Option (Nat × Nat)
  | .lookup size offset _ => some (offset, min maxRangeBytes (size - offset))
  | _ => none

namespace RangeStore

variable {σ ρ : Type} (store : RangeStore σ ρ)

/-- The ranges that the first steps of a read have asked for. -/
def requests (key : String) (states : Nat → σ) (steps : Nat) : List (Nat × Nat) :=
  (List.range steps).filterMap fun step => (store.readAt key states step).request? store.maxRangeBytes

/-- The store has this object under a key, and its calls do not fail. -/
structure Serves (state : σ) (key : String) (content : Bytes) : Prop where
  head : ∃ metadata, store.toStore.head state key = .ok metadata ∧ metadata.size = content.length
  range : ∀ offset length, offset ≤ content.length → length ≤ store.maxRangeBytes → offset < 2 ^ 64 → length < 2 ^ 64 →
    ∃ range, store.openRange state key offset length = .ok range ∧
      store.fetch state range = .ok ((content.drop offset).take length)

variable {store} {state : σ} {key : String} {content : Bytes}

theorem requests_succ (states : Nat → σ) (steps : Nat) : store.requests key states (steps + 1) =
    store.requests key states steps ++ ((store.readAt key states steps).request? store.maxRangeBytes).toList := by
  unfold requests
  rw [List.range_succ, List.filterMap_append]
  cases hr : (store.readAt key states steps).request? store.maxRangeBytes <;> simp [hr]

theorem requests_stable {states : Nat → σ} {first : Nat} {result : Except (Stop Error) Bytes}
    (hdone : store.readAt key states first = .done result) {steps : Nat} (hsteps : first ≤ steps) :
    store.requests key states steps = store.requests key states first := by
  induction steps, hsteps using Nat.le_induction with
  | base => rfl
  | succ steps hle ih =>
    rw [requests_succ, ih, store.readAt_done key _ hdone hle]
    exact List.append_nil _

namespace Serves

variable (h : store.Serves state key content)
include h

theorem readAt_zero : store.readAt key (fun _ => state) 0 = .head := by
  obtain ⟨metadata, hh, -⟩ := h.head
  unfold Store.head at hh
  obtain ⟨k, hn, -⟩ := except_bind_eq_ok.mp hh
  change (startRead key state).phase = .head
  unfold startRead
  rw [hn]

theorem readAt_one : store.readAt key (fun _ => state) 1 = readChunks content.length 0 [] := by
  obtain ⟨metadata, hh, hsize⟩ := h.head
  rw [readAt_succ, h.readAt_zero, ← hsize]
  simp only [advance, hh]

/-- Both steps of a range. -/
theorem readAt_range {step offset : Nat} {chunks : List Bytes} (hword : content.length < 2 ^ 64)
    (hphase : store.readAt key (fun _ => state) step = .lookup content.length offset chunks)
    (hoffset : offset < content.length) :
    (∃ range, store.readAt key (fun _ => state) (step + 1) = .fetch content.length offset chunks range) ∧
    store.readAt key (fun _ => state) (step + 2) =
      readChunks content.length (offset + min store.maxRangeBytes (content.length - offset))
        ((content.drop offset).take (min store.maxRangeBytes (content.length - offset)) :: chunks) := by
  obtain ⟨range, hopen, hfetch⟩ := h.range offset (min store.maxRangeBytes (content.length - offset)) (by omega)
    (Nat.min_le_left _ _) (by omega) (by omega)
  have hnext : store.readAt key (fun _ => state) (step + 1) = .fetch content.length offset chunks range := by
    rw [readAt_succ, hphase]
    simp only [advance, hopen]
  refine ⟨⟨range, hnext⟩, ?_⟩
  rw [readAt_succ, hnext]
  simp only [advance, hfetch, TimePartition.nativeResult]
  rw [List.length_take, List.length_drop]
  congr 2
  omega

/-- After so many ranges the read has what lies before the next one, and has asked for just that. -/
theorem readAt_after (hpos : 1 ≤ store.maxRangeBytes) (hword : content.length < 2 ^ 64) (i : Nat)
    (hi : ∀ j < i, j * store.maxRangeBytes < content.length) :
    (∃ chunks : List Bytes, store.readAt key (fun _ => state) (2 * i + 1) =
        readChunks content.length (min (i * store.maxRangeBytes) content.length) chunks ∧
      chunks.reverse.flatten = content.take (min (i * store.maxRangeBytes) content.length)) ∧
    (store.requests key (fun _ => state) (2 * i + 1)).length = i ∧
    (∀ r ∈ store.requests key (fun _ => state) (2 * i + 1), 1 ≤ r.2 ∧ r.2 ≤ store.maxRangeBytes) ∧
    (store.requests key (fun _ => state) (2 * i + 1)).flatMap (fun r => List.range' r.1 r.2) =
      List.range (min (i * store.maxRangeBytes) content.length) := by
  induction i with
  | zero =>
    have hnone : store.requests key (fun _ => state) 1 = [] := by
      rw [requests_succ, h.readAt_zero]
      rfl
    rw [Nat.mul_zero, Nat.zero_mul, Nat.zero_min, Nat.zero_add, hnone, h.readAt_one]
    exact ⟨⟨[], rfl, rfl⟩, rfl, by simp, rfl⟩
  | succ i ih =>
    obtain ⟨⟨chunks, hphase, hflat⟩, hlength, hbounds, hpositions⟩ := ih fun j hj => hi j (by omega)
    have hlt := hi i (by omega)
    have hoffset : min (i * store.maxRangeBytes) content.length = i * store.maxRangeBytes := by omega
    have hnext : min ((i + 1) * store.maxRangeBytes) content.length =
        i * store.maxRangeBytes + min store.maxRangeBytes (content.length - i * store.maxRangeBytes) := by
      rw [Nat.add_mul, Nat.one_mul]
      omega
    rw [hoffset] at hphase hflat hpositions
    have hlookup : store.readAt key (fun _ => state) (2 * i + 1) =
        .lookup content.length (i * store.maxRangeBytes) chunks := by
      rw [hphase, readChunks, if_neg (by omega)]
    obtain ⟨⟨range, hfetch⟩, hread⟩ := h.readAt_range hword hlookup hlt
    have hrequests : store.requests key (fun _ => state) (2 * (i + 1) + 1) =
        store.requests key (fun _ => state) (2 * i + 1) ++
          [(i * store.maxRangeBytes, min store.maxRangeBytes (content.length - i * store.maxRangeBytes))] := by
      rw [show 2 * (i + 1) + 1 = 2 * i + 1 + 1 + 1 by omega, requests_succ, requests_succ, hfetch, hlookup]
      simp [ReadPhase.request?]
    rw [hnext, hrequests]
    refine ⟨⟨_, hread, ?_⟩, ?_, ?_, ?_⟩
    · rw [List.reverse_cons, List.flatten_append, hflat, List.flatten_singleton, ← List.take_add]
    · rw [List.length_append, hlength, List.length_singleton]
    · intro r hr
      rcases List.mem_append.mp hr with hr | hr
      · exact hbounds r hr
      · rw [List.mem_singleton.mp hr]
        exact ⟨by simp only; omega, Nat.min_le_left _ _⟩
    · have happend : List.range' 0 (i * store.maxRangeBytes) ++
          List.range' (0 + i * store.maxRangeBytes) (min store.maxRangeBytes (content.length - i * store.maxRangeBytes)) =
          List.range' 0 (i * store.maxRangeBytes +
            min store.maxRangeBytes (content.length - i * store.maxRangeBytes)) := List.range'_append_1
      rw [List.flatMap_append, hpositions, List.flatMap_singleton, List.range_eq_range', List.range_eq_range',
        ← happend, Nat.zero_add]

/-- The read returns the object, and asks for as many ranges as it takes to cover it once. -/
theorem read_exact (hpos : 1 ≤ store.maxRangeBytes) (hword : content.length < 2 ^ 64) :
    ∃ first, ∀ steps, first ≤ steps → store.readAt key (fun _ => state) steps = .done (.ok content) ∧
      (store.requests key (fun _ => state) steps).length =
        (content.length + store.maxRangeBytes - 1) / store.maxRangeBytes ∧
      (∀ r ∈ store.requests key (fun _ => state) steps, 1 ≤ r.2 ∧ r.2 ≤ store.maxRangeBytes) ∧
      (store.requests key (fun _ => state) steps).flatMap (fun r => List.range' r.1 r.2) =
        List.range content.length := by
  generalize hcount : (content.length + store.maxRangeBytes - 1) / store.maxRangeBytes = count
  have hlt : ∀ j < count, j * store.maxRangeBytes < content.length := by
    intro j hj
    rw [← hcount, Nat.lt_iff_add_one_le, Nat.le_div_iff_mul_le hpos, Nat.add_mul] at hj
    omega
  have hend : content.length ≤ count * store.maxRangeBytes := by
    by_contra hlt'
    have hle : count + 1 ≤ (content.length + store.maxRangeBytes - 1) / store.maxRangeBytes := by
      rw [Nat.le_div_iff_mul_le hpos, Nat.add_mul]
      omega
    omega
  obtain ⟨⟨chunks, hphase, hflat⟩, hlength, hbounds, hpositions⟩ := h.readAt_after hpos hword count hlt
  rw [Nat.min_eq_right hend] at hphase hflat hpositions
  rw [readChunks, if_pos (le_refl _), hflat, List.take_length] at hphase
  refine ⟨2 * count + 1, fun steps hsteps => ?_⟩
  rw [store.readAt_done key _ hphase hsteps, requests_stable hphase hsteps]
  exact ⟨rfl, hlength, hbounds, hpositions⟩

end Serves

end RangeStore

/-! ## A local store -/

namespace LocalHost

variable (host : LocalHost) {files : FileSystem} {key : String} {content : Bytes}

theorem metadata_of_objectAt (hc : host.objectAt files key = some content) :
    ∃ path, (∀ operation, host.resolveExisting files (host.location key) operation = .ok path) ∧
      files.metadata path = .ok (.file content) := by
  unfold objectAt at hc
  cases hr : host.resolveExisting files (host.location key) .head with
  | error failure =>
    rw [hr] at hc
    cases hc
  | ok path =>
    rw [hr] at hc
    refine ⟨path, fun operation => resolveExisting_eq_ok.mpr (resolveExisting_eq_ok.mp hr), ?_⟩
    simp only [FileSystem.content] at hc
    split at hc
    · rename_i hg
      cases hc
      unfold FileSystem.metadata
      rw [FileSystem.canonicalize_canonical (resolveExisting_eq_ok.mp hr).1]
      simp only [hg]
      rfl
    · cases hc

/-- An object that a head of the store finds is served. -/
theorem serves (maxRangeBytes : Nat) {metadata : Metadata}
    (hh : (host.store maxRangeBytes).head files key = .ok metadata) (hc : host.objectAt files key = some content) :
    (host.rangeStore maxRangeBytes).Serves files key content where
  head := by
    obtain ⟨content', hc', hsize⟩ := RangeStore.head_ok (host.rangeStore_shows maxRangeBytes) hh
    cases hc.symm.trans hc'
    exact ⟨metadata, hh, hsize⟩
  range offset length hoffset hlength hoffset' hlength' := by
    obtain ⟨path, hresolve, hmeta⟩ := host.metadata_of_objectAt hc
    have hk : AcceptedKey key := by
      unfold Store.head at hh
      obtain ⟨k, hn, -⟩ := except_bind_eq_ok.mp hh
      exact (normalizeKey_eq_ok hn).1 ▸ hn
    refine ⟨⟨path, offset, min length (content.length - offset)⟩, ?_, ?_⟩
    · unfold RangeStore.openRange Store.ensureBounded
      rw [show normalizeKey key = .ok key from hk, if_pos hlength]
      have hwords : ¬ (2 ^ 64 ≤ offset ∨ 2 ^ 64 ≤ length) := by omega
      simp only [hwords, TimePartition.liftError, bind, Except.bind, if_false]
      change TimePartition.nativeResult (host.lookupRange files key offset length) = _
      unfold lookupRange
      rw [hk.validateKey, hresolve]
      simp only [bind, Except.bind, hmeta, if_neg (show ¬ content.length < offset by omega), TimePartition.nativeResult]
    · change fetchRange files _ = _
      unfold fetchRange
      simp only [hmeta]
      rw [← List.length_drop, ← List.take_eq_take_min]

/-- A read of an object that does not change returns it, asking for its bytes in order, once and within the bound. -/
theorem store_read_exact {maxRangeBytes : Nat} (hpos : 1 ≤ maxRangeBytes) {metadata : Metadata}
    (hh : (host.store maxRangeBytes).head files key = .ok metadata) (hc : host.objectAt files key = some content)
    (hword : content.length < 2 ^ 64) :
    ∃ first, ∀ steps, first ≤ steps →
      (host.rangeStore maxRangeBytes).readAt key (fun _ => files) steps = .done (.ok content) ∧
      ((host.rangeStore maxRangeBytes).requests key (fun _ => files) steps).length =
        (content.length + maxRangeBytes - 1) / maxRangeBytes ∧
      (∀ r ∈ (host.rangeStore maxRangeBytes).requests key (fun _ => files) steps, 1 ≤ r.2 ∧ r.2 ≤ maxRangeBytes) ∧
      ((host.rangeStore maxRangeBytes).requests key (fun _ => files) steps).flatMap (fun r => List.range' r.1 r.2) =
        List.range content.length :=
  (host.serves maxRangeBytes hh hc).read_exact hpos hword

theorem store_read_exact_one : ∃ first, ∀ steps, first ≤ steps →
    (oneHost.rangeStore 1).readAt "a" (fun _ => oneFile) steps = .done (.ok [1, 2]) ∧
    ((oneHost.rangeStore 1).requests "a" (fun _ => oneFile) steps).length = 2 ∧
    (∀ r ∈ (oneHost.rangeStore 1).requests "a" (fun _ => oneFile) steps, 1 ≤ r.2 ∧ r.2 ≤ 1) ∧
    ((oneHost.rangeStore 1).requests "a" (fun _ => oneFile) steps).flatMap (fun r => List.range' r.1 r.2) =
      List.range 2 :=
  oneHost.store_read_exact (by decide)
    (show (oneHost.store 1).head oneFile "a" = .ok ⟨"a", 2⟩ by decide) (by decide) (by decide)

end LocalHost

end Parquex
