import Parquex.BackendAgreement
import Parquex.StoreRead

/-!
# Whole and torn reads

A read returns one version of its object exactly when every step of it finds that
version: the size that the first step takes is its size, and each range is a part of
it at the same place. Nothing in the read sees to this.
-/

namespace Parquex

namespace ReadPhase

variable {σ ρ : Type}

variable {part : σ → ρ → Bytes} {size offset : Nat} {chunks : List Bytes} (hl : chunks.reverse.flatten.length = offset)
  (hs : offset ≤ size)
include hl hs

end ReadPhase

namespace RangeStore

variable {σ ρ : Type} {store : RangeStore σ ρ} {current : String → σ → Option Bytes} {part : σ → ρ → Bytes}
  {key : String} {state : σ} {version bytes : Bytes}

theorem head_ok (h : store.Shows current part) {metadata : Metadata}
    (hh : store.toStore.head state key = .ok metadata) :
    ∃ content, current key state = some content ∧ metadata.size = content.length := by
  unfold Store.head at hh
  obtain ⟨k, hn, hcall⟩ := except_bind_eq_ok.mp hh
  obtain ⟨found, hf, he⟩ := except_bind_eq_ok.mp hcall
  rw [(normalizeKey_eq_ok hn).1] at hf
  cases hr : store.resource.head state key with
  | error failure =>
    rw [hr] at hf
    cases hf
  | ok native =>
    rw [hr] at hf
    cases hf
    cases he
    exact h.head key state found hr

variable (store) in
theorem key_run (s : Reading σ ρ) (events : List (ReadEvent σ)) : (store.machine.run s events).key = s.key := by
  refine store.machine.run_inv (I := fun t => t.key = s.key) rfl (fun t event ht => ?_) events
  cases event <;> exact ht

end RangeStore

/-! ## The backends -/

theorem LocalHost.rangeStore_shows (host : LocalHost) (maxRangeBytes : Nat) :
    (host.rangeStore maxRangeBytes).Shows (fun key files => host.objectAt files key) FoundRange.part where
  head key files metadata hh := by
    change host.storeHead files key = .ok metadata at hh
    unfold storeHead headObject at hh
    obtain ⟨-, -, hh⟩ := except_bind_eq_ok.mp hh
    obtain ⟨⟨path, size⟩, ho, hh⟩ := except_bind_eq_ok.mp hh
    obtain ⟨path', hr, ho⟩ := except_bind_eq_ok.mp ho
    obtain ⟨size', hs, ho⟩ := except_bind_eq_ok.mp ho
    cases ho
    have hsize : metadata.size = size := by
      by_cases hroot : host.root.isPrefixOf path = true
      · simp only [localMetadata, hroot, if_true] at hh
        rw [← Except.ok.inj hh]
      · simp [localMetadata, hroot] at hh
    unfold metadataFor at hs
    rw [FileSystem.canonicalize_canonical (resolveExisting_eq_ok.mp hr).1] at hs
    simp only at hs
    split at hs
    · rename_i content hg
      cases hs
      refine ⟨content, ?_, hsize⟩
      simp only [objectAt, hr, FileSystem.content, hg]
    · cases hs
  lookup key files later offset length range hl := by
    change host.lookupRange files key offset length = .ok range at hl
    unfold lookupRange at hl
    obtain ⟨-, -, hl⟩ := except_bind_eq_ok.mp hl
    obtain ⟨path, -, hl⟩ := except_bind_eq_ok.mp hl
    have hlength : range.length ≤ length := by
      split at hl
      · cases hl
      · split at hl
        · cases hl
        · cases hl
          exact Nat.min_le_left _ _
      · cases hl
    unfold FoundRange.part
    split
    · rw [List.length_take]
      omega
    · exact Nat.zero_le _
  fetch files range bytes hf := by
    change fetchRange files range = .ok bytes at hf
    unfold fetchRange at hf
    unfold FoundRange.part
    split at hf
    · cases hf
    · rename_i content hm
      cases hf
      rw [hm]
    · rename_i entry hfile hm
      split at hf
      · cases hf
        rw [hm]
        cases entry with
        | file content => exact absurd rfl (hfile content)
        | _ => rfl
      · cases hf

theorem RemoteStore.rangeStore_shows {σ : Type} (remote : RemoteStore σ) {contents : σ → String → Option Bytes}
    {choices : ServiceChoices} (rules : remote.service.Rules contents choices) (maxRangeBytes : Nat) :
    (remote.rangeStore maxRangeBytes).Shows (remote.objectAt contents) (RequestedRange.part contents) where
  head key state metadata hh := by
    change remote.storeHead state key = .ok metadata at hh
    unfold storeHead headObject at hh
    obtain ⟨-, -, hh⟩ := except_bind_eq_ok.mp hh
    obtain ⟨object, ho, hh⟩ := except_bind_eq_ok.mp hh
    obtain ⟨size, hs, hh⟩ := except_bind_eq_ok.mp hh
    cases hh
    unfold objectAt
    rw [ho]
    cases hc : contents state object.path with
    | none =>
      rw [rules.headMissing state object.path hc] at hs
      cases hs
    | some content =>
      rw [rules.head state object.path content hc] at hs
      cases hs
      exact ⟨content, hc, rfl⟩
  lookup key state later offset length range hl := by
    change remote.requestRange key offset length = .ok range at hl
    unfold requestRange at hl
    obtain ⟨-, -, hl⟩ := except_bind_eq_ok.mp hl
    obtain ⟨object, -, hl⟩ := except_bind_eq_ok.mp hl
    cases hl
    unfold RequestedRange.part
    rw [List.length_take]
    exact Nat.min_le_left _ _
  fetch state range bytes hf := by
    change remote.readObject state range.object range.offset range.length .storeReadRange = .ok bytes at hf
    unfold readObject at hf
    unfold RequestedRange.part
    split at hf
    · cases hf
    · split at hf
      · rename_i hzero
        cases hf
        rw [hzero, List.take_zero]
      · have hstop : range.offset < range.offset + range.length := by omega
        cases hc : contents state range.object.path with
        | none =>
          rw [rules.getRangeMissing state _ _ _ hc hstop] at hf
          cases hf
        | some content =>
          by_cases hstart : range.offset < content.length
          · rw [rules.getRange state _ content _ _ hc hstart hstop] at hf
            cases hf
            rw [Option.getD_some, Nat.add_sub_cancel_left]
          · rw [rules.getRangeBeyond state _ content _ _ hc (Nat.le_of_not_lt hstart) hstop] at hf
            cases hf

end Parquex
