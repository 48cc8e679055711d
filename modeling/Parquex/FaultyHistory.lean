import Parquex.LocalHistory

/-!
# Histories with failing system calls

Whatever system calls fail in whichever puts, a put that is answered stores just its
chunks, one that fails leaves every object as it was, and the reads show what the
answered puts and deletes have left. Staging files may stay behind, and no key of a
caller shows them.
-/

namespace Parquex

/-! ## The objects of the callers -/

namespace LocalHost

variable {host : LocalHost} {files files' : FileSystem} {objects : String → Option Bytes} {key : String}
  {faults : Nat → Faults}

/-- The tree has the objects of the callers, and perhaps other files under the names of staging files. -/
structure Keeps (host : LocalHost) (files : FileSystem) (objects : String → Option Bytes) : Prop where
  tree : host.ObjectTree files
  mapped : ∀ key, host.ObjectKey key → files.content (host.location key) = objects key
  keys : ∀ key, objects key ≠ none → host.ObjectKey key

theorem location_ne_stagePath {k : String} (hk : host.ObjectKey k) (key : String) (n : Nat) :
    host.location k ≠ host.stagePath key n := hk.location_ne (reservedPath_stage _ _ _)

/-! ## Changes -/

theorem Keeps.done {content : Bytes} (h : host.Keeps files objects) (hk : host.ObjectKey key)
    (hput : host.PutDone files key content files') :
    host.Keeps files' (Function.update objects key (some content)) := by
  obtain ⟨htree, mid, n, -, hgrown, -, -, -, hget⟩ := hput
  refine ⟨htree, fun k hk' => ?_, fun k hne => ?_⟩
  · by_cases he : k = key
    · simp [he, FileSystem.content, hget]
    · have hsame : files'.get (host.location k) = mid.get (host.location k) := by
        rw [hget, if_neg fun hl => he (location_inj hk'.accepted hk.accepted hl),
          if_neg (location_ne_stagePath hk' key n)]
      rw [FileSystem.content_congr hsame, hgrown.content, h.mapped k hk', Function.update_of_ne he]
  · by_cases he : k = key
    · rw [he]
      exact hk
    · rw [Function.update_of_ne he] at hne
      exact h.keys k hne

theorem Keeps.failed (h : host.Keeps files objects) (hput : host.PutFailed files key files') :
    host.Keeps files' objects := by
  obtain ⟨htree, mid, n, hgrown, hget⟩ := hput
  refine ⟨htree, fun k hk => ?_, h.keys⟩
  rw [FileSystem.content_congr (hget _ (location_ne_stagePath hk key n)), hgrown.content, h.mapped k hk]

theorem Keeps.removed (h : host.Keeps files objects) (hk : host.ObjectKey key)
    (hr : files.removeFile (host.location key) = .ok files') :
    host.Keeps files' (Function.update objects key none) := by
  refine ⟨h.tree.removeFile hr, fun k hk' => ?_, fun k hne => ?_⟩
  · rw [FileSystem.content_removeFile hr]
    by_cases he : k = key
    · simp [he]
    · rw [if_neg fun hl => he (location_inj hk'.accepted hk.accepted hl), Function.update_of_ne he, h.mapped k hk']
  · by_cases he : k = key
    · rw [he, Function.update_self] at hne
      exact absurd rfl hne
    · rw [Function.update_of_ne he] at hne
      exact h.keys k hne

/-! ## Reads -/

theorem Keeps.get_file (h : host.Keeps files objects) (hk : host.ObjectKey key) {content : Bytes} :
    files.get (host.location key) = some (.file content) ↔ objects key = some content := by
  rw [← h.mapped key hk]
  unfold FileSystem.content
  cases hg : files.get (host.location key) with
  | none => simp
  | some entry => cases entry <;> simp

/-- What the calls on a key find: an object, or nothing that they could answer with. -/
theorem Keeps.cases (h : host.Keeps files objects) (hk : host.ObjectKey key) :
    (∃ content, objects key = some content ∧ files.get (host.location key) = some (.file content)) ∨
      (objects key = none ∧ (∀ metadata, host.storeHead files key ≠ .ok metadata) ∧
        (∀ offset length bytes, host.storeReadRange files key offset length ≠ .ok bytes) ∧
        ∀ files', host.storeDelete files key ≠ .ok files') := by
  have hobjects : (∀ content, files.get (host.location key) ≠ some (.file content)) → objects key = none := by
    intro hfile
    rw [Option.eq_none_iff_forall_not_mem]
    exact fun content hc => hfile content ((h.get_file hk).mpr hc)
  rcases h.tree.at_cases hk.accepted with ⟨-, ⟨content, hg⟩ | hd | ⟨hn, hc⟩⟩ | ⟨-, hn, hc⟩
  · exact Or.inl ⟨content, (h.get_file hk).mp hg, hg⟩
  · refine Or.inr ⟨hobjects (by simp [hd]), ?_, ?_, ?_⟩
    · simp [h.tree.storeHead_directory hk.accepted hd]
    · simp [h.tree.storeReadRange_directory hk.accepted hd]
    · simp [h.tree.storeDelete_directory hk.accepted hd]
  all_goals
    refine Or.inr ⟨hobjects (by simp [hn]), ?_, ?_, ?_⟩
    · simp [ObjectTree.storeHead_missing hk.accepted hc]
    · simp [ObjectTree.storeReadRange_missing hk.accepted hc]
    · simp [ObjectTree.storeDelete_missing hk.accepted hc]

end LocalHost

/-! ## A put whose second write fails -/

end Parquex
