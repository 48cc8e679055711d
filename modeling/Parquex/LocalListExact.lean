import Parquex.LocalListSound

/-!
# Listings by prefix

When a listing of a local store returns the keys that begin with the given text.
The store takes the text for a path as soon as something has that path, so the
answer depends on what lies beside it.
-/

namespace Parquex

/-! ## The text of a prefix -/

theorem rdropWhile_slashes (cs : List Char) :
    ∃ n, cs = cs.rdropWhile (· == '/') ++ List.replicate n '/' := by
  induction cs using List.reverseRecOn with
  | nil => exact ⟨0, rfl⟩
  | append_singleton cs c ih =>
    by_cases hc : c = '/'
    · obtain ⟨n, hn⟩ := ih
      refine ⟨n + 1, ?_⟩
      rw [List.rdropWhile_concat_pos _ _ _ (by simp [hc]), List.replicate_succ', ← List.append_assoc, ← hn, hc]
    · exact ⟨0, by rw [List.rdropWhile_concat_neg _ _ _ (by simp [hc])]; simp⟩

/-- The prefix as it was given: without a separator at its end, with one, or with more. -/
theorem normalizeListPrefix_cases {text pre : String} (h : normalizeListPrefix text = .ok pre) :
    (text = "" ∧ pre = "") ∨
      (AcceptedKey pre ∧ text ≠ "" ∧
        (text = pre ∨ text = pre ++ "/" ∨ hasPrefix text (pre ++ "/" ++ "/") = true)) := by
  unfold normalizeListPrefix at h
  by_cases ht : text = ""
  · rw [if_pos ht] at h
    exact Or.inl ⟨ht, (Except.ok.inj h).symm⟩
  · rw [if_neg ht] at h
    obtain ⟨rfl, hk⟩ := normalizeKey_eq_ok h
    refine Or.inr ⟨hk, ht, ?_⟩
    obtain ⟨n, hn⟩ := rdropWhile_slashes text.toList
    have htext : text.toList = (trimTrailingSlash text).toList ++ List.replicate n '/' := by
      unfold trimTrailingSlash
      rw [String.toList_ofList]
      exact hn
    clear hn
    cases n with
    | zero => exact Or.inl (String.toList_inj.mp (by rw [htext]; simp))
    | succ n =>
      cases n with
      | zero => exact Or.inr (Or.inl (String.toList_inj.mp (by rw [htext]; simp)))
      | succ n =>
        have hsplit : text.toList = (trimTrailingSlash text ++ "/" ++ "/").toList ++ List.replicate n '/' := by
          rw [htext]
          simp [List.replicate_succ]
        exact Or.inr (Or.inr (hasPrefix_iff.mpr ⟨_, hsplit.symm⟩))

namespace LocalHost

variable (host : LocalHost) (files : FileSystem)

def store (maxRangeBytes : Nat) : Store FileSystem := ⟨host.nativeStore, maxRangeBytes⟩

/-! ## Exact listings -/

variable {host files} {maxRangeBytes : Nat} {text pre : String}

theorem store_list (hn : normalizeListPrefix text = .ok pre) :
    (host.store maxRangeBytes).list files text = Store.nativeResult (host.storeList files pre) >>= fun entries =>
      pure (entries.map fun entry => .fromNative entry.path entry) := Store.list_eq hn

theorem map_fromNative (found : List ObjectMetadata) :
    (found.map fun entry => Metadata.fromNative entry.path entry).map Metadata.key = found.map ObjectMetadata.path := by
  rw [List.map_map]
  rfl

/-- What a listing of the native store returns for a prefix that the library has normalised. -/
theorem ObjectTree.storeList_normalized (h : host.ObjectTree files) (hn : normalizeListPrefix text = .ok pre) :
    (host.UnderObject files pre ∧ host.storeList files pre = .error (.fromIo .storeList .notADirectory)) ∨
      (¬ host.UnderObject files pre ∧
        ∃ entries, host.storeList files pre = .ok entries ∧ host.Lists files (host.Listed files pre) entries) := by
  rcases normalizeListPrefix_cases hn with ⟨-, rfl⟩ | ⟨hk, -, -⟩
  · refine Or.inr ⟨?_, h.storeList_empty⟩
    rintro ⟨key, -, hp⟩
    have := (hasPrefix_iff.mp hp).length_le
    simp at this
  · exact h.storeList_cases hk

theorem not_hasPrefix_append_slash (pre : String) : hasPrefix pre (pre ++ "/") = false := by
  rw [Bool.eq_false_iff, ne_eq, hasPrefix_iff]
  intro hp
  have := hp.length_le
  simp at this

theorem hasPrefix_of_beneath {key : String} (h : hasPrefix key (pre ++ "/") = true) : hasPrefix key pre = true :=
  hasPrefix_trans h (hasPrefix_iff_append.mpr ⟨"/", rfl⟩)

def hourHost : LocalHost := { root := [], pid := 1, windows := false }

end LocalHost

end Parquex
