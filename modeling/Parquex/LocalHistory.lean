import Parquex.Holdings
import Parquex.StorePutSound

/-!
# Histories of a local store

Puts, deletes and reads, one after the other, answer as the holdings of the store
say, and leave a tree that holds what they say: also which directories there are,
and no staging file.
-/

namespace Parquex

namespace LocalHost

variable {host : LocalHost} {files files' : FileSystem} {holdings : Holdings} {key pre : String}

/-- The tree of a store and its directories. -/
structure Holds (host : LocalHost) (files : FileSystem) (holdings : Holdings) : Prop where
  map : host.HoldsMap files holdings.objects
  directories : ∀ key, AcceptedKey key →
    (files.get (host.location key) = some .directory ↔ holdings.directories key)
  unstaged : host.Unstaged files

/-! ## Places -/

/-- To be above in the text of keys is to be above in the tree. -/
theorem hasPrefix_slash_iff_keyPath {k : String} (hk : AcceptedKey key) (hk' : AcceptedKey k) :
    hasPrefix key (k ++ "/") = true ↔ keyPath k <+: (keyPath key).dropLast := by
  rw [hasPrefix_slash_iff, hk.keyPath_eq, hk'.keyPath_eq]
  constructor
  · rintro ⟨q, hq, hs⟩
    rw [hs, List.dropLast_append_of_ne_nil hq]
    exact List.prefix_append _ _
  · intro hp
    obtain ⟨q, hq⟩ := hp
    refine ⟨q ++ [(splitSlash key).getLast (splitSlash_ne_nil key)], by simp, ?_⟩
    rw [← List.append_assoc, hq, List.dropLast_append_getLast]

namespace Holds

variable (h : host.Holds files holdings)
include h

theorem underObject_iff : host.UnderObject files key ↔ holdings.Under key := by
  apply exists_congr
  intro k
  apply and_congr_left
  intro _
  constructor
  · rintro ⟨hk, content, hg⟩
    simp [(h.map.get_file hk).mp hg]
  · intro hne
    obtain ⟨content, hc⟩ := Option.ne_none_iff_exists'.mp hne
    have hk := h.map.keys k content hc
    exact ⟨hk, content, (h.map.get_file hk).mpr hc⟩

/-- What the tree has at a key, and the place that the holdings make of it. -/
theorem place_cases (hk : AcceptedKey key) :
    (∃ content, files.get (host.location key) = some (.file content) ∧ holdings.objects key = some content ∧
      holdings.place key = .object content) ∨
    (files.get (host.location key) = some .directory ∧ holdings.objects key = none ∧
      holdings.place key = .directory) ∨
    (files.canonicalize (host.location key) = .error .notFound ∧ holdings.place key = .nothing) ∨
    (files.canonicalize (host.location key) = .error .notADirectory ∧ holdings.place key = .beneath) := by
  have hd := h.directories key hk
  unfold Holdings.place
  rcases h.map.at_cases hk with ⟨content, hg, hm, -⟩ | ⟨hg, hm, -⟩ | ⟨⟨hg, hu⟩, hm, hc⟩ | ⟨hg, hm, hu, hc⟩
  · exact Or.inl ⟨content, hg, hm, by simp [hm]⟩
  · exact Or.inr (Or.inl ⟨hg, hm, by simp [hm, hd.mp hg]⟩)
  · have hnot : ¬ holdings.directories key := by rw [← hd, hg]; simp
    rw [h.underObject_iff] at hu
    exact Or.inr (Or.inr (Or.inl ⟨hc, by simp [hm, hnot, hu]⟩))
  · have hnot : ¬ holdings.directories key := by rw [← hd, hg]; simp
    rw [h.underObject_iff] at hu
    exact Or.inr (Or.inr (Or.inr ⟨hc, by simp [hm, hnot, hu]⟩))

theorem head_eq (hk : AcceptedKey key) :
    (host.storeHead files key).map (Metadata.fromNative key) = (holdings.place key).head key := by
  rcases h.place_cases hk with ⟨content, hg, -, hp⟩ | ⟨hg, -, hp⟩ | ⟨hc, hp⟩ | ⟨hc, hp⟩ <;> rw [hp]
  · rw [h.map.tree.storeHead_file hk hg]
    rfl
  · rw [h.map.tree.storeHead_directory hk hg]
    rfl
  · rw [ObjectTree.storeHead_missing hk hc]
    rfl
  · rw [ObjectTree.storeHead_missing hk hc]
    rfl

theorem readRange_eq (hk : AcceptedKey key) (offset length : Nat) :
    host.storeReadRange files key offset length = (holdings.place key).readRange offset length := by
  rcases h.place_cases hk with ⟨content, hg, -, hp⟩ | ⟨hg, -, hp⟩ | ⟨hc, hp⟩ | ⟨hc, hp⟩ <;> rw [hp]
  · exact h.map.tree.storeReadRange_file hk hg offset length
  · exact h.map.tree.storeReadRange_directory hk hg offset length
  · exact ObjectTree.storeReadRange_missing hk hc offset length
  · exact ObjectTree.storeReadRange_missing hk hc offset length

theorem lists (maxRangeBytes : Nat) (text : String) :
    holdings.Lists text ((host.store maxRangeBytes).list files text) := by
  unfold Holdings.Lists
  cases hn : normalizeListPrefix text with
  | error error =>
    unfold Store.list
    rw [hn]
    rfl
  | ok pre =>
    simp only
    rw [Store.list_eq hn]
    rcases h.map.tree.storeList_normalized hn with ⟨hunder, hlist⟩ | ⟨hstop, entries, hlist, hlists⟩
    · have hne : pre ≠ "" := by
        rintro rfl
        exact not_underObject_empty hunder
      rw [if_pos ⟨hne, h.underObject_iff.mp hunder⟩]
      change (Store.nativeResult (host.storeList files pre) >>= _) = _
      rw [hlist]
      rfl
    · rw [if_neg fun hand => hstop (h.underObject_iff.mpr hand.2)]
      refine ⟨entries, ?_, ?_⟩
      · have hlisted := h.map.listsKeys hlists
        refine ⟨fun entry => (hlisted.mem entry).trans (and_congr_left fun _ => ?_), hlisted.ascending⟩
        rcases normalizeListPrefix_cases hn with ⟨-, rfl⟩ | ⟨hk, -⟩
        · simp [Holdings.Listed]
        · have hnone : files.get (host.location pre) = none ↔
              holdings.objects pre = none ∧ ¬ holdings.directories pre := by
            rw [← h.directories pre hk, ← h.map.mapped pre hk]
            unfold FileSystem.content
            cases hg : files.get (host.location pre) with
            | none => simp
            | some entry =>
              cases entry with
              | symlink absolute target => exact absurd hg (h.map.tree.tree.links _ _ _)
              | _ => simp
          simp [Holdings.Listed, hnone]
      · change (Store.nativeResult (host.storeList files pre) >>= _) = _
        rw [hlist]
        rfl

/-! ## Puts -/

variable {mid : FileSystem} {content : Bytes} {n : Nat}

/-- With the directories above a key. -/
theorem grow (hk : AcceptedKey key) (hfree : host.Free key) (htree : host.ObjectTree mid)
    (hgrown : files.Grown mid (host.Parent key))
    (hdir : mid.get (host.root ++ (keyPath key).dropLast) = some .directory) :
    host.Holds mid (holdings.grow key) where
  map := by
    refine ⟨htree, fun k hk' => ?_, h.map.keys⟩
    rw [hgrown.content]
    exact h.map.mapped k hk'
  directories k hk' := by
    have hd := h.directories k hk'
    change _ ↔ holdings.directories k ∨ hasPrefix key (k ++ "/") = true
    rw [← hd, hasPrefix_slash_iff_keyPath hk hk']
    constructor
    · intro hg
      rcases hgrown (host.location k) with hsame | ⟨⟨p, -, hp, he⟩, -, -⟩
      · exact Or.inl (by rw [← hsame, hg])
      · rw [List.append_cancel_left he]
        exact Or.inr hp
    · rintro (hg | hp)
      · rw [hgrown.get_of_ne_none (by simp [hg]), hg]
      · by_cases he : keyPath k = (keyPath key).dropLast
        · unfold location
          rw [he, hdir]
        · exact htree.tree.above hdir hp he
  unstaged := h.unstaged.grown hfree hgrown

theorem not_under (hk : AcceptedKey key) (htree : host.ObjectTree mid) (hgrown : files.Grown mid (host.Parent key))
    (hdir : mid.get (host.root ++ (keyPath key).dropLast) = some .directory) : ¬ holdings.Under key := by
  rintro ⟨k, hm, hp⟩
  obtain ⟨content, hc⟩ := Option.ne_none_iff_exists'.mp hm
  have hk' := h.map.keys k content hc
  have hg := (h.map.get_file hk').mpr hc
  rw [hasPrefix_slash_iff_keyPath hk hk'] at hp
  have hmid : mid.get (host.location k) = some (.file content) := by rw [hgrown.get_of_ne_none (by simp [hg]), hg]
  unfold location at hmid
  by_cases he : keyPath k = (keyPath key).dropLast
  · rw [he, hdir] at hmid
    cases hmid
  · rw [htree.tree.above hdir hp he] at hmid
    cases hmid

theorem store (hk : AcceptedKey key) (hfree : host.Free key) (htree : host.ObjectTree files')
    (hd : files.get (host.location key) ≠ some .directory) (hnone : files.get (host.stagePath key n) = none)
    (hget : ∀ q, files'.get q = if q = host.location key then some (.file content) else
      if q = host.stagePath key n then none else files.get q) :
    host.Holds files' (holdings.store key (some content)) := by
  have hother : ∀ q, q ≠ host.location key → files'.get q = files.get q := by
    intro q hq
    rw [hget, if_neg hq]
    split
    · rename_i hs
      rw [hs, hnone]
    · rfl
  have hown : files'.get (host.location key) = some (.file content) := by rw [hget, if_pos rfl]
  have hnot : ¬ holdings.directories key := by rwa [← h.directories key hk]
  refine ⟨⟨htree, fun k hk' => ?_, fun k c hc => ?_⟩, fun k hk' => ?_, fun p hp => ?_⟩
  · by_cases he : k = key
    · simp [he, Holdings.store, FileSystem.content, hown]
    · rw [FileSystem.content_congr (hother _ fun hl => he (location_inj hk' hk hl)), h.map.mapped k hk']
      simp [Holdings.store, he]
  · by_cases he : k = key
    · rw [he]
      exact hk
    · simp only [Holdings.store, Function.update_of_ne he] at hc
      exact h.map.keys k c hc
  · by_cases he : k = key
    · rw [he, hown]
      simp [Holdings.store, hnot]
    · rw [hother _ fun hl => he (location_inj hk' hk hl)]
      exact h.directories k hk'
  · rw [hother _ fun hl => ?_]
    · exact h.unstaged p hp
    · rw [List.append_cancel_left hl] at hp
      exact hfree _ (List.prefix_refl _) hp

end Holds

variable {faults : Nat → Faults} {maxRangeBytes : Nat}

/-- A call that stores content, or fails to, does as the holdings say. -/
theorem Holds.storeAt (h : host.Holds files holdings) (hk : AcceptedKey key) (hfree : host.Free key)
    {content : Except (Stop Error) Bytes} {occupied : NativeFailure} {reply : Except (Stop Error) Metadata}
    (hcases : (∃ bytes, content = .ok bytes ∧ reply = .ok { key, size := bytes.length } ∧
        host.PutDone files key bytes files') ∨
      ∃ stop, reply = .error stop ∧ host.PutFailed files key files' ∧
        host.Refused files key content occupied files' stop) :
    reply = (holdings.storeAt key content occupied).1 ∧ host.Holds files' (holdings.storeAt key content occupied).2 := by
  rcases hcases with ⟨bytes, rfl, rfl, htree, mid, n, hmid, hgrown, hdir, hnone, hd, hget⟩ |
    ⟨stop, rfl, hfailed, hwhy⟩
  · have hunder := h.not_under hk hmid hgrown hdir
    have hgrow := h.grow hk hfree hmid hgrown hdir
    have hnot : ¬ holdings.directories key := by
      rw [← h.directories key hk]
      intro hg
      exact hd (by rw [hgrown.get_of_ne_none (by simp [hg]), hg])
    simp only [Holdings.storeAt, hunder, hnot, if_false]
    exact ⟨trivial, hgrow.store hk hfree htree hd hnone hget⟩
  · cases hwhy with
    | beneath p above hp hfile hsame =>
      obtain ⟨k, hk', rfl⟩ := h.map.tree.objects p above hfile
      have hunder : holdings.Under key :=
        ⟨k, by simp [(h.map.get_file hk').mp hfile], (hasPrefix_slash_iff_keyPath hk hk').mpr hp⟩
      simp only [Holdings.storeAt, hunder, if_true, hsame]
      exact ⟨trivial, h⟩
    | content stop hgrown hdir hc =>
      have hunder := h.not_under hk hfailed.tree hgrown hdir
      simp only [Holdings.storeAt, hunder, if_false, hc]
      exact ⟨trivial, h.grow hk hfree hfailed.tree hgrown hdir⟩
    | directory bytes hgrown hdir hc hd =>
      have hunder := h.not_under hk hfailed.tree hgrown hdir
      have hgrow := h.grow hk hfree hfailed.tree hgrown hdir
      -- The key is no part of the way to itself, so the directory was there before.
      have hdirectory : holdings.directories key := by
        rcases (hgrow.directories key hk).mp hd with hdirectory | hself
        · exact hdirectory
        · rw [not_hasPrefix_append_slash] at hself
          cases hself
      simp only [Holdings.storeAt, hunder, if_false, hc, hdirectory, if_true]
      exact ⟨trivial, hgrow⟩

variable (maxRangeBytes) in
/-- A put answers as the holdings say, and leaves a tree that holds what they then are. -/
theorem Holds.putAt {s : StoreDisk} (h : host.Holds s.files holdings) (hk : AcceptedKey key) (hfree : host.Free key)
    (hnever : ∀ n, faults n = .never) (chunks : Chunks) :
    ((host.writableStore faults maxRangeBytes).put s key chunks).1 = (holdings.putAt key chunks).1 ∧
      host.Holds ((host.writableStore faults maxRangeBytes).put s key chunks).2.files
        (holdings.putAt key chunks).2 := by
  rw [holdings.putAt_eq]
  refine h.storeAt hk hfree ?_
  rcases put_cases host faults maxRangeBytes hk chunks s h.map.tree (Or.inr hnever) with
    hdone | ⟨stop, hstop, hfailed, hwhy⟩
  · exact Or.inl hdone
  · exact Or.inr ⟨stop, hstop, hfailed, hwhy hnever h.unstaged hfree⟩

/-! ## Histories -/

end LocalHost

/-! ## One object, and a put beside it -/

end Parquex
