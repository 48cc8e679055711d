import Parquex.LocalObjectsSound
import Parquex.RemoteObjectsSound

/-!
# Agreement of the backends

A local store and a remote store that hold one map, asked the same. They answer
alike except where a path of the local tree is more than a key, where a range
leaves its object, and where the service is asked for nothing.
-/

namespace Parquex

def Stop.category : Stop Error → Option Category
  | .error reported => some reported.category
  | .raised => none

/-- The tree of a local store holds a map from keys to contents. -/
structure LocalHost.HoldsMap (host : LocalHost) (files : FileSystem) (objects : String → Option Bytes) : Prop where
  tree : host.ObjectTree files
  mapped : ∀ key, AcceptedKey key → files.content (host.location key) = objects key
  keys : ∀ key content, objects key = some content → AcceptedKey key

section
variable {α : Type} {left right : Except NativeFailure α}

end

/-! ## What the backends answer alike -/

section
variable {σ : Type} (host : LocalHost) (files : FileSystem) (remote : RemoteStore σ) (choices : ServiceChoices)
  (objects : String → Option Bytes) (key pre : String)

/-- Nothing is at the path, and no file above it. -/
def LocalHost.Missing : Prop := files.get (host.location key) = none ∧ ¬ host.UnderObject files key

end

/-! ## What is at a key -/

section
variable {σ : Type} {host : LocalHost} {files : FileSystem} {remote : RemoteStore σ} {choices : ServiceChoices}
  {objects : String → Option Bytes} {key : String} {contents : σ → String → Option Bytes} {state : σ}
  {maxRangeBytes : Nat}

namespace LocalHost.HoldsMap

variable (hl : host.HoldsMap files objects) (hk : AcceptedKey key)
include hl hk

theorem get_file {content : Bytes} :
    files.get (host.location key) = some (.file content) ↔ objects key = some content := by
  rw [← hl.mapped key hk]
  unfold FileSystem.content
  cases hg : files.get (host.location key) with
  | none => simp
  | some entry => cases entry <;> simp

/-- An object, a directory, nothing, or nothing beneath a file. -/
theorem at_cases :
    (∃ content, files.get (host.location key) = some (.file content) ∧ objects key = some content ∧
      ¬ host.UnderObject files key) ∨
    (files.get (host.location key) = some .directory ∧ objects key = none ∧ ¬ host.UnderObject files key) ∨
    (host.Missing files key ∧ objects key = none ∧ files.canonicalize (host.location key) = .error .notFound) ∨
    (files.get (host.location key) = none ∧ objects key = none ∧ host.UnderObject files key ∧
      files.canonicalize (host.location key) = .error .notADirectory) := by
  have hobjects : (∀ content, files.get (host.location key) ≠ some (.file content)) → objects key = none := by
    intro hfile
    rw [Option.eq_none_iff_forall_not_mem]
    exact fun content hc => hfile content ((hl.get_file hk).mpr hc)
  rcases hl.tree.at_cases hk with ⟨hstop, ⟨content, hg⟩ | hd | ⟨hn, hc⟩⟩ | ⟨hunder, hn, hc⟩
  · exact Or.inl ⟨content, hg, (hl.get_file hk).mp hg, hstop⟩
  · exact Or.inr (Or.inl ⟨hd, hobjects (by simp [hd]), hstop⟩)
  · exact Or.inr (Or.inr (Or.inl ⟨⟨hn, hstop⟩, hobjects (by simp [hn]), hc⟩))
  · exact Or.inr (Or.inr (Or.inr ⟨hn, hobjects (by simp [hn]), hunder, hc⟩))

end LocalHost.HoldsMap

/-! ## The calls -/

section
variable (hl : host.HoldsMap files objects) (hr : remote.service.Rules contents choices)
  (h : remote.HoldsMap contents state objects) (hk : AcceptedKey key)
include hl hr h hk

end

/-! ## The map after a deletion -/

theorem LocalHost.HoldsMap.removeFile {files' : FileSystem} (hl : host.HoldsMap files objects) (hk : AcceptedKey key)
    (hr : files.removeFile (host.location key) = .ok files') :
    host.HoldsMap files' (Function.update objects key none) where
  tree := hl.tree.removeFile hr
  mapped k hk' := by
    rw [FileSystem.content_removeFile hr]
    by_cases he : k = key
    · rw [he, if_pos rfl, Function.update_self]
    · rw [if_neg fun hloc => he (LocalHost.location_inj hk' hk hloc), Function.update_of_ne he, hl.mapped k hk']
  keys k content hm := by
    by_cases he : k = key
    · rw [he, Function.update_self] at hm
      cases hm
    · rw [Function.update_of_ne he] at hm
      exact hl.keys k content hm

theorem RemoteStore.HoldsMap.removed {state' : σ} (h : remote.HoldsMap contents state objects)
    (hs : contents state' = Function.update (contents state) (pathOf remote.base key) none) :
    remote.HoldsMap contents state' (Function.update objects key none) where
  base := h.base
  mapped k hk hc := by
    rw [hs]
    by_cases he : k = key
    · rw [he, Function.update_self, Function.update_self]
    · rw [Function.update_of_ne fun hp => he (pathOf_inj hp), Function.update_of_ne he, h.mapped k hk hc]
  paths path content hm hbelow := by
    rw [hs] at hm
    by_cases he : path = pathOf remote.base key
    · rw [he, Function.update_self] at hm
      cases hm
    · rw [Function.update_of_ne he] at hm
      exact h.paths path content hm hbelow
  bare hne := by
    rw [hs]
    by_cases he : remote.base = pathOf remote.base key
    · rw [Function.update_apply, if_pos he]
    · rw [Function.update_of_ne he, h.bare hne]
  keys k content hm := by
    by_cases he : k = key
    · rw [he, Function.update_self] at hm
      cases hm
    · rw [Function.update_of_ne he] at hm
      exact h.keys k content hm

/-- The deletion of an object leaves both stores with the map without its key. -/
theorem delete_holdsMap (hl : host.HoldsMap files objects) (hr : remote.service.Rules contents choices)
    (h : remote.HoldsMap contents state objects) {content : Bytes} (hm : objects key = some content) :
    ∃ files' state', (host.store maxRangeBytes).delete files key = .ok files' ∧
      (remote.store maxRangeBytes).delete state key = .ok state' ∧
      host.HoldsMap files' (Function.update objects key none) ∧
      remote.HoldsMap contents state' (Function.update objects key none) := by
  obtain ⟨hk, hc⟩ := h.keys key content hm
  have hcontent : contents state (pathOf remote.base key) = some content := by rw [h.mapped key hk hc, hm]
  obtain ⟨state', hdelete, hstate⟩ := hr.delete state _ content hcontent
  have hremove : files.removeFile (host.location key) = .ok (files.unset (host.location key)) :=
    FileSystem.removeFile_of_content ((hl.mapped key hk).trans hm)
  refine ⟨_, state', ?_, ?_, hl.removeFile hk hremove, h.removed hstate⟩
  · rw [Store.delete_eq hk]
    exact congrArg Store.nativeResult (hl.tree.storeDelete_file hk ((hl.get_file hk).mpr hm))
  · rw [Store.delete_eq hk]
    change Store.nativeResult (remote.storeDelete state key) = _
    rw [RemoteStore.storeDelete_eq hr h hk hc, hdelete]
    rfl

/-! ## Listings -/

/-- A listing of a local store, by the map that the tree holds. -/
theorem LocalHost.HoldsMap.listsKeys {pre : String} {entries : List ObjectMetadata} (hl : host.HoldsMap files objects)
    (h : host.Lists files (host.Listed files pre) entries) :
    ListsKeys objects (fun key => pre = "" ∨ key = pre ∨ hasPrefix key (pre ++ "/") = true ∨
      (files.get (host.location pre) = none ∧ hasPrefix key pre = true)) entries := by
  have hsize : ∀ entry ∈ entries, (objects entry.path).map List.length = some entry.size := by
    intro entry he
    have hlisted := (h.keys entry.path).mp (List.mem_map_of_mem he)
    rw [← hl.mapped entry.path hlisted.1.1]
    exact h.sizes entry he
  refine ⟨fun entry => ⟨fun he => ⟨?_, hsize entry he⟩, ?_⟩, h.ascending⟩
  · exact ((h.keys entry.path).mp (List.mem_map_of_mem he)).2
  · rintro ⟨hkeys, hm⟩
    obtain ⟨content, hcontent, -⟩ := Option.map_eq_some_iff.mp hm
    have hk := hl.keys _ _ hcontent
    have hpub : host.HasObject files entry.path := ⟨hk, content, (hl.get_file hk).mpr hcontent⟩
    obtain ⟨found, hfound, hpath⟩ := List.mem_map.mp ((h.keys entry.path).mpr ⟨hpub, hkeys⟩)
    have hsizes := hsize found hfound
    rw [hpath, hm] at hsizes
    have heq : found = entry := by
      cases found
      cases entry
      cases hpath
      cases hsizes
      rfl
    rw [← heq]
    exact hfound

theorem not_underObject_empty : ¬ host.UnderObject files "" := by
  rintro ⟨key, -, hp⟩
  have := (hasPrefix_iff.mp hp).length_le
  simp at this

end

/-! ## A service in memory -/

instance (self : Bool) (path : String) (pre : Option String) : Decidable (InPrefix self path pre) :=
  match pre with
  | none => isTrue trivial
  | some pre => inferInstanceAs (Decidable (hasPrefix path (pre ++ "/") = true ∨ (self = true ∧ path = pre)))

abbrev Memory := AList fun _ : String => Bytes

def memoryService : ObjectService Memory where
  parse s := if hasControl s then none else some s
  head state path := (state.lookup path).elim (.error .notFound) fun content => .ok content.length
  getRange state path start stop := (state.lookup path).elim (.error .notFound) fun content =>
    if start < content.length then .ok ((content.drop start).take (stop - start)) else .error .other
  list state pre := .ok ((state.entries.filter fun e => InPrefix false e.1 pre).map fun e => (e.1, e.2.length))
  delete state path := .ok (state.erase path)

def memoryChoices : ServiceChoices := { beyond := .other, deleteMissing := .ok (), listsSelf := false }

theorem memoryService_rules :
    memoryService.Rules (fun state : Memory => fun path => state.lookup path) memoryChoices where
  parse _ _ := rfl
  head state path content hm := by simp [memoryService, hm]
  headMissing state path hm := by simp [memoryService, hm]
  getRange state path content start stop hm hlt _ := by simp [memoryService, hm, hlt]
  getRangeBeyond state path content start stop hm hle _ := by simp [memoryService, hm, memoryChoices, hle]
  getRangeMissing state path start stop hm _ := by simp [memoryService, hm]
  list state pre := by
    refine ⟨_, rfl, ?_, fun path size => ?_⟩
    · rw [List.map_map]
      exact state.nodupKeys.sublist List.filter_sublist
    · rw [List.mem_map]
      constructor
      · rintro ⟨⟨p, content⟩, he, heq⟩
        obtain ⟨hmem, hin⟩ := List.mem_filter.mp he
        cases heq
        exact ⟨of_decide_eq_true hin, by rw [Option.mem_def.mp (AList.mem_lookup_iff.mpr hmem)]; rfl⟩
      · rintro ⟨hin, hsize⟩
        obtain ⟨content, hcontent, hlength⟩ := Option.map_eq_some_iff.mp hsize
        refine ⟨⟨path, content⟩, List.mem_filter.mpr ⟨AList.mem_lookup_iff.mp hcontent, decide_eq_true hin⟩, ?_⟩
        rw [hlength]
  delete state path content _ := by
    refine ⟨_, rfl, funext fun k => ?_⟩
    by_cases hk : k = path
    · rw [hk, Function.update_self, AList.lookup_erase]
    · rw [Function.update_of_ne hk, AList.lookup_erase_ne hk]
  deleteMissing state path hm := by
    refine ⟨rfl, fun state' hd => ?_⟩
    cases hd
    funext k
    by_cases hk : k = path
    · rw [hk, hm, AList.lookup_erase]
    · rw [AList.lookup_erase_ne hk]

/-! ## One object in both -/

def oneHost : LocalHost := { root := [], pid := 1, windows := false }

def oneFile : FileSystem := FileSystem.set ⟨∅⟩ ["a"] (.file [1, 2])

end Parquex
