import Parquex.LocalObjects
import Parquex.LocalStoreSound
import Parquex.Regroup

/-!
# Listing a local store

Visiting a directory finds every file beneath it once. So a listing is the sorted
list of the keys beneath a directory, of one key, or of the keys that begin with
a name that is missing; which of them it is depends on what the tree holds at the
prefix.
-/

namespace Parquex

namespace LocalHost

/-! ## Visiting a directory -/

section
variable {files : FileSystem} {listingRoot allowedRoot directory root : Path} {pre : String} {levels : Nat}
  {found : List (Path × Nat)}

theorem mem_visitFile {path : Path} {entry : Path × Nat} (h : visitFile files listingRoot pre path = .ok found)
    (he : entry ∈ found) :
    entry.1 = path ∧ metadataFor files path .list = .ok entry.2 ∧
      hasPrefix (joinSlash (path.drop listingRoot.length)) pre = true := by
  unfold visitFile at h
  split at h
  · rename_i hp
    obtain ⟨size, hsize, rfl⟩ := except_map_eq_ok.mp h
    rw [List.mem_singleton.mp he]
    exact ⟨rfl, hsize, hp⟩
  · cases h
    cases he

theorem visitLink_eq_nil {path : Path} (h : visitLink files allowedRoot path = .ok found) : found = [] := by
  unfold visitLink at h
  cases hc : files.canonicalize path with
  | error kind => rw [hc] at h; cases h
  | ok target =>
    simp only [hc] at h
    split at h
    · exact (Except.ok.inj h).symm
    · cases h

/-- What is found lies beneath the directory, and is a file that the prefix lets through. -/
theorem mem_visitDirectory (h : visitDirectory files listingRoot allowedRoot pre levels directory = .ok found)
    {entry : Path × Nat} (he : entry ∈ found) :
    (∃ name q, entry.1 = directory ++ name :: q) ∧ (∃ content, files.get entry.1 = some (.file content)) ∧
      metadataFor files entry.1 .list = .ok entry.2 ∧
      hasPrefix (joinSlash (entry.1.drop listingRoot.length)) pre = true := by
  induction levels generalizing directory found with
  | zero =>
    cases h
    cases he
  | succ levels ih =>
    unfold visitDirectory at h
    cases hr : files.readDir directory with
    | error kind => rw [hr] at h; cases h
    | ok entries =>
      have hentries : entries = files.children directory := by
        unfold FileSystem.readDir at hr
        split at hr <;> cases hr
        rfl
      rw [hr] at h
      obtain ⟨visited, hvisited, rfl⟩ := except_map_eq_ok.mp h
      obtain ⟨l, hl, he⟩ := List.mem_flatten.mp he
      obtain ⟨⟨name, kind⟩, hmem, hvisit⟩ := exists_of_forall₂_right (mapM_eq_ok.mp hvisited) hl
      have hget := FileSystem.mem_children.mp (hentries ▸ hmem)
      cases kind with
      | file content =>
        obtain ⟨hpath, hsize, hp⟩ := mem_visitFile hvisit he
        rw [hpath]
        exact ⟨⟨name, [], rfl⟩, ⟨content, hget⟩, hsize, hp⟩
      | directory =>
        obtain ⟨⟨next, q, hq⟩, hrest⟩ := ih hvisit he
        exact ⟨⟨name, next :: q, by rw [hq, List.append_assoc]; rfl⟩, hrest⟩
      | symlink absolute target =>
        rw [visitLink_eq_nil hvisit] at he
        cases he

variable (directory) in
/-- The finds of the names in a directory are apart, as the names are. -/
theorem nodup_flatten_found {entries : List (String × Entry)} {visited : List (List (Path × Nat))}
    (h : List.Forall₂ (fun entry found => (found.map Prod.fst).Nodup ∧
      ∀ e ∈ found, ∃ q, e.1 = directory ++ entry.1 :: q) entries visited)
    (hnodup : (entries.map Prod.fst).Nodup) : (visited.flatten.map Prod.fst).Nodup := by
  induction h with
  | nil => exact List.nodup_nil
  | cons hhead htail ih =>
    rw [List.map_cons, List.nodup_cons] at hnodup
    rw [List.flatten_cons, List.map_append, List.nodup_append]
    refine ⟨hhead.1, ih hnodup.2, ?_⟩
    rintro path hp path' hp' rfl
    obtain ⟨e, he, rfl⟩ := List.mem_map.mp hp
    obtain ⟨e', he', heq⟩ := List.mem_map.mp hp'
    obtain ⟨l, hl, he'⟩ := List.mem_flatten.mp he'
    obtain ⟨entry, hentry, -, hbeneath⟩ := exists_of_forall₂_right htail hl
    obtain ⟨q, hq⟩ := hhead.2 e he
    obtain ⟨q', hq'⟩ := hbeneath e' he'
    rw [heq, hq] at hq'
    have hname := (List.cons.inj (List.append_cancel_left hq')).1
    exact hnodup.1 (by rw [hname]; exact List.mem_map_of_mem hentry)

/-- What the visit of one name in a directory finds: every file there that the prefix lets through, once. -/
def Finds (files : FileSystem) (listingRoot : Path) (pre : String) (path : Path) (found : List (Path × Nat)) : Prop :=
  (found.map Prod.fst).Nodup ∧ (∀ e ∈ found, ∃ q, e.1 = path ++ q) ∧
    ∀ q content, files.get (path ++ q) = some (.file content) →
      hasPrefix (joinSlash ((path ++ q).drop listingRoot.length)) pre = true → path ++ q ∈ found.map Prod.fst

theorem visitFile_ok {path : Path} {content : Bytes} (hg : files.get path = some (.file content))
    (hc : files.canonicalize path = .ok path) (hbelow : ∀ name q, files.get (path ++ name :: q) = none) :
    ∃ found, visitFile files listingRoot pre path = .ok found ∧ Finds files listingRoot pre path found := by
  have hsize : metadataFor files path .list = .ok content.length := by
    unfold metadataFor
    rw [hc]
    simp only [hg]
  have hq : ∀ q c, files.get (path ++ q) = some (.file c) → q = [] := by
    intro q c hq
    cases q with
    | nil => rfl
    | cons name q => rw [hbelow] at hq; cases hq
  unfold visitFile Finds
  by_cases hp : hasPrefix (joinSlash (path.drop listingRoot.length)) pre = true
  · rw [if_pos hp, hsize]
    refine ⟨_, rfl, by simp, by simp, ?_⟩
    intro q c hg' _
    simp [hq q c hg']
  · rw [if_neg hp]
    refine ⟨_, rfl, by simp, by simp, ?_⟩
    intro q c hg' hp'
    rw [hq q c hg', List.append_nil] at hp'
    exact absurd hp' hp

/-- Every file beneath a directory is found, once. -/
theorem visitDirectory_ok (h : files.Tree root)
    (hplain : ∀ p content, files.get (root ++ p) = some (.file content) → FileSystem.Plain p) {d : Path}
    (hd : files.get (root ++ d) = some .directory) (hlevels : files.depth < levels + (root ++ d).length) :
    ∃ found, visitDirectory files listingRoot allowedRoot pre levels (root ++ d) = .ok found ∧
      Finds files listingRoot pre (root ++ d) found := by
  induction levels generalizing d with
  | zero =>
    have := FileSystem.length_le_depth hd
    omega
  | succ levels ih =>
    have hassoc : ∀ name q, root ++ d ++ name :: q = root ++ (d ++ [name]) ++ q := by simp
    have hentry : ∀ entry ∈ files.children (root ++ d), ∃ found,
        visitEntry files listingRoot allowedRoot pre
          (visitDirectory files listingRoot allowedRoot pre levels) (root ++ d) entry = .ok found ∧
        Finds files listingRoot pre (root ++ (d ++ [entry.1])) found := by
      rintro ⟨name, entry⟩ hmem
      have hg := FileSystem.mem_children.mp hmem
      rw [hassoc, List.append_nil] at hg
      unfold visitEntry
      rw [hassoc, List.append_nil]
      cases entry with
      | file content =>
        refine visitFile_ok hg (h.canonicalize_of_get (hplain _ _ hg) hg) ?_
        intro next q
        rw [Option.eq_none_iff_forall_ne_some]
        intro e he
        rw [List.append_assoc] at he
        rw [h.above he (List.prefix_append _ _) (by simp)] at hg
        cases hg
      | directory => exact ih hg (by simp only [List.length_append, List.length_singleton] at hlevels ⊢; omega)
      | symlink absolute target => exact absurd hg (h.links _ _ _)
    obtain ⟨visited, hvisited⟩ := exists_forall₂ hentry
    refine ⟨visited.flatten, ?_, ?_, ?_, ?_⟩
    · unfold visitDirectory FileSystem.readDir
      rw [hd]
      exact except_map_eq_ok.mpr ⟨visited, mapM_eq_ok.mpr (hvisited.imp fun _ _ hv => hv.1), rfl⟩
    · refine nodup_flatten_found (root ++ d) (hvisited.imp fun entry found hv => ⟨hv.2.1, ?_⟩)
        FileSystem.nodup_children
      intro e he
      obtain ⟨q, hq⟩ := hv.2.2.1 e he
      exact ⟨q, by rw [hq, hassoc]⟩
    · intro e he
      obtain ⟨l, hl, he⟩ := List.mem_flatten.mp he
      obtain ⟨entry, -, hv⟩ := exists_of_forall₂_right hvisited hl
      obtain ⟨q, hq⟩ := hv.2.2.1 e he
      exact ⟨entry.1 :: q, by rw [hq, hassoc]⟩
    · intro q content hg hp
      cases q with
      | nil =>
        rw [List.append_nil, hd] at hg
        cases hg
      | cons name q =>
        have hchild : ∃ entry, (name, entry) ∈ files.children (root ++ d) := by
          cases q with
          | nil => exact ⟨_, FileSystem.mem_children.mpr hg⟩
          | cons next q =>
            rw [hassoc, List.append_assoc] at hg
            have habove := h.above hg (List.prefix_append _ _) (by simp)
            exact ⟨.directory, FileSystem.mem_children.mpr (by rw [List.append_assoc]; exact habove)⟩
        obtain ⟨entry, hmem⟩ := hchild
        obtain ⟨l, hl, hv⟩ := exists_of_forall₂_left hvisited hmem
        rw [hassoc] at hg hp ⊢
        obtain ⟨e, he, hpath⟩ := List.mem_map.mp (hv.2.2.2 q content hg hp)
        exact List.mem_map.mpr ⟨e, List.mem_flatten.mpr ⟨l, hl, he⟩, hpath⟩

end

/-! ## Trees of objects -/

instance : Std.Total PathLe := ⟨fun _ _ => le_total _ _⟩

instance : IsTrans (Path × Nat) PathLe := ⟨fun _ _ _ => le_trans⟩

section
variable (host : LocalHost) (files : FileSystem)

/-- The store holds files under keys, and directories. -/
structure ObjectTree : Prop where
  tree : files.Tree host.root
  objects : ∀ p content, files.get (host.root ++ p) = some (.file content) → ∃ key, AcceptedKey key ∧ p = keyPath key

/-- The store has an object under the key. -/
def HasObject (key : String) : Prop := AcceptedKey key ∧ ∃ content, files.get (host.location key) = some (.file content)

/-- Entries for the keys of a set, each once in ascending order, with the sizes of the objects. -/
structure Lists (keys : String → Prop) (entries : List ObjectMetadata) : Prop where
  keys : ∀ key, key ∈ entries.map ObjectMetadata.path ↔ keys key
  ascending : (entries.map ObjectMetadata.path).Pairwise (· < ·)
  sizes : ∀ entry ∈ entries, (files.content (host.location entry.path)).map List.length = some entry.size

end

section
variable {host : LocalHost} {files : FileSystem} {key : String} {p d : Path} {pre : String} {entry : Entry}
  {operation : Operation}

theorem metadataFor_of_get {path : Path} {content : Bytes} (hc : files.canonicalize path = .ok path)
    (hg : files.get path = some (.file content)) : metadataFor files path operation = .ok content.length := by
  unfold metadataFor
  rw [hc]
  simp only [hg]

/-- An entry is a directory, or a file under a key. -/
def fits (path : Path) : Entry → Bool
  | .file _ => decide (AcceptedKey (joinSlash path) ∧ keyPath (joinSlash path) = path)
  | .directory => true
  | .symlink .. => false

/-- The entries of a store at the root of the file system show whether it is a tree of objects. -/
theorem objectTree_of_fits (hroot : host.root = [])
    (h : files.entries.entries.all (fun e => files.get e.1.dropLast == some .directory && fits e.1 e.2) = true) :
    host.ObjectTree files := by
  have hfits : ∀ p entry, p ≠ [] → files.get p = some entry → files.get p.dropLast = some .directory ∧
      fits p entry = true := by
    intro p entry hp hg
    have := List.all_eq_true.mp h _ ((FileSystem.get_eq_some_of_ne hp).mp hg)
    simpa using this
  have hfile : ∀ p content, files.get p = some (.file content) →
      AcceptedKey (joinSlash p) ∧ keyPath (joinSlash p) = p := by
    intro p content hg
    have hp : p ≠ [] := FileSystem.ne_nil_of_get (by rw [hg]; simp)
    simpa [fits] using (hfits p _ hp hg).2
  refine ⟨⟨by rw [hroot]; exact FileSystem.walked_nil, ?_, ?_⟩, ?_⟩
  · intro p absolute target hg
    rw [hroot, List.nil_append] at hg
    have hp : p ≠ [] := FileSystem.ne_nil_of_get (by rw [hg]; simp)
    have := (hfits p _ hp hg).2
    cases this
  · intro p name entry hg
    rw [hroot, List.nil_append] at hg ⊢
    have := (hfits _ _ (by simp) hg).1
    rwa [List.dropLast_concat] at this
  · intro p content hg
    rw [hroot, List.nil_append] at hg
    exact ⟨joinSlash p, (hfile p content hg).1, (hfile p content hg).2.symm⟩

namespace ObjectTree

variable (h : host.ObjectTree files)
include h

theorem plain {content : Bytes} (hg : files.get (host.root ++ p) = some (.file content)) : FileSystem.Plain p := by
  obtain ⟨key, hk, rfl⟩ := h.objects p content hg
  exact hk.plain

theorem enforceAllowedRoot : host.enforceAllowedRoot files (host.root ++ p) operation = .ok () := by
  unfold LocalHost.enforceAllowedRoot
  rw [h.tree.walked.canonicalize_self]
  simp [List.isPrefixOf_iff_prefix]

theorem resolveExisting_of_get (hp : FileSystem.Plain p) (hg : files.get (host.root ++ p) = some entry) :
    host.resolveExisting files (host.root ++ p) operation = .ok (host.root ++ p) := by
  unfold resolveExisting
  rw [h.tree.canonicalize_of_get hp hg]
  simp only [h.enforceAllowedRoot]
  rfl

/-- Listing a directory finds the files beneath it whose paths within it begin with the prefix. -/
theorem listDirectory_ok (hp : FileSystem.Plain d) (hd : files.get (host.root ++ d) = some .directory)
    (hpre : validatePrefix pre = .ok ()) :
    ∃ found, host.listDirectory files (host.root ++ d) pre = .ok found ∧ found.Pairwise PathLe ∧
      (found.map Prod.fst).Nodup ∧
      (∀ e ∈ found, ∃ key content, AcceptedKey key ∧ e.1 = host.location key ∧
        files.get e.1 = some (.file content) ∧ e.2 = content.length) ∧
      ∀ key, AcceptedKey key → (host.location key ∈ found.map Prod.fst ↔
        (∃ content, files.get (host.location key) = some (.file content)) ∧
          ∃ q, splitSlash key = d ++ q ∧ q ≠ [] ∧ hasPrefix (joinSlash q) pre = true) := by
  obtain ⟨found, hvisit, hnodup, -, hall⟩ : ∃ found,
      visitDirectory files (host.root ++ d) host.root pre (files.depth + 1) (host.root ++ d) = .ok found ∧
        Finds files (host.root ++ d) pre (host.root ++ d) found :=
    visitDirectory_ok h.tree (fun _ _ => h.plain) hd (by omega)
  have hfound : host.listDirectory files (host.root ++ d) pre = .ok (found.insertionSort PathLe) := by
    unfold listDirectory
    rw [hpre, h.resolveExisting_of_get hp hd]
    simp only [bind, Except.bind]
    rw [(h.tree.isDir_iff hp).mpr hd, h.tree.walked.canonicalize_self]
    simp only [hvisit]
    rfl
  have hmem : ∀ e, e ∈ found.insertionSort PathLe ↔ e ∈ found := fun e => List.mem_insertionSort _
  refine ⟨_, hfound, List.pairwise_insertionSort _ _, ?_, ?_, ?_⟩
  · exact ((List.perm_insertionSort PathLe found).map Prod.fst).nodup_iff.mpr hnodup
  · intro e he
    obtain ⟨⟨name, q, hq⟩, ⟨content, hg⟩, hsize, -⟩ := mem_visitDirectory hvisit ((hmem e).mp he)
    have hpath : e.1 = host.root ++ (d ++ name :: q) := by rw [hq, List.append_assoc]
    have hg' := hg
    rw [hpath] at hg'
    obtain ⟨key, hk, hkey⟩ := h.objects _ _ hg'
    refine ⟨key, content, hk, by rw [hpath, hkey]; rfl, hg, ?_⟩
    have hc := h.tree.canonicalize_of_get (h.plain hg') hg'
    rw [← hpath] at hc
    rw [metadataFor_of_get hc hg] at hsize
    exact (Except.ok.inj hsize).symm
  · intro key hk
    have hloc : host.location key = host.root ++ splitSlash key := by unfold location; rw [hk.keyPath_eq]
    constructor
    · intro hm
      obtain ⟨e, he, hpath⟩ := List.mem_map.mp hm
      obtain ⟨⟨name, q, hq⟩, hfile, -, hp⟩ := mem_visitDirectory hvisit ((hmem e).mp he)
      rw [hpath] at hfile
      refine ⟨hfile, name :: q, ?_, by simp, ?_⟩
      · rw [hpath, hloc, List.append_assoc] at hq
        exact List.append_cancel_left hq
      · rw [hq, List.drop_left] at hp
        exact hp
    · rintro ⟨⟨content, hg⟩, q, hq, -, hp⟩
      rw [hloc, hq, ← List.append_assoc] at hg ⊢
      have hin := hall q content hg (by rw [List.drop_left]; exact hp)
      obtain ⟨e, he, hpath⟩ := List.mem_map.mp hin
      exact List.mem_map.mpr ⟨e, (hmem e).mpr he, hpath⟩

end ObjectTree

/-! ## The keys of a listing -/

theorem joinSlash_le_of_append (root : Path) {p q : Path} (hp : p ≠ []) (hq : q ≠ [])
    (h : joinSlash (root ++ p) ≤ joinSlash (root ++ q)) : joinSlash p ≤ joinSlash q := by
  by_cases hroot : root = []
  · rw [hroot] at h
    exact h
  · rw [joinSlash_append _ _ hroot hp, joinSlash_append _ _ hroot hq] at h
    exact le_of_append_le h

/-- The object of a file that a listing has found. -/
def found (host : LocalHost) (e : Path × Nat) : ObjectMetadata :=
  { path := joinSlash (e.1.drop host.root.length), size := e.2 }

theorem found_location (hk : AcceptedKey key) {e : Path × Nat} (he : e.1 = host.location key) :
    (host.found e).path = key := by
  unfold found
  rw [he]
  unfold location
  rw [List.drop_left, hk.joinSlash_keyPath]

theorem localMetadata_found {e : Path × Nat} (he : e.1 = host.location key) :
    host.localMetadata e.1 e.2 = .ok (host.found e) := by
  unfold found
  rw [he, localMetadata_location]
  unfold location
  rw [List.drop_left]

theorem mapM_localMetadata {l : List (Path × Nat)} (h : ∀ e ∈ l, ∃ key, AcceptedKey key ∧ e.1 = host.location key) :
    l.mapM (fun e => host.localMetadata e.1 e.2) = .ok (l.map host.found) := by
  refine mapM_eq_ok.mpr ?_
  rw [List.forall₂_map_right_iff, List.forall₂_same]
  intro e he
  obtain ⟨key, -, hpath⟩ := h e he
  exact localMetadata_found hpath

/-- A sorted list of the files under a set of keys lists that set. -/
theorem lists_found {l : List (Path × Nat)} {keys : String → Prop} (hsorted : l.Pairwise PathLe)
    (hnodup : (l.map Prod.fst).Nodup)
    (hfiles : ∀ e ∈ l, ∃ key content, AcceptedKey key ∧ e.1 = host.location key ∧
      files.get e.1 = some (.file content) ∧ e.2 = content.length)
    (haccepted : ∀ key, keys key → AcceptedKey key)
    (hkeys : ∀ key, AcceptedKey key → (host.location key ∈ l.map Prod.fst ↔ keys key)) :
    l.mapM (fun e => host.localMetadata e.1 e.2) = .ok (l.map host.found) ∧
      host.Lists files keys (l.map host.found) := by
  refine ⟨?_, ?_, ?_, ?_⟩
  · refine mapM_localMetadata fun e he => ?_
    obtain ⟨key, -, hk, hpath, -⟩ := hfiles e he
    exact ⟨key, hk, hpath⟩
  · intro key
    rw [List.map_map, List.mem_map]
    constructor
    · rintro ⟨e, he, rfl⟩
      obtain ⟨key, content, hk, hpath, -⟩ := hfiles e he
      rw [Function.comp_apply, found_location hk hpath]
      exact (hkeys key hk).mp (List.mem_map.mpr ⟨e, he, hpath⟩)
    · intro hkey
      have hk := haccepted key hkey
      obtain ⟨e, he, hpath⟩ := List.mem_map.mp ((hkeys key hk).mpr hkey)
      exact ⟨e, he, found_location hk hpath⟩
  · rw [List.map_map, List.pairwise_map]
    have hne : l.Pairwise fun e e' => e.1 ≠ e'.1 := List.pairwise_map.mp hnodup
    refine (hsorted.and hne).imp_of_mem ?_
    rintro e e' he he' ⟨hle, hne⟩
    obtain ⟨key, _, hk, hpath, -⟩ := hfiles e he
    obtain ⟨key', _, hk', hpath', -⟩ := hfiles e' he'
    rw [Function.comp_apply, Function.comp_apply, found_location hk hpath, found_location hk' hpath']
    refine lt_of_le_of_ne ?_ fun heq => hne (by rw [hpath, hpath', heq])
    unfold PathLe at hle
    rw [hpath, hpath'] at hle
    have := joinSlash_le_of_append host.root hk.keyPath_ne_nil hk'.keyPath_ne_nil hle
    rw [hk.joinSlash_keyPath, hk'.joinSlash_keyPath] at this
    exact this
  · intro entry hentry
    obtain ⟨e, he, rfl⟩ := List.mem_map.mp hentry
    obtain ⟨key, content, hk, hpath, hg, hsize⟩ := hfiles e he
    rw [found_location hk hpath, ← hpath]
    unfold FileSystem.content
    rw [hg]
    exact congrArg some hsize.symm

/-! ## What a listing returns -/

section
variable (host : LocalHost) (files : FileSystem) (pre key : String)

/-- An object of which the prefix would be a part. -/
def UnderObject : Prop := ∃ key, host.HasObject files key ∧ hasPrefix pre (key ++ "/") = true

/-- The keys that a listing returns: at and beneath the prefix, or with that text when nothing is there. -/
def Listed : Prop :=
  host.HasObject files key ∧
    (pre = "" ∨ key = pre ∨ hasPrefix key (pre ++ "/") = true ∨
      (files.get (host.location pre) = none ∧ hasPrefix key pre = true))

end

namespace ObjectTree

variable (h : host.ObjectTree files)
include h

theorem directory_lists {keys : String → Prop} (hp : FileSystem.Plain d)
    (hd : files.get (host.root ++ d) = some .directory) (hpre : validatePrefix pre = .ok ())
    (hkeys : ∀ key, keys key ↔ host.HasObject files key ∧
      ∃ q, splitSlash key = d ++ q ∧ q ≠ [] ∧ hasPrefix (joinSlash q) pre = true) :
    ∃ found entries, host.listDirectory files (host.root ++ d) pre = .ok found ∧
      found.mapM (fun e => host.localMetadata e.1 e.2) = .ok entries ∧ host.Lists files keys entries := by
  obtain ⟨found, hfound, hsorted, hnodup, hfiles, hmem⟩ := h.listDirectory_ok hp hd hpre
  obtain ⟨hmap, hlists⟩ := lists_found hsorted hnodup hfiles (fun key hkey => ((hkeys key).mp hkey).1.1)
    fun key hk => ⟨fun hm => (hkeys key).mpr ⟨⟨hk, ((hmem key hk).mp hm).1⟩, ((hmem key hk).mp hm).2⟩,
      fun hkey => (hmem key hk).mpr ⟨((hkeys key).mp hkey).1.2, ((hkeys key).mp hkey).2⟩⟩
  exact ⟨found, _, hfound, hmap, hlists⟩

theorem storeList_empty :
    ∃ entries, host.storeList files "" = .ok entries ∧ host.Lists files (host.Listed files "") entries := by
  have hroot : files.get (host.root ++ []) = some .directory := by rw [List.append_nil]; exact h.tree.get_root
  have hkeys : ∀ key, host.Listed files "" key ↔ host.HasObject files key ∧
      ∃ q, splitSlash key = [] ++ q ∧ q ≠ [] ∧ hasPrefix (joinSlash q) "" = true := fun key =>
    and_congr_right fun _ => ⟨fun _ => ⟨_, rfl, splitSlash_ne_nil key, rfl⟩, fun _ => Or.inl rfl⟩
  have hplain : FileSystem.Plain [] := fun name hn => by cases hn
  obtain ⟨found, entries, hfound, hentries, hlists⟩ := h.directory_lists hplain hroot (by decide) hkeys
  refine ⟨entries, ?_, hlists⟩
  have hloc : host.location "" = host.root ++ [] := rfl
  unfold storeList localList
  rw [if_pos rfl, hloc, hfound]
  exact hentries

omit h in
/-- A file on the way stops the listing. -/
theorem storeList_stopped (hk : AcceptedKey pre)
    (hc : files.canonicalize (host.location pre) = .error .notADirectory) :
    host.storeList files pre = .error (.fromIo .storeList .notADirectory) := by
  unfold storeList localList
  rw [hk.validateKey, if_neg (acceptedKey_iff.mp hk).1, FileSystem.metadata_of_canonicalize_error hc]
  rfl

omit h in
/-- Of a directory, what lies beneath it is listed. -/
theorem listed_directory_iff (hk : AcceptedKey pre) (hd : files.get (host.location pre) = some .directory)
    (key : String) : host.Listed files pre key ↔ host.HasObject files key ∧
      ∃ q, splitSlash key = keyPath pre ++ q ∧ q ≠ [] ∧ hasPrefix (joinSlash q) "" = true := by
  refine and_congr_right fun hpub => ?_
  rw [hk.keyPath_eq]
  constructor
  · rintro (hempty | rfl | hbeneath | ⟨hnone, -⟩)
    · exact absurd hempty (acceptedKey_iff.mp hk).1
    · obtain ⟨-, content, hg⟩ := hpub
      rw [hd] at hg
      cases hg
    · obtain ⟨q, hq, hs⟩ := hasPrefix_slash_iff.mp hbeneath
      exact ⟨q, hs, hq, rfl⟩
    · rw [hd] at hnone
      cases hnone
  · rintro ⟨q, hs, hq, -⟩
    exact Or.inr (Or.inr (Or.inl (hasPrefix_slash_iff.mpr ⟨q, hq, hs⟩)))

theorem storeList_directory (hk : AcceptedKey pre) (hd : files.get (host.location pre) = some .directory) :
    ∃ entries, host.storeList files pre = .ok entries ∧ host.Lists files (host.Listed files pre) entries := by
  have hkeys := listed_directory_iff hk hd
  obtain ⟨found, entries, hfound, hentries, hlists⟩ := h.directory_lists hk.plain hd (by decide) hkeys
  refine ⟨entries, ?_, hlists⟩
  unfold storeList localList
  have hmeta : files.metadata (host.location pre) = .ok .directory := h.tree.metadata_of_get hk.plain hd
  rw [hk.validateKey, if_neg (acceptedKey_iff.mp hk).1, hmeta]
  have hfound' : host.listDirectory files (host.location pre) "" = .ok found := hfound
  simp only [hfound']
  exact hentries

/-- Of an object, itself is listed. -/
theorem listed_file_iff {content : Bytes} (hk : AcceptedKey pre)
    (hf : files.get (host.location pre) = some (.file content)) (key : String) :
    host.Listed files pre key ↔ key = pre := by
  constructor
  · rintro ⟨⟨hkey, content', hg⟩, hempty | rfl | hbeneath | ⟨hnone, -⟩⟩
    · exact absurd hempty (acceptedKey_iff.mp hk).1
    · rfl
    · obtain ⟨q, hq, hs⟩ := hasPrefix_slash_iff.mp hbeneath
      unfold location at hg hf
      rw [hkey.keyPath_eq, hs] at hg
      rw [hk.keyPath_eq, h.tree.above hg (List.prefix_append _ _) (by simpa using hq.symm)] at hf
      cases hf
    · rw [hf] at hnone
      cases hnone
  · rintro rfl
    exact ⟨⟨hk, content, hf⟩, Or.inr (Or.inl rfl)⟩

theorem storeList_file {content : Bytes} (hk : AcceptedKey pre)
    (hf : files.get (host.location pre) = some (.file content)) :
    ∃ entries, host.storeList files pre = .ok entries ∧ host.Lists files (host.Listed files pre) entries := by
  have hkeys := h.listed_file_iff hk hf
  have hresolve : host.resolveExisting files (host.location pre) .head = .ok (host.location pre) :=
    h.resolveExisting_of_get hk.plain hf
  have hmeta : files.metadata (host.location pre) = .ok (.file content) := h.tree.metadata_of_get hk.plain hf
  have hsize : metadataFor files (host.location pre) .head = .ok content.length :=
    metadataFor_of_get (h.tree.canonicalize_of_get hk.plain hf) hf
  refine ⟨[{ path := pre, size := content.length }], ?_, ?_, ?_, ?_⟩
  · unfold storeList localList headObject
    rw [hk.validateKey, if_neg (acceptedKey_iff.mp hk).1, hmeta, hresolve]
    simp only [bind, Except.bind, hsize, pure, Except.pure, List.mapM_cons, List.mapM_nil, localMetadata_location,
      hk.joinSlash_keyPath]
  · intro key
    rw [hkeys]
    simp
  · exact List.pairwise_singleton _ _
  · intro entry hentry
    rw [List.mem_singleton.mp hentry]
    unfold FileSystem.content
    simp only [hf, Option.map_some]

omit h in
theorem validatePrefix_segment {name : String} (hk : AcceptedKey pre) (hs : name ∈ splitSlash pre) :
    validatePrefix name = .ok () := by
  obtain ⟨h₁, h₂, h₃⟩ := hk.segment_ne hs
  have hfree := slashFree_of_mem_splitSlash hs
  have hsplit : splitSlash name = [name] := by
    have := splitSlash_joinSlash (l := [name]) (by simp) (by simpa using hfree)
    rw [joinSlash_singleton] at this
    exact this
  have hslash : hasPrefix name "/" = false := by
    rw [Bool.eq_false_iff, ne_eq, hasPrefix_iff]
    rintro ⟨cs, hcs⟩
    exact hfree (by rw [← hcs]; simp)
  unfold validatePrefix components
  rw [if_pos]
  refine ⟨by rw [hslash]; rfl, ?_⟩
  rw [hslash, hsplit, if_neg (by simp), if_neg (by simpa using h₂)]
  simp [segmentComponent, h₁, h₂, h₃, Component.name?]

omit h in
theorem splitSlash_dropLast {name : String} (hk : AcceptedKey pre) (hname : (keyPath pre).getLast? = some name) :
    splitSlash pre = (keyPath pre).dropLast ++ [name] := by
  rw [← hk.keyPath_eq]
  exact (List.dropLast_append_getLast? name hname).symm

omit h in
/-- Where nothing is, the keys with that text are listed. -/
theorem listed_missing_iff {name : String} (hk : AcceptedKey pre) (hname : (keyPath pre).getLast? = some name)
    (hn : files.get (host.location pre) = none) (key : String) : host.Listed files pre key ↔ host.HasObject files key ∧
      ∃ q, splitSlash key = (keyPath pre).dropLast ++ q ∧ q ≠ [] ∧ hasPrefix (joinSlash q) name = true := by
  refine and_congr_right fun hpub => ?_
  rw [← hasPrefix_iff_last (splitSlash_dropLast hk hname)]
  constructor
  · rintro (hempty | rfl | hbeneath | ⟨-, hp⟩)
    · exact absurd hempty (acceptedKey_iff.mp hk).1
    · exact hasPrefix_iff.mpr (List.prefix_refl _)
    · exact hasPrefix_trans hbeneath (hasPrefix_iff_append.mpr ⟨_, rfl⟩)
    · exact hp
  · intro hp
    exact Or.inr (Or.inr (Or.inr ⟨hn, hp⟩))

omit h in
theorem exists_last (hk : AcceptedKey pre) : ∃ name, (keyPath pre).getLast? = some name := by
  rw [← Option.isSome_iff_exists, List.getLast?_isSome]
  exact hk.keyPath_ne_nil

theorem storeList_missing (hk : AcceptedKey pre) (hn : files.get (host.location pre) = none)
    (hc : files.canonicalize (host.location pre) = .error .notFound) :
    ∃ entries, host.storeList files pre = .ok entries ∧ host.Lists files (host.Listed files pre) entries := by
  obtain ⟨name, hname⟩ := exists_last hk
  have hlast := splitSlash_dropLast hk hname
  have hkeys := listed_missing_iff hk hname hn
  have hplain : FileSystem.Plain (keyPath pre).dropLast := FileSystem.plain_dropLast hk.plain
  have hparent : (host.location pre).dropLast = host.root ++ (keyPath pre).dropLast :=
    List.dropLast_append_of_ne_nil hk.keyPath_ne_nil
  have hstore : host.storeList files pre =
      (if files.isDir (host.root ++ (keyPath pre).dropLast) then
        host.listDirectory files (host.root ++ (keyPath pre).dropLast) name else .ok []) >>= fun found =>
      found.mapM fun e => host.localMetadata e.1 e.2 := by
    unfold storeList localList
    rw [hk.validateKey, if_neg (acceptedKey_iff.mp hk).1, FileSystem.metadata_of_canonicalize_error hc, ← hparent]
    simp only [hname]
    rfl
  rw [hstore]
  by_cases hd : files.get (host.root ++ (keyPath pre).dropLast) = some .directory
  · rw [if_pos ((h.tree.isDir_iff hplain).mpr hd)]
    obtain ⟨found, entries, hfound, hentries, hlists⟩ :=
      h.directory_lists hplain hd (validatePrefix_segment hk (by rw [hlast]; simp)) hkeys
    refine ⟨entries, ?_, hlists⟩
    rw [hfound]
    exact hentries
  · rw [if_neg fun hdir => hd ((h.tree.isDir_iff hplain).mp hdir)]
    refine ⟨[], rfl, ?_, List.Pairwise.nil, by simp⟩
    intro key
    rw [hkeys]
    simp only [List.map_nil, List.not_mem_nil, false_iff, not_and]
    rintro ⟨hkey, content, hg⟩ ⟨q, hs, hq, -⟩
    unfold location at hg
    rw [hkey.keyPath_eq, hs] at hg
    exact hd (h.tree.above hg (List.prefix_append _ _) (by simpa using hq.symm))

/-- What the tree holds at a key: an object, a directory, nothing, or nothing as an object lies above it. -/
theorem at_cases (hk : AcceptedKey key) :
    (¬ host.UnderObject files key ∧ ((∃ content, files.get (host.location key) = some (.file content)) ∨
      files.get (host.location key) = some .directory ∨
      (files.get (host.location key) = none ∧ files.canonicalize (host.location key) = .error .notFound))) ∨
    (host.UnderObject files key ∧ files.get (host.location key) = none ∧
      files.canonicalize (host.location key) = .error .notADirectory) := by
  have habove : ∀ k, AcceptedKey k →
      (hasPrefix key (k ++ "/") = true ↔ keyPath k <+: keyPath key ∧ keyPath k ≠ keyPath key) := by
    intro k hk'
    rw [hasPrefix_slash_iff, hk.keyPath_eq, hk'.keyPath_eq]
    constructor
    · rintro ⟨q, hq, hs⟩
      rw [hs]
      exact ⟨List.prefix_append _ _, by simpa using hq.symm⟩
    · rintro ⟨⟨q, hs⟩, hne⟩
      refine ⟨q, ?_, hs.symm⟩
      rintro rfl
      exact hne (by rw [← hs, List.append_nil])
  rcases h.tree.canonicalize_cases hk.plain with ⟨entry, hg, -⟩ | ⟨hg, hfile, hc⟩ | ⟨q, content, hq, hne, hg, hc⟩
  · refine Or.inl ⟨?_, ?_⟩
    · rintro ⟨k, ⟨hk', content, hf⟩, hp⟩
      obtain ⟨hbegins, hne⟩ := (habove k hk').mp hp
      unfold location at hf
      rw [h.tree.above hg hbegins hne] at hf
      cases hf
    · cases entry with
      | file content => exact Or.inl ⟨content, hg⟩
      | directory => exact Or.inr (Or.inl hg)
      | symlink absolute target => exact absurd hg (h.tree.links _ _ _)
  · refine Or.inl ⟨?_, Or.inr (Or.inr ⟨hg, hc⟩)⟩
    rintro ⟨k, ⟨hk', content, hf⟩, hp⟩
    exact hfile _ content ((habove k hk').mp hp).1 hf
  · obtain ⟨k, hk', rfl⟩ := h.objects q content hg
    refine Or.inr ⟨⟨k, ⟨hk', content, hg⟩, (habove k hk').mpr ⟨hq, hne⟩⟩, ?_, hc⟩
    cases hget : files.get (host.location key) with
    | none => rfl
    | some entry =>
      rw [h.tree.above hget hq hne] at hg
      cases hg

/-- A listing returns its keys, unless an object lies above the prefix. -/
theorem storeList_cases (hk : AcceptedKey pre) :
    (host.UnderObject files pre ∧ host.storeList files pre = .error (.fromIo .storeList .notADirectory)) ∨
      (¬ host.UnderObject files pre ∧
        ∃ entries, host.storeList files pre = .ok entries ∧ host.Lists files (host.Listed files pre) entries) := by
  rcases h.at_cases hk with ⟨hstop, ⟨content, hg⟩ | hg | ⟨hg, hc⟩⟩ | ⟨hunder, -, hc⟩
  · exact Or.inr ⟨hstop, h.storeList_file hk hg⟩
  · exact Or.inr ⟨hstop, h.storeList_directory hk hg⟩
  · exact Or.inr ⟨hstop, h.storeList_missing hk hg hc⟩
  · exact Or.inl ⟨hunder, storeList_stopped hk hc⟩

end ObjectTree

end

end LocalHost

end Parquex
