import Parquex.LocalListExact

/-!
# Single objects of a local store

What the calls on one key answer, by what the tree holds at its path: a file, a
directory, nothing, or a file somewhere above it.
-/

namespace Parquex

namespace LocalHost.ObjectTree

variable {host : LocalHost} {files : FileSystem} {key : String} {content : Bytes} (h : host.ObjectTree files)
  (hk : AcceptedKey key)
include h hk

/-! ## An object -/

section
variable (hg : files.get (host.location key) = some (.file content))
include hg

theorem storeHead_file : host.storeHead files key = .ok { path := key, size := content.length } := by
  have hresolve : host.resolveExisting files (host.location key) .head = .ok (host.location key) :=
    h.resolveExisting_of_get hk.plain hg
  have hsize : metadataFor files (host.location key) .head = .ok content.length :=
    metadataFor_of_get (h.tree.canonicalize_of_get hk.plain hg) hg
  unfold storeHead headObject
  rw [hk.validateKey, hresolve]
  simp only [bind, Except.bind, hsize, pure, Except.pure, localMetadata_location, hk.joinSlash_keyPath]

theorem storeReadRange_file (offset length : Nat) :
    host.storeReadRange files key offset length = readFile content offset length := by
  have hresolve : host.resolveExisting files (host.location key) .readRange = .ok (host.location key) :=
    h.resolveExisting_of_get hk.plain hg
  have hmeta : files.metadata (host.location key) = .ok (.file content) := h.tree.metadata_of_get hk.plain hg
  unfold storeReadRange readObject
  rw [hk.validateKey, hresolve]
  simp only [bind, Except.bind, hmeta]

theorem storeDelete_file : host.storeDelete files key = .ok (files.unset (host.location key)) := by
  have hresolve : host.resolveExisting files (host.location key) .delete = .ok (host.location key) :=
    h.resolveExisting_of_get hk.plain hg
  have hcontent : files.content (host.location key) = some content := by
    unfold FileSystem.content
    rw [hg]
  unfold storeDelete deleteObject
  rw [hk.validateKey, hresolve]
  simp only [bind, Except.bind, FileSystem.removeFile_of_content hcontent]

end

/-! ## A directory -/

section
variable (hd : files.get (host.location key) = some .directory)
include hd

theorem storeHead_directory :
    host.storeHead files key = .error (.invalid .head "object operation requires a regular file") := by
  have hresolve : host.resolveExisting files (host.location key) .head = .ok (host.location key) :=
    h.resolveExisting_of_get hk.plain hd
  have hc : files.canonicalize (host.location key) = .ok (host.location key) := h.tree.canonicalize_of_get hk.plain hd
  unfold storeHead headObject metadataFor
  rw [hk.validateKey, hresolve]
  simp only [bind, Except.bind, hc, hd]

theorem storeReadRange_directory (offset length : Nat) :
    host.storeReadRange files key offset length =
      .error (.invalid .readRange "range reads require a regular file") := by
  have hresolve : host.resolveExisting files (host.location key) .readRange = .ok (host.location key) :=
    h.resolveExisting_of_get hk.plain hd
  have hmeta : files.metadata (host.location key) = .ok .directory := h.tree.metadata_of_get hk.plain hd
  unfold storeReadRange readObject
  rw [hk.validateKey, hresolve]
  simp only [bind, Except.bind, hmeta]

theorem storeDelete_directory : host.storeDelete files key = .error (.fromIo .delete .isADirectory) := by
  have hresolve : host.resolveExisting files (host.location key) .delete = .ok (host.location key) :=
    h.resolveExisting_of_get hk.plain hd
  unfold storeDelete deleteObject FileSystem.removeFile
  rw [hk.validateKey, hresolve]
  simp only [bind, Except.bind, hd]

end

/-! ## Nothing -/

section
variable {kind : IoErrorKind} (hc : files.canonicalize (host.location key) = .error kind)
include hc

omit h in
theorem storeHead_missing : host.storeHead files key = .error (.fromIo .head kind) := by
  unfold storeHead headObject resolveExisting
  rw [hk.validateKey, hc]
  rfl

omit h in
theorem storeReadRange_missing (offset length : Nat) :
    host.storeReadRange files key offset length = .error (.fromIo .readRange kind) := by
  unfold storeReadRange readObject resolveExisting
  rw [hk.validateKey, hc]
  rfl

omit h in
theorem storeDelete_missing : host.storeDelete files key = .error (.fromIo .delete kind) := by
  unfold storeDelete deleteObject resolveExisting
  rw [hk.validateKey, hc]
  rfl

end

end LocalHost.ObjectTree

/-! ## System calls on a tree of objects -/

namespace LocalHost.ObjectTree

variable {host : LocalHost} {key : String} {files files' : FileSystem} {path : Path} {operation : Operation}
  (h : host.ObjectTree files)
include h

theorem createDir (hc : files.createDir path = .ok files') : host.ObjectTree files' := by
  refine ⟨h.tree.create hc (fun _ _ he => by cases he), fun p content hg => ?_⟩
  rw [FileSystem.get_create hc] at hg
  split at hg
  · cases hg
  · exact h.objects p content hg

theorem createNew (hk : AcceptedKey key) (hc : files.createNew (host.location key) = .ok files') :
    host.ObjectTree files' := by
  refine ⟨h.tree.create hc (fun _ _ he => by cases he), fun p content hg => ?_⟩
  rw [FileSystem.get_create hc] at hg
  split at hg
  · rename_i hp
    exact ⟨key, hk, List.append_cancel_left hp⟩
  · exact h.objects p content hg

theorem append (bytes : Bytes) : host.ObjectTree (files.append path bytes) := by
  refine ⟨h.tree.append bytes, fun p content hg => ?_⟩
  have hc : (files.append path bytes).content (host.root ++ p) = some content := by
    unfold FileSystem.content
    rw [hg]
  rw [FileSystem.content_append] at hc
  have hold : files.content (host.root ++ p) ≠ none := by
    intro hn
    rw [hn] at hc
    split at hc
    · rename_i hp
      rw [← hp, hn] at hc
      cases hc
    · cases hc
  unfold FileSystem.content at hold
  split at hold
  · rename_i old ho
    exact h.objects p old ho
  · exact absurd rfl hold

theorem removeFile (hr : files.removeFile path = .ok files') : host.ObjectTree files' := by
  refine ⟨h.tree.removeFile hr, fun p content hg => ?_⟩
  rw [FileSystem.get_removeFile hr] at hg
  split at hg
  · cases hg
  · exact h.objects p content hg

theorem rename {source : String} (hk : AcceptedKey key)
    (hr : files.rename (host.location source) (host.location key) = .ok files') : host.ObjectTree files' := by
  refine ⟨h.tree.rename hr, fun p content hg => ?_⟩
  rw [FileSystem.get_rename hr] at hg
  split at hg
  · rename_i hp
    exact ⟨key, hk, List.append_cancel_left hp⟩
  · split at hg
    · cases hg
    · exact h.objects p content hg

theorem canonicalize_eq {p q : Path} (hp : FileSystem.Plain p) (hc : files.canonicalize (host.root ++ p) = .ok q) :
    q = host.root ++ p := by
  rcases h.tree.canonicalize_cases hp with ⟨_, -, hok⟩ | ⟨-, -, herror⟩ | ⟨_, _, -, -, -, herror⟩
  · rw [hok] at hc
    exact (Except.ok.inj hc).symm
  · rw [herror] at hc
    cases hc
  · rw [herror] at hc
    cases hc

theorem resolveExisting_eq (hk : AcceptedKey key)
    (hr : host.resolveExisting files (host.location key) operation = .ok path) : path = host.location key :=
  h.canonicalize_eq hk.plain (resolveExisting_eq_ok.mp hr).1

theorem resolveDestination_eq (hk : AcceptedKey key)
    (hr : host.resolveDestination files (host.location key) operation = .ok path) : path = host.location key := by
  obtain ⟨parent, name, hn, hc, rfl, -⟩ := resolveDestination_eq_ok.mp hr
  have hdrop : (host.location key).dropLast = host.root ++ (keyPath key).dropLast :=
    List.dropLast_append_of_ne_nil hk.keyPath_ne_nil
  rw [hdrop] at hc
  rw [h.canonicalize_eq (FileSystem.plain_dropLast hk.plain) hc, ← hdrop]
  exact List.dropLast_append_getLast? name hn

end LocalHost.ObjectTree

end Parquex
