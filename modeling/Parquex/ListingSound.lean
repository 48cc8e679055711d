import Parquex.Listing
import Parquex.LocalObjectsSound

/-!
# Listings alone

A listing during which no other task takes a step returns what the tree holds. It
ends whenever it is left alone.
-/

namespace Parquex

namespace FileSystem

variable {fs : FileSystem} {p : Path}

theorem isDir_canonical (hc : fs.canonicalize p = .ok p) : fs.isDir p = true ↔ fs.get p = some .directory := by
  unfold isDir metadata
  rw [hc]
  simp only
  cases fs.get p with
  | none => simp
  | some entry => simp

end FileSystem

/-! ## A listing alone -/

namespace LocalHost

/-- Where the listing comes with some more calls, while no other task makes one. -/
def Advances (host : LocalHost) (files : FileSystem) (phase phase' : ListPhase) : Prop :=
  ∃ n, (host.advanceList files)^[n] phase = phase'

section
variable {host : LocalHost} {files : FileSystem} {root allowedRoot d : Path} {pre : String}
  {left : List (Path × FileType)} {found : List (Path × Nat)} {phase phase' : ListPhase}

theorem advances_refl : host.Advances files phase phase := ⟨0, rfl⟩

theorem Advances.trans {phase'' : ListPhase} (h : host.Advances files phase phase')
    (h' : host.Advances files phase' phase'') : host.Advances files phase phase'' := by
  obtain ⟨n, rfl⟩ := h
  obtain ⟨m, rfl⟩ := h'
  exact ⟨m + n, Function.iterate_add_apply _ _ _ _⟩

theorem advances_next (h : host.Advances files (host.advanceList files phase) phase') :
    host.Advances files phase phase' := by
  obtain ⟨n, hn⟩ := h
  exact ⟨n + 1, by rw [Function.iterate_succ_apply]; exact hn⟩

/-- The visits of some names are one visit after the other. -/
theorem visitEntries_advances {visit : Path → Except NativeFailure (List (Path × Nat))}
    {entries : List (String × Entry)}
    (hvisit : ∀ entry ∈ entries, ∀ left found,
      host.Advances files (.walk root allowedRoot pre ((d ++ [entry.1], entry.2.fileType) :: left) found)
        (host.proceed root allowedRoot pre left found (visitEntry files root allowedRoot pre visit d entry)))
    (left : List (Path × FileType)) (found : List (Path × Nat)) :
    host.Advances files
      (.walk root allowedRoot pre (entries.map (fun entry => (d ++ [entry.1], entry.2.fileType)) ++ left) found)
      (host.proceed root allowedRoot pre left found
        (entries.mapM (visitEntry files root allowedRoot pre visit d) >>= fun visited => pure visited.flatten)) := by
  induction entries generalizing found with
  | nil =>
    rw [List.mapM_nil]
    change host.Advances files _ (.walk root allowedRoot pre left (found ++ []))
    rw [List.append_nil]
    exact advances_refl
  | cons entry entries ih =>
    refine Advances.trans (hvisit entry (by simp) _ found) ?_
    rw [List.mapM_cons]
    cases visitEntry files root allowedRoot pre visit d entry with
    | error failure => exact advances_refl
    | ok more =>
      have hrest := ih (fun e he => hvisit e (by simp [he])) (found ++ more)
      refine hrest.trans ?_
      cases entries.mapM (visitEntry files root allowedRoot pre visit d) with
      | error failure => exact advances_refl
      | ok visited =>
        change host.Advances files (.walk _ _ _ _ (found ++ more ++ visited.flatten))
          (.walk _ _ _ _ (found ++ (more ++ visited.flatten)))
        rw [List.append_assoc]
        exact advances_refl

theorem visitDirectory_advances {levels : Nat} (hd : files.get d = some .directory)
    (hlevels : files.depth < levels + d.length) (left : List (Path × FileType)) (found : List (Path × Nat)) :
    host.Advances files (.walk root allowedRoot pre ((d, .directory) :: left) found)
      (host.proceed root allowedRoot pre left found (visitDirectory files root allowedRoot pre levels d)) := by
  induction levels generalizing d left found with
  | zero =>
    have := FileSystem.length_le_depth hd
    omega
  | succ levels ih =>
    have hread : files.readDir d = .ok (files.children d) := by
      unfold FileSystem.readDir
      rw [hd]
    apply advances_next
    unfold advanceList
    simp only [visitNext, visitDirectory, hread]
    refine visitEntries_advances (fun entry hentry left found => ?_) left found
    obtain ⟨name, entry⟩ := entry
    have hg := FileSystem.mem_children.mp hentry
    cases entry with
    | file content => exact advances_next advances_refl
    | directory => exact ih hg (by simp only [List.length_append, List.length_singleton]; omega) left found
    | symlink absolute target => exact advances_next advances_refl

theorem listDirectory_advances (path : Path) (pre : String) :
    host.Advances files (host.beginDirectory path pre) (host.finishList (host.listDirectory files path pre)) := by
  unfold beginDirectory listDirectory
  cases validatePrefix pre with
  | error failure => exact advances_refl
  | ok =>
    apply advances_next
    unfold advanceList
    simp only [bind, Except.bind]
    cases hr : host.resolveExisting files path .list with
    | error failure => exact advances_refl
    | ok root =>
      apply advances_next
      unfold advanceList
      simp only
      cases hdir : files.isDir root with
      | false => exact advances_refl
      | true =>
        apply advances_next
        unfold advanceList
        simp only [Bool.not_true, Bool.false_eq_true, if_false]
        cases files.canonicalize host.root with
        | error kind => exact advances_refl
        | ok allowedRoot =>
          have hd : files.get root = some .directory :=
            (FileSystem.isDir_canonical (FileSystem.canonicalize_canonical (resolveExisting_eq_ok.mp hr).1)).mp hdir
          have hvisit : host.Advances files _
              (host.proceed root allowedRoot pre [] []
                (visitDirectory files root allowedRoot pre (files.depth + 1) root)) :=
            visitDirectory_advances hd (by omega) [] []
          refine hvisit.trans ?_
          simp only
          cases visitDirectory files root allowedRoot pre (files.depth + 1) root with
          | error failure => exact advances_refl
          | ok entries => exact advances_next advances_refl

theorem localList_advances (hk : AcceptedKey pre) :
    host.Advances files (.lookup pre) (host.finishList (host.localList files pre)) := by
  apply advances_next
  unfold localList
  rw [if_neg (acceptedKey_iff.mp hk).1]
  unfold advanceList
  simp only
  cases files.metadata (host.location pre) with
  | ok entry =>
    cases entry with
    | directory => exact listDirectory_advances _ _
    | file content =>
      apply advances_next
      unfold advanceList
      simp only [headObject, bind, Except.bind]
      cases host.resolveExisting files (host.location pre) .head with
      | error failure => exact advances_refl
      | ok path =>
        apply advances_next
        unfold advanceList
        simp only
        cases metadataFor files path .head <;> exact advances_refl
    | symlink absolute target => exact advances_refl
  | error kind =>
    cases kind with
    | notFound =>
      simp only
      cases (keyPath pre).getLast? with
      | none => exact advances_refl
      | some name =>
        apply advances_next
        unfold advanceList
        simp only
        split
        · exact listDirectory_advances _ _
        · exact advances_refl
    | _ => exact advances_refl

/-- A listing during which no other task takes a step is the listing of the files as they are. -/
theorem beginList_advances (host : LocalHost) (files : FileSystem) (maxRangeBytes : Nat) (text : String) :
    host.Advances files (host.beginList text) (.done ((host.store maxRangeBytes).list files text)) := by
  unfold beginList
  cases hn : normalizeListPrefix text with
  | error error =>
    have hlist : (host.store maxRangeBytes).list files text = .error error := by
      unfold Store.list
      rw [hn]
      rfl
    rw [hlist]
    exact advances_refl
  | ok pre =>
    have hlist : ListPhase.done ((host.store maxRangeBytes).list files text) =
        host.finishList (validateKey pre true >>= fun _ => host.localList files pre) := by
      rw [store_list hn]
      unfold storeList finishList
      cases validateKey pre true <;> rfl
    rw [hlist]
    simp only
    cases hv : validateKey pre true with
    | error failure => exact advances_refl
    | ok =>
      simp only
      change host.Advances files _ (host.finishList (host.localList files pre))
      split
      · rename_i he
        have hroot : host.localList files pre = host.listDirectory files (host.location "") "" := by
          unfold localList
          rw [if_pos he]
        rw [hroot]
        exact listDirectory_advances _ _
      · rename_i he
        rcases normalizeListPrefix_cases hn with ⟨-, rfl⟩ | ⟨hk, -, -⟩
        · exact absurd rfl he
        · exact localList_advances hk

/-! ## The end of a listing -/

end

end LocalHost

end Parquex
