import Parquex.Links
import Parquex.ListingSound
import Parquex.Visibility

/-!
# Listing beside writers

A listing that runs between the steps of writers fails when a file that it has seen
goes before it is measured. Otherwise it returns every key that holds an object all
the while.
-/

namespace Parquex

/-! ## What a task does to the files -/

section
variable {host : LocalHost} {files : FileSystem} {stageSequence : Nat} {fault : Option Fault}

end

namespace FileSystem

variable {fs fs' : FileSystem} {p : Path}

def IsFile (fs : FileSystem) (p : Path) : Prop := ∃ content, fs.get p = some (.file content)

/-- Directories stay, and files too but for the one that is taken away. -/
structure Keeps (taken : Option Path) (fs fs' : FileSystem) : Prop where
  directories : ∀ p, fs.get p = some .directory → fs'.get p = some .directory
  files : ∀ p, taken ≠ some p → fs.IsFile p → fs'.IsFile p

end FileSystem

namespace LocalHost.ObjectTree

variable {host : LocalHost} {files : FileSystem} {path root allowedRoot d : Path} {pre key name : String}
  {left : List (Path × FileType)} {found : List (Path × Nat)} (h : host.ObjectTree files)
include h

section
variable (hp : FileSystem.Plain d)
include hp

variable (hd : files.get (host.root ++ d) = some .directory)
include hd

end

end LocalHost.ObjectTree

/-! ## What a listing holds to -/

/-- The path lies beneath the directory, and its path there begins with the prefix. -/
def Within (directory : Path) (pre : String) (path : Path) : Prop :=
  ∃ q, path = directory ++ q ∧ q ≠ [] ∧ hasPrefix (joinSlash q) pre = true

namespace ListPhase

variable (host : LocalHost) (asked : String) (files : FileSystem) (key : String)

/-- A name that was read from a directory is still what it was, if anyone will ask. -/
def Seen (root : Path) (pre : String) : Path × FileType → Prop
  | (path, .directory) => files.get path = some .directory
  | (path, .file) => hasPrefix (joinSlash (path.drop root.length)) pre = true → files.IsFile path
  | (_, .symlink) => False

/-- The listing has met no obstacle, and stands before none. -/
def Sound : ListPhase → Prop
  | .lookup pre => pre = asked ∧ AcceptedKey pre
  | .parent path name => (∃ d, path = host.root ++ d ∧ FileSystem.Plain d) ∧ LocalHost.validatePrefix name = .ok ()
  | .headResolve path => ∃ key, AcceptedKey key ∧ path = host.location key ∧ files.IsFile path
  | .headMetadata path => ∃ key, AcceptedKey key ∧ path = host.location key ∧ files.IsFile path
  | .resolve path _ => ∃ d, path = host.root ++ d ∧ FileSystem.Plain d ∧ files.get path = some .directory
  | .rootType path _ => ∃ d, path = host.root ++ d ∧ FileSystem.Plain d ∧ files.get path = some .directory
  | .allowedRoot path _ => ∃ d, path = host.root ++ d ∧ FileSystem.Plain d ∧ files.get path = some .directory
  | .walk root _ pre left found =>
    (∀ e ∈ left, (∃ d, e.1 = host.root ++ d) ∧ Seen files root pre e) ∧
      ∀ e ∈ found, ∃ key, AcceptedKey key ∧ e.1 = host.location key
  | .done result => ∃ entries, result = .ok entries

/-- The key is found, or it will be. -/
def Tracks : ListPhase → Prop
  | .lookup _ => True
  | .parent path name => Within path name (host.location key)
  | .headResolve path => path = host.location key
  | .headMetadata path => path = host.location key
  | .resolve path pre => Within path pre (host.location key)
  | .rootType root pre => Within root pre (host.location key)
  | .allowedRoot root pre => Within root pre (host.location key)
  | .walk root _ pre left found =>
    Within root pre (host.location key) ∧
      (host.location key ∈ found.map Prod.fst ∨ (host.location key, .file) ∈ left ∨
        ∃ d, (d, .directory) ∈ left ∧ d <+: host.location key ∧ d ≠ host.location key)
  | .done result => ∀ entries, result = .ok entries → key ∈ entries.map Metadata.key

end ListPhase

namespace ListPhase

section
variable {host : LocalHost} {asked : String} {files files' : FileSystem} {key : String} {phase : ListPhase}

end

end ListPhase

/-! ## Runs -/

/-- What a task takes away lies under a key. -/
theorem Task.Sound.takes {host : LocalHost} {key : String} {task : Task} {action : Action} {fault : Option Fault}
    {path : Path} (h : task.Sound host key) (ht : task.takes fault action = some path) :
    ∃ p, path = host.root ++ p := by
  have hstage : ∀ {w : LocalWriter} {phase : WriterPhase}, w.Sound host key phase →
      ∃ p, w.stagePath = host.root ++ p := by
    intro w phase hw
    obtain ⟨k, -, hk⟩ := hw.stagePath
    exact ⟨keyPath k, hk⟩
  have hpath : ∀ {call : SystemCall} {p : Path}, unlessFailing fault call p = some path → path = p := by
    intro call p hp
    unfold unlessFailing at hp
    split at hp
    · cases hp
      rfl
    · cases hp
  cases task with
  | writer w phase =>
    cases action with
    | advance =>
      cases phase with
      | replacing size =>
        rw [hpath ht]
        exact ⟨keyPath key, h.destination⟩
      | moving size =>
        rw [hpath ht]
        exact hstage h
      | cleaning failure =>
        rw [hpath ht]
        exact hstage h
      | removing =>
        rw [hpath ht]
        exact hstage h
      | _ => cases ht
    | _ => cases phase <;> cases ht
  | deleting phase =>
    cases phase with
    | resolve key => cases action <;> cases ht
    | remove p =>
      cases action with
      | advance =>
        rw [hpath ht]
        exact ⟨keyPath key, h.2⟩
      | _ => cases ht
  | _ => cases action <;> cases ht

namespace Listing

section
variable {host : LocalHost} {initial : FileSystem} {stageSequence : Nat} {events : List StoreEvent}

end

section
variable {host : LocalHost} {initial : FileSystem} {stageSequence : Nat} {text pre key : String}
  {before : List StoreEvent} {during : List ListEvent} (hn : normalizeListPrefix text = .ok pre)
include hn

theorem beginList_phase : (pre = "" ∧ host.beginList text = .resolve (host.location "") "") ∨
    (AcceptedKey pre ∧ host.beginList text = .lookup pre) := by
  unfold LocalHost.beginList
  rw [hn]
  rcases normalizeListPrefix_cases hn with ⟨-, rfl⟩ | ⟨hk, -, -⟩
  · exact Or.inl ⟨rfl, rfl⟩
  · simp only [hk.validateKey]
    rw [if_neg (acceptedKey_iff.mp hk).1]
    exact Or.inr ⟨hk, rfl⟩

theorem start_sound {state : LocalState} (htree : host.ObjectTree state.files) :
    (start host state text).phase.Sound host pre state.files ∧
      ∀ key, host.Listed state.files pre key → (start host state text).phase.Tracks host key := by
  have hloc : host.location "" = host.root ++ [] := rfl
  unfold start
  rcases beginList_phase hn with ⟨-, he⟩ | ⟨hk, he⟩
  · rw [he]
    refine ⟨⟨[], hloc, fun name hm => (by cases hm), ?_⟩, fun key hlisted => ?_⟩
    · rw [hloc, List.append_nil]
      exact htree.tree.get_root
    · refine ⟨keyPath key, ?_, hlisted.1.1.keyPath_ne_nil, rfl⟩
      rw [hloc, List.append_nil]
      rfl
  · rw [he]
    exact ⟨⟨rfl, hk⟩, fun key hlisted => trivial⟩

end

section
variable {host : LocalHost} {s : Listing} {pre : String} {during : List ListEvent}

end

end Listing

end Parquex
