import Mathlib.Data.List.AList

/-!
# A file system

Files, directories and symbolic links under the paths that name them. Each
operation is one system call: it fails as the call does, or changes the tree at
the paths it names and nowhere else.
-/

namespace Parquex

abbrev Bytes := List UInt8

/-- The names from the root of the file system down. -/
abbrev Path := List String

inductive Entry
  | file (content : Bytes)
  | directory
  | symlink (absolute : Bool) (target : Path)
  deriving DecidableEq, Repr

inductive IoErrorKind
  | notFound | permissionDenied | alreadyExists | invalidInput | invalidData | timedOut | unsupported
  | notADirectory | isADirectory | filesystemLoop | other
  deriving DecidableEq, Repr

structure FileSystem where
  entries : AList fun _ : Path => Entry

namespace FileSystem

def get (fs : FileSystem) (p : Path) : Option Entry :=
  if p = [] then some .directory else fs.entries.lookup p

def content (fs : FileSystem) (p : Path) : Option Bytes :=
  match fs.get p with
  | some (.file content) => some content
  | _ => none

def set (fs : FileSystem) (p : Path) (entry : Entry) : FileSystem := ⟨fs.entries.insert p entry⟩

def unset (fs : FileSystem) (p : Path) : FileSystem := ⟨fs.entries.erase p⟩

theorem get_set {fs : FileSystem} {p : Path} (hp : p ≠ []) (entry : Entry) (q : Path) :
    (fs.set p entry).get q = if q = p then some entry else fs.get q := by
  unfold get set
  by_cases hq : q = p
  · rw [if_pos hq, hq, if_neg hp, AList.lookup_insert]
  · rw [if_neg hq, AList.lookup_insert_ne hq]

theorem get_unset {fs : FileSystem} {p : Path} (hp : p ≠ []) (q : Path) :
    (fs.unset p).get q = if q = p then none else fs.get q := by
  unfold get unset
  by_cases hq : q = p
  · rw [if_pos hq, hq, if_neg hp, AList.lookup_erase]
  · rw [if_neg hq, AList.lookup_erase_ne hq]

/-! ## System calls -/

/-- The directory that is to hold a path. -/
def requireParent (fs : FileSystem) (p : Path) : Except IoErrorKind Unit :=
  match fs.get p.dropLast with
  | some .directory => .ok ()
  | some _ => .error .notADirectory
  | none => .error .notFound

/-- Put an entry where there is none. -/
def create (fs : FileSystem) (p : Path) (entry : Entry) : Except IoErrorKind FileSystem := do
  fs.requireParent p
  if (fs.get p).isSome then throw .alreadyExists
  return fs.set p entry

def createNew (fs : FileSystem) (p : Path) : Except IoErrorKind FileSystem := fs.create p (.file [])

def createDir (fs : FileSystem) (p : Path) : Except IoErrorKind FileSystem := fs.create p .directory

/-- Write at the end of an open file. -/
def append (fs : FileSystem) (p : Path) (bytes : Bytes) : FileSystem :=
  match fs.get p with
  | some (.file content) => fs.set p (.file (content ++ bytes))
  | _ => fs

def removeFile (fs : FileSystem) (p : Path) : Except IoErrorKind FileSystem :=
  match fs.get p with
  | none => .error .notFound
  | some .directory => .error .isADirectory
  | some _ => .ok (fs.unset p)

/-- Move a file over whatever file the destination holds. -/
def rename (fs : FileSystem) (source destination : Path) : Except IoErrorKind FileSystem :=
  match fs.get source with
  | none => .error .notFound
  | some .directory => .error .unsupported
  | some entry => do
    fs.requireParent destination
    if fs.get destination = some .directory then throw .isADirectory
    return (fs.unset source).set destination entry

/-! ## What a call changes -/

section
variable {fs fs' : FileSystem} {p q : Path} {entry : Entry}

theorem ne_nil_of_get (h : fs.get p ≠ some .directory) : p ≠ [] := by
  intro hp
  exact h (by rw [hp]; rfl)

theorem requireParent_eq_ok : fs.requireParent p = .ok () ↔ fs.get p.dropLast = some .directory := by
  unfold requireParent
  cases fs.get p.dropLast with
  | none => simp
  | some entry => cases entry <;> simp

theorem create_eq_ok (h : fs.create p entry = .ok fs') :
    fs.get p.dropLast = some .directory ∧ fs.get p = none ∧ fs' = fs.set p entry := by
  unfold create at h
  cases hp : fs.requireParent p with
  | error kind => rw [hp] at h; cases h
  | ok =>
    rw [hp] at h
    cases hg : fs.get p with
    | none =>
      simp only [hg] at h
      exact ⟨requireParent_eq_ok.mp hp, rfl, (Except.ok.inj h).symm⟩
    | some e => simp only [hg] at h; cases h

theorem get_create (h : fs.create p entry = .ok fs') (q : Path) :
    fs'.get q = if q = p then some entry else fs.get q := by
  obtain ⟨-, hn, rfl⟩ := create_eq_ok h
  exact get_set (ne_nil_of_get (by rw [hn]; simp)) entry q

theorem removeFile_eq_ok (h : fs.removeFile p = .ok fs') :
    (∃ entry, fs.get p = some entry ∧ entry ≠ .directory) ∧ fs' = fs.unset p := by
  unfold removeFile at h
  cases hg : fs.get p with
  | none => rw [hg] at h; cases h
  | some entry =>
    rw [hg] at h
    cases entry with
    | directory => cases h
    | _ => exact ⟨⟨_, rfl, nofun⟩, (Except.ok.inj h).symm⟩

theorem get_removeFile (h : fs.removeFile p = .ok fs') (q : Path) :
    fs'.get q = if q = p then none else fs.get q := by
  obtain ⟨⟨entry, hg, hd⟩, rfl⟩ := removeFile_eq_ok h
  exact get_unset (ne_nil_of_get (by rw [hg]; simpa using hd)) q

/-- A file can always be removed. -/
theorem removeFile_of_content {bytes : Bytes} (h : fs.content p = some bytes) : fs.removeFile p = .ok (fs.unset p) := by
  unfold content at h
  unfold removeFile
  cases hg : fs.get p with
  | none => rw [hg] at h; cases h
  | some entry =>
    rw [hg] at h
    cases entry with
    | file content => rfl
    | _ => cases h

theorem rename_eq_ok {source destination : Path} (h : fs.rename source destination = .ok fs') :
    ∃ entry, fs.get source = some entry ∧ entry ≠ .directory ∧ fs.get destination ≠ some .directory ∧
      fs' = (fs.unset source).set destination entry := by
  unfold rename at h
  cases hg : fs.get source with
  | none => rw [hg] at h; cases h
  | some entry =>
    have hmain : ∀ e : Entry, (do
        fs.requireParent destination
        if fs.get destination = some .directory then throw IoErrorKind.isADirectory
        return (fs.unset source).set destination e : Except IoErrorKind FileSystem) = .ok fs' →
        fs.get destination ≠ some .directory ∧ fs' = (fs.unset source).set destination e := by
      intro e he
      cases hp : fs.requireParent destination with
      | error kind => rw [hp] at he; cases he
      | ok =>
        rw [hp] at he
        by_cases hd : fs.get destination = some .directory
        · simp only [hd] at he; cases he
        · simp only [hd] at he
          exact ⟨hd, (Except.ok.inj he).symm⟩
    rw [hg] at h
    cases entry with
    | directory => cases h
    | _ => exact ⟨_, rfl, nofun, hmain _ h⟩

theorem parent_of_rename {source destination : Path} (h : fs.rename source destination = .ok fs') :
    fs.get destination.dropLast = some .directory := by
  unfold rename at h
  cases hg : fs.get source with
  | none => rw [hg] at h; cases h
  | some entry =>
    rw [hg] at h
    cases hp : fs.requireParent destination with
    | ok => exact requireParent_eq_ok.mp hp
    | error kind =>
      rw [hp] at h
      cases entry <;> cases h

theorem get_rename {source destination : Path} (h : fs.rename source destination = .ok fs') (q : Path) :
    fs'.get q = if q = destination then fs.get source else if q = source then none else fs.get q := by
  obtain ⟨entry, hs, hd, hdest, rfl⟩ := rename_eq_ok h
  rw [get_set (ne_nil_of_get hdest), get_unset (ne_nil_of_get (by rw [hs]; simpa using hd)), hs]

theorem get_append (bytes : Bytes) (hq : q ≠ p) : (fs.append p bytes).get q = fs.get q := by
  unfold append
  split
  · rename_i content hg
    rw [get_set (ne_nil_of_get (by rw [hg]; simp)), if_neg hq]
  · rfl

theorem get_append_self {content bytes : Bytes} (h : fs.get p = some (.file content)) :
    (fs.append p bytes).get p = some (.file (content ++ bytes)) := by
  unfold append
  rw [h]
  simp only
  rw [get_set (ne_nil_of_get (by rw [h]; simp)), if_pos rfl]

/-! ## What a call does to the contents -/

theorem content_congr (h : fs'.get q = fs.get q) : fs'.content q = fs.content q := by
  simp only [content, h]

theorem content_of_get_none (h : fs.get p = none) : fs.content p = none := by
  simp only [content, h]

theorem content_createNew (h : fs.createNew p = .ok fs') (q : Path) :
    fs'.content q = if q = p then some [] else fs.content q := by
  have hg := get_create h q
  by_cases hq : q = p
  · rw [if_pos hq] at hg ⊢
    simp only [content, hg]
  · rw [if_neg hq] at hg ⊢
    exact content_congr hg

theorem content_createDir (h : fs.createDir p = .ok fs') (q : Path) : fs'.content q = fs.content q := by
  have hg := get_create h q
  by_cases hq : q = p
  · rw [if_pos hq] at hg
    rw [hq, content_of_get_none (create_eq_ok h).2.1, ← hq]
    simp only [content, hg]
  · rw [if_neg hq] at hg
    exact content_congr hg

theorem content_append (fs : FileSystem) (p : Path) (bytes : Bytes) (q : Path) :
    (fs.append p bytes).content q = if q = p then (fs.content p).map (· ++ bytes) else fs.content q := by
  by_cases hq : q = p
  · rw [if_pos hq, hq]
    unfold append content
    cases hg : fs.get p with
    | none => simp [hg]
    | some entry =>
      cases entry with
      | file content =>
        simp only
        rw [get_set (ne_nil_of_get (by rw [hg]; simp)), if_pos rfl]
        rfl
      | _ => simp [hg]
  · rw [if_neg hq]
    exact content_congr (get_append bytes hq)

theorem content_removeFile (h : fs.removeFile p = .ok fs') (q : Path) :
    fs'.content q = if q = p then none else fs.content q := by
  have hg := get_removeFile h q
  by_cases hq : q = p
  · rw [if_pos hq] at hg ⊢
    exact content_of_get_none hg
  · rw [if_neg hq] at hg ⊢
    exact content_congr hg

theorem content_rename {source destination : Path} (h : fs.rename source destination = .ok fs') (q : Path) :
    fs'.content q =
      if q = destination then fs.content source else if q = source then none else fs.content q := by
  have hg := get_rename h q
  by_cases hd : q = destination
  · rw [if_pos hd] at hg ⊢
    simp only [content, hg]
  · rw [if_neg hd] at hg ⊢
    by_cases hs : q = source
    · rw [if_pos hs] at hg ⊢
      exact content_of_get_none hg
    · rw [if_neg hs] at hg ⊢
      exact content_congr hg

end

/-! ## Trees without symbolic links -/

def NoLinks (fs : FileSystem) : Prop := ∀ p absolute target, fs.get p ≠ some (.symlink absolute target)

section
variable {fs fs' : FileSystem} {p : Path}

theorem NoLinks.create {entry : Entry} (hl : fs.NoLinks) (he : ∀ absolute target, entry ≠ .symlink absolute target)
    (h : fs.create p entry = .ok fs') : fs'.NoLinks := by
  intro q absolute target
  rw [get_create h]
  split
  · simpa using he absolute target
  · exact hl q absolute target

theorem NoLinks.createNew (hl : fs.NoLinks) (h : fs.createNew p = .ok fs') : fs'.NoLinks :=
  hl.create (fun _ _ he => by cases he) h

theorem NoLinks.createDir (hl : fs.NoLinks) (h : fs.createDir p = .ok fs') : fs'.NoLinks :=
  hl.create (fun _ _ he => by cases he) h

theorem NoLinks.removeFile (hl : fs.NoLinks) (h : fs.removeFile p = .ok fs') : fs'.NoLinks := by
  intro q absolute target
  rw [get_removeFile h]
  split
  · nofun
  · exact hl q absolute target

theorem NoLinks.rename {source destination : Path} (hl : fs.NoLinks) (h : fs.rename source destination = .ok fs') :
    fs'.NoLinks := by
  intro q absolute target
  rw [get_rename h]
  split
  · exact hl source absolute target
  · split
    · nofun
    · exact hl q absolute target

theorem NoLinks.append (hl : fs.NoLinks) (p : Path) (bytes : Bytes) : (fs.append p bytes).NoLinks := by
  intro q absolute target
  unfold FileSystem.append
  split
  · rename_i content hg
    rw [get_set (ne_nil_of_get (by rw [hg]; simp))]
    split
    · nofun
    · exact hl q absolute target
  · exact hl q absolute target

end

/-! ## Canonical paths -/

/-- Where a walk down a path ends: at its end, at a link with names still to go, or at an error. -/
inductive Walk
  | arrived (p : Path)
  | link (directory : Path) (absolute : Bool) (target rest : Path)
  | failed (kind : IoErrorKind)

def walk (fs : FileSystem) (done : Path) : Path → Walk
  | [] => .arrived done
  | name :: rest =>
    if name = "." then fs.walk done rest
    else if name = ".." then fs.walk done.dropLast rest
    else
      match fs.get (done ++ [name]) with
      | none => .failed .notFound
      | some (.file _) => if rest = [] then .arrived (done ++ [name]) else .failed .notADirectory
      | some .directory => fs.walk (done ++ [name]) rest
      | some (.symlink absolute target) => .link done absolute target rest

/-- Follow at most `hops` links. -/
def canonicalizeFrom (fs : FileSystem) (hops : Nat) (done rest : Path) : Except IoErrorKind Path :=
  match fs.walk done rest with
  | .arrived p => .ok p
  | .failed kind => .error kind
  | .link directory absolute target rest =>
    match hops with
    | 0 => .error .filesystemLoop
    | hops + 1 => fs.canonicalizeFrom hops (if absolute then [] else directory) (target ++ rest)

def canonicalize (fs : FileSystem) (p : Path) : Except IoErrorKind Path := fs.canonicalizeFrom 40 [] p

/-- A path of proper names. -/
def Plain (p : Path) : Prop := ∀ name ∈ p, name ≠ "." ∧ name ≠ ".."

theorem walk_plain {fs : FileSystem} {done rest p : Path} (hp : Plain rest) (h : fs.walk done rest = .arrived p) :
    p = done ++ rest := by
  induction rest generalizing done with
  | nil =>
    cases h
    rw [List.append_nil]
  | cons name rest ih =>
    have hn := hp name (by simp)
    have hrest : Plain rest := fun n hm => hp n (List.mem_cons_of_mem _ hm)
    rw [walk, if_neg hn.1, if_neg hn.2] at h
    split at h
    · cases h
    · split at h
      · rename_i hr
        cases h
        rw [hr]
      · cases h
    · rw [ih hrest h, List.append_assoc]
      rfl
    · cases h

theorem walk_ne_link {fs : FileSystem} (hl : fs.NoLinks) (done rest directory : Path) (absolute : Bool)
    (target left : Path) : fs.walk done rest ≠ .link directory absolute target left := by
  induction rest generalizing done with
  | nil => nofun
  | cons name rest ih =>
    rw [walk]
    split
    · exact ih _
    · split
      · exact ih _
      · split
        · nofun
        · split <;> nofun
        · exact ih _
        · rename_i hg
          exact absurd hg (hl _ _ _)

theorem canonicalize_eq_ok {fs : FileSystem} {p q : Path} (hl : fs.NoLinks) :
    fs.canonicalize p = .ok q ↔ fs.walk [] p = .arrived q := by
  unfold canonicalize canonicalizeFrom
  cases hw : fs.walk [] p with
  | arrived r => simp
  | failed kind => simp
  | link directory absolute target rest => exact (walk_ne_link hl _ _ _ _ _ _ hw).elim

/-- Without links a plain path is its own canonical path. -/
theorem canonicalize_plain {fs : FileSystem} {p q : Path} (hl : fs.NoLinks) (hp : Plain p)
    (h : fs.canonicalize p = .ok q) : q = p :=
  walk_plain hp ((canonicalize_eq_ok hl).mp h)

theorem plain_dropLast {p : Path} (h : Plain p) : Plain p.dropLast :=
  fun name hm => h name (List.dropLast_subset p hm)

theorem plain_append {p q : Path} (hp : Plain p) (hq : Plain q) : Plain (p ++ q) := by
  intro name hm
  rcases List.mem_append.mp hm with hm | hm
  · exact hp name hm
  · exact hq name hm

/-- A walk without links ends at proper names. -/
theorem plain_of_walk {fs : FileSystem} {done rest p : Path} (hd : Plain done)
    (h : fs.walk done rest = .arrived p) : Plain p := by
  have hstep : ∀ name : String, name ≠ "." → name ≠ ".." → Plain (done ++ [name]) := by
    intro name h₁ h₂
    exact plain_append hd (by intro n hn; rw [List.mem_singleton.mp hn]; exact ⟨h₁, h₂⟩)
  induction rest generalizing done with
  | nil =>
    cases h
    exact hd
  | cons name rest ih =>
    rw [walk] at h
    split at h
    · exact ih hd h hstep
    · split at h
      · refine ih (plain_dropLast hd) h ?_
        intro n h₁ h₂
        exact plain_append (plain_dropLast hd) (by intro m hm; rw [List.mem_singleton.mp hm]; exact ⟨h₁, h₂⟩)
      · rename_i h₁ h₂
        have hn := hstep name h₁ h₂
        split at h
        · cases h
        · split at h
          · cases h
            exact hn
          · cases h
        · refine ih hn h ?_
          intro n h₃ h₄
          exact plain_append hn (by intro m hm; rw [List.mem_singleton.mp hm]; exact ⟨h₃, h₄⟩)
        · cases h

end FileSystem

end Parquex
