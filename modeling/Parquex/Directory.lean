import Parquex.FileSystem
import Parquex.Fallible
import Mathlib.Data.List.Induction
import Mathlib.Data.List.Infix

/-!
# Directories

Reading a directory, and walking down to what lies beneath one. A path that a
walk has reached names the same place when it is walked again.
-/

namespace Parquex

namespace FileSystem

/-! ## System calls -/

def children (fs : FileSystem) (p : Path) : List (String × Entry) :=
  fs.entries.entries.filterMap fun e => if e.1.dropLast = p then e.1.getLast?.map (·, e.2) else none

/-- The names in the directory that a canonical path names, and what they are. -/
def readDir (fs : FileSystem) (p : Path) : Except IoErrorKind (List (String × Entry)) :=
  match fs.get p with
  | none => .error .notFound
  | some .directory => .ok (fs.children p)
  | some _ => .error .notADirectory

/-- What a path names once its links are followed. -/
def metadata (fs : FileSystem) (p : Path) : Except IoErrorKind Entry :=
  match fs.canonicalize p with
  | .error kind => .error kind
  | .ok canonical => (fs.get canonical).elim (.error .notFound) .ok

def isDir (fs : FileSystem) (p : Path) : Bool := fs.metadata p == .ok .directory

/-- No path of the tree is longer. -/
def depth (fs : FileSystem) : Nat := fs.entries.entries.foldr (fun e n => max e.1.length n) 0

section
variable {fs : FileSystem} {p q : Path} {name : String} {entry : Entry}

theorem get_eq_some_of_ne (hp : p ≠ []) : fs.get p = some entry ↔ ⟨p, entry⟩ ∈ fs.entries.entries := by
  unfold get
  rw [if_neg hp]
  exact AList.mem_lookup_iff

theorem mem_children : (name, entry) ∈ fs.children p ↔ fs.get (p ++ [name]) = some entry := by
  rw [get_eq_some_of_ne (by simp)]
  unfold children
  rw [List.mem_filterMap]
  refine ⟨?_, fun h => ⟨_, h, by simp⟩⟩
  rintro ⟨⟨q, e⟩, hq, he⟩
  split at he
  · rename_i hd
    obtain ⟨n, hn, heq⟩ := Option.map_eq_some_iff.mp he
    cases heq
    rw [← hd, List.dropLast_append_getLast? name hn]
    exact hq
  · cases he

theorem nodup_children : ((fs.children p).map Prod.fst).Nodup := by
  have hnames : (fs.children p).map Prod.fst =
      (fs.entries.entries.map Sigma.fst).filterMap fun q => if q.dropLast = p then q.getLast? else none := by
    unfold children
    rw [List.map_filterMap, List.filterMap_map]
    apply List.filterMap_congr
    intro e _
    simp only [Function.comp_apply]
    split <;> simp [Function.comp_def]
  rw [hnames]
  refine List.Nodup.filterMap ?_ fs.entries.nodupKeys
  intro q q' name hq hq'
  simp only [Option.mem_def, Option.ite_none_right_eq_some] at hq hq'
  rw [← List.dropLast_append_getLast? name hq.2, ← List.dropLast_append_getLast? name hq'.2, hq.1, hq'.1]

theorem length_le_depth (h : fs.get p = some entry) : p.length ≤ fs.depth := by
  by_cases hp : p = []
  · rw [hp]
    exact Nat.zero_le _
  · have hmem := (get_eq_some_of_ne hp).mp h
    unfold depth
    generalize fs.entries.entries = l at hmem
    induction l with
    | nil => cases hmem
    | cons e l ih =>
      rw [List.foldr_cons]
      rcases List.mem_cons.mp hmem with rfl | hmem
      · exact Nat.le_max_left _ _
      · exact Nat.le_trans (ih hmem) (Nat.le_max_right _ _)

theorem metadata_of_canonicalize_error {kind : IoErrorKind} (hc : fs.canonicalize p = .error kind) :
    fs.metadata p = .error kind := by
  unfold metadata
  rw [hc]

end

/-! ## Places that a walk has reached -/

/-- A walk to anything beneath the directory passes through it. -/
def Walked (fs : FileSystem) (done : Path) : Prop :=
  ∀ p, p <+: done → fs.get p = some .directory ∧ ∀ rest, fs.walk [] (p ++ rest) = fs.walk p rest

section
variable {fs : FileSystem} {done p q rest : Path} {name : String}

theorem walked_nil : fs.Walked [] := by
  intro p hp
  rw [List.prefix_nil.mp hp]
  exact ⟨rfl, fun rest => rfl⟩

theorem Walked.dropLast (h : fs.Walked done) : fs.Walked done.dropLast :=
  fun p hp => h p (hp.trans (List.dropLast_prefix done))

theorem Walked.get (h : fs.Walked done) : fs.get done = some .directory := (h done (List.prefix_refl _)).1

theorem Walked.walk (h : fs.Walked done) (rest : Path) : fs.walk [] (done ++ rest) = fs.walk done rest :=
  (h done (List.prefix_refl _)).2 rest

theorem Walked.step (h : fs.Walked done) (hdot : name ≠ ".") (hup : name ≠ "..")
    (hg : fs.get (done ++ [name]) = some .directory) : fs.Walked (done ++ [name]) := by
  intro p hp
  rcases List.prefix_concat_iff.mp hp with rfl | hp
  · refine ⟨hg, fun rest => ?_⟩
    rw [List.append_assoc, h.walk, List.singleton_append, FileSystem.walk, if_neg hdot, if_neg hup, hg]
  · exact h p hp

theorem Walked.plain (h : fs.Walked done) : Plain done := by
  have hw : fs.walk [] (done ++ []) = .arrived done := h.walk []
  exact plain_of_walk (fun name hn => by cases hn) hw

theorem walked_of_plain (hp : Plain done) (hd : ∀ p, p <+: done → fs.get p = some .directory) : fs.Walked done := by
  induction done using List.reverseRecOn with
  | nil => exact walked_nil
  | append_singleton done name ih =>
    have hn := hp name (by simp)
    refine (ih (fun n hm => hp n (by simp [hm])) fun p hpre => ?_).step hn.1 hn.2 (hd _ (List.prefix_refl _))
    exact hd p (hpre.trans (List.prefix_append _ _))

/-- A walked directory stays one when no directory goes. -/
theorem Walked.mono {fs' : FileSystem} (h : fs.Walked done)
    (hdir : ∀ p, fs.get p = some .directory → fs'.get p = some .directory) : fs'.Walked done :=
  walked_of_plain h.plain fun p hp => hdir p (h p hp).1

/-- The place that a walk has reached, or the directory in which it has met a link, is reached again. -/
theorem Walked.reached (h : fs.Walked done) :
    (∀ p, fs.walk done rest = .arrived p → fs.walk [] p = .arrived p ∧ (fs.get p = some .directory → fs.Walked p)) ∧
      ∀ directory absolute target left, fs.walk done rest = .link directory absolute target left →
        fs.Walked directory := by
  induction rest generalizing done with
  | nil =>
    refine ⟨fun p hp => ?_, fun _ _ _ _ hl => by cases hl⟩
    cases hp
    refine ⟨?_, fun _ => h⟩
    have := h.walk []
    rw [List.append_nil] at this
    exact this
  | cons name rest ih =>
    rw [FileSystem.walk]
    by_cases hdot : name = "."
    · rw [if_pos hdot]
      exact ih h
    · rw [if_neg hdot]
      by_cases hup : name = ".."
      · rw [if_pos hup]
        exact ih h.dropLast
      · rw [if_neg hup]
        cases hg : fs.get (done ++ [name]) with
        | none => exact ⟨fun p hp => (by cases hp), fun _ _ _ _ hl => (by cases hl)⟩
        | some entry =>
          cases entry with
          | file content =>
            refine ⟨fun p hp => ?_, fun _ _ _ _ hl => ?_⟩
            · simp only at hp
              split at hp
              · cases hp
                refine ⟨?_, fun hd => by rw [hg] at hd; cases hd⟩
                rw [h.walk, FileSystem.walk, if_neg hdot, if_neg hup, hg]
                rfl
              · cases hp
            · simp only at hl
              split at hl <;> cases hl
          | directory => exact ih (h.step hdot hup hg)
          | symlink absolute target =>
            refine ⟨fun p hp => (by cases hp), fun _ _ _ _ hl => ?_⟩
            cases hl
            exact h

theorem canonicalizeFrom_reached {hops : Nat} (h : fs.Walked done) (hc : fs.canonicalizeFrom hops done rest = .ok p) :
    fs.walk [] p = .arrived p ∧ (fs.get p = some .directory → fs.Walked p) := by
  induction hops generalizing done rest with
  | zero =>
    unfold canonicalizeFrom at hc
    cases hw : fs.walk done rest with
    | arrived q =>
      rw [hw] at hc
      cases hc
      exact h.reached.1 p hw
    | link directory absolute target left => rw [hw] at hc; cases hc
    | failed kind => rw [hw] at hc; cases hc
  | succ hops ih =>
    unfold canonicalizeFrom at hc
    cases hw : fs.walk done rest with
    | arrived q =>
      rw [hw] at hc
      cases hc
      exact h.reached.1 p hw
    | link directory absolute target left =>
      rw [hw] at hc
      cases absolute with
      | true => exact ih walked_nil hc
      | false => exact ih (h.reached.2 _ _ _ _ hw) hc
    | failed kind => rw [hw] at hc; cases hc

theorem Walked.canonicalize (h : fs.Walked done) {rest p : Path} (hw : fs.walk done rest = .arrived p) :
    fs.canonicalize (done ++ rest) = .ok p := by
  unfold FileSystem.canonicalize canonicalizeFrom
  rw [h.walk, hw]

theorem canonicalize_canonical (hc : fs.canonicalize p = .ok q) : fs.canonicalize q = .ok q := by
  unfold canonicalize canonicalizeFrom
  rw [(canonicalizeFrom_reached walked_nil hc).1]

theorem Walked.canonicalize_self (h : fs.Walked done) : fs.canonicalize done = .ok done := by
  have hc : fs.canonicalize (done ++ []) = .ok done := h.canonicalize rfl
  rw [List.append_nil] at hc
  exact hc

end

/-! ## Trees -/

/-- Beneath the directory there are files and directories only, each in a directory. -/
structure Tree (fs : FileSystem) (root : Path) : Prop where
  walked : fs.Walked root
  links : ∀ p absolute target, fs.get (root ++ p) ≠ some (.symlink absolute target)
  parents : ∀ p name entry, fs.get (root ++ (p ++ [name])) = some entry → fs.get (root ++ p) = some .directory

namespace Tree

variable {fs : FileSystem} {root p q : Path} {entry : Entry} {content : Bytes} (h : fs.Tree root)
include h

/-- What lies above something is a directory. -/
theorem above (hg : fs.get (root ++ p) = some entry) (hq : q <+: p) (hne : q ≠ p) :
    fs.get (root ++ q) = some .directory := by
  induction p using List.reverseRecOn generalizing entry with
  | nil => exact absurd (List.prefix_nil.mp hq) hne
  | append_singleton p name ih =>
    have hparent := h.parents p name entry hg
    rcases List.prefix_concat_iff.mp hq with rfl | hq
    · exact absurd rfl hne
    · by_cases he : q = p
      · rw [he]
        exact hparent
      · exact ih hparent hq he

/-- A walk arrives, or it finds nothing, or it meets a file on its way. -/
theorem walk_from {done rest : Path} (hd : fs.get (root ++ done) = some .directory) (hp : Plain rest) :
    (∃ entry, fs.get (root ++ (done ++ rest)) = some entry ∧
        fs.walk (root ++ done) rest = .arrived (root ++ (done ++ rest))) ∨
      (fs.get (root ++ (done ++ rest)) = none ∧
        (∀ q content, q <+: done ++ rest → fs.get (root ++ q) ≠ some (.file content)) ∧
        fs.walk (root ++ done) rest = .failed .notFound) ∨
      ∃ q content, q <+: done ++ rest ∧ q ≠ done ++ rest ∧ fs.get (root ++ q) = some (.file content) ∧
        fs.walk (root ++ done) rest = .failed .notADirectory := by
  induction rest generalizing done with
  | nil =>
    rw [List.append_nil]
    exact Or.inl ⟨.directory, hd, rfl⟩
  | cons name rest ih =>
    have hn := hp name (by simp)
    have happend : done ++ name :: rest = (done ++ [name]) ++ rest := by simp
    rw [walk, if_neg hn.1, if_neg hn.2, List.append_assoc]
    cases hg : fs.get (root ++ (done ++ [name])) with
    | none =>
      have hbelow : ∀ q entry, done ++ [name] <+: q → fs.get (root ++ q) ≠ some entry := by
        intro q entry hq he
        by_cases heq : done ++ [name] = q
        · rw [heq, he] at hg
          cases hg
        · rw [h.above he hq heq] at hg
          cases hg
      refine Or.inr (Or.inl ⟨?_, ?_, rfl⟩)
      · rw [Option.eq_none_iff_forall_ne_some, happend]
        exact fun entry => hbelow _ entry (List.prefix_append _ _)
      · intro q content hq he
        rw [happend] at hq
        rcases List.prefix_or_prefix_of_prefix hq (List.prefix_append _ _) with hq | hq
        · rcases List.prefix_concat_iff.mp hq with rfl | hq
          · exact hbelow _ _ (List.prefix_refl _) he
          · by_cases heq : q = done
            · rw [heq, hd] at he
              cases he
            · rw [h.above hd hq heq] at he
              cases he
        · exact hbelow q _ hq he
    | some entry =>
      cases entry with
      | file content =>
        cases rest with
        | nil => exact Or.inl ⟨_, hg, rfl⟩
        | cons next rest =>
          refine Or.inr (Or.inr ⟨done ++ [name], content, ?_, by simp, hg, rfl⟩)
          rw [happend]
          exact List.prefix_append _ _
      | directory =>
        rw [happend]
        exact ih hg fun n hm => hp n (List.mem_cons_of_mem _ hm)
      | symlink absolute target => exact absurd hg (h.links _ _ _)

theorem get_root : fs.get root = some .directory := h.walked.get

/-- What a path beneath the root names. -/
theorem canonicalize_cases (hp : Plain p) :
    (∃ entry, fs.get (root ++ p) = some entry ∧ fs.canonicalize (root ++ p) = .ok (root ++ p)) ∨
      (fs.get (root ++ p) = none ∧ (∀ q content, q <+: p → fs.get (root ++ q) ≠ some (.file content)) ∧
        fs.canonicalize (root ++ p) = .error .notFound) ∨
      ∃ q content, q <+: p ∧ q ≠ p ∧ fs.get (root ++ q) = some (.file content) ∧
        fs.canonicalize (root ++ p) = .error .notADirectory := by
  have hroot : fs.get (root ++ []) = some .directory := by rw [List.append_nil]; exact h.get_root
  have hcases := h.walk_from hroot hp
  simp only [List.nil_append, List.append_nil] at hcases
  have hfailed : ∀ kind, fs.walk root p = .failed kind → fs.canonicalize (root ++ p) = .error kind := by
    intro kind hw
    unfold canonicalize canonicalizeFrom
    rw [h.walked.walk, hw]
  rcases hcases with ⟨entry, hg, hw⟩ | ⟨hg, hfile, hw⟩ | ⟨q, content, hq, hne, hg, hw⟩
  · exact Or.inl ⟨entry, hg, h.walked.canonicalize hw⟩
  · exact Or.inr (Or.inl ⟨hg, hfile, hfailed _ hw⟩)
  · exact Or.inr (Or.inr ⟨q, content, hq, hne, hg, hfailed _ hw⟩)

theorem canonicalize_of_get (hp : Plain p) (hg : fs.get (root ++ p) = some entry) :
    fs.canonicalize (root ++ p) = .ok (root ++ p) := by
  rcases h.canonicalize_cases hp with ⟨_, _, hc⟩ | ⟨hn, _⟩ | ⟨q, content, hq, hne, hf, _⟩
  · exact hc
  · rw [hn] at hg
    cases hg
  · rw [h.above hg hq hne] at hf
    cases hf

theorem metadata_of_get (hp : Plain p) (hg : fs.get (root ++ p) = some entry) :
    fs.metadata (root ++ p) = .ok entry := by
  unfold metadata
  rw [h.canonicalize_of_get hp hg]
  simp only [hg, Option.elim_some]

theorem isDir_iff (hp : Plain p) : fs.isDir (root ++ p) = true ↔ fs.get (root ++ p) = some .directory := by
  unfold isDir
  rcases h.canonicalize_cases hp with ⟨entry, hg, hc⟩ | ⟨hg, -, hc⟩ | ⟨q, content, hq, hne, hf, hc⟩
  · rw [h.metadata_of_get hp hg, hg]
    simp
  · rw [metadata_of_canonicalize_error hc, hg]
    simp
  · rw [metadata_of_canonicalize_error hc]
    refine ⟨fun he => (by cases he), fun hd => ?_⟩
    rw [h.above hd hq hne] at hf
    cases hf

/-! ### System calls beneath the root -/

omit h in
theorem get_of_create {fs' : FileSystem} (hc : fs.create q entry = .ok fs') (hg : fs.get p = some .directory) :
    fs'.get p = some .directory := by
  rw [get_create hc, if_neg, hg]
  rintro rfl
  rw [(create_eq_ok hc).2.1] at hg
  cases hg

/-- A tree stays one when no directory goes, no link comes and what comes has a directory. -/
theorem change {fs' : FileSystem} (hdir : ∀ p, fs.get p = some .directory → fs'.get p = some .directory)
    (hlinks : ∀ p absolute target, fs'.get (root ++ p) ≠ some (.symlink absolute target))
    (hparents : ∀ p, fs'.get p ≠ none → fs.get p ≠ none ∨ fs.get p.dropLast = some .directory) : fs'.Tree root := by
  refine ⟨h.walked.mono hdir, hlinks, fun p name entry hg => hdir _ ?_⟩
  rcases hparents (root ++ (p ++ [name])) (by rw [hg]; exact Option.some_ne_none _) with hold | hparent
  · obtain ⟨e, he⟩ := Option.ne_none_iff_exists'.mp hold
    exact h.parents p name e he
  · rwa [← List.append_assoc, List.dropLast_concat] at hparent

theorem create {fs' : FileSystem} (hc : fs.create q entry = .ok fs')
    (he : ∀ absolute target, entry ≠ .symlink absolute target) : fs'.Tree root := by
  refine h.change (fun p hg => get_of_create hc hg) (fun p absolute target => ?_) fun p hg => ?_
  · rw [get_create hc]
    split
    · simpa using he absolute target
    · exact h.links p absolute target
  · rw [get_create hc] at hg
    split at hg
    · rename_i hp
      rw [hp]
      exact Or.inr (create_eq_ok hc).1
    · exact Or.inl hg

theorem removeFile {fs' : FileSystem} (hr : fs.removeFile q = .ok fs') : fs'.Tree root := by
  obtain ⟨⟨entry, hq, hd⟩, -⟩ := removeFile_eq_ok hr
  refine h.change (fun p hg => ?_) (fun p absolute target => ?_) fun p hg => ?_
  · rw [get_removeFile hr, if_neg, hg]
    rintro rfl
    rw [hq] at hg
    exact hd (Option.some.inj hg)
  · rw [get_removeFile hr]
    split
    · exact (Option.some_ne_none _).symm
    · exact h.links p absolute target
  · rw [get_removeFile hr] at hg
    split at hg
    · exact absurd rfl hg
    · exact Or.inl hg

theorem rename {fs' : FileSystem} {source destination : Path}
    (hr : fs.rename (root ++ source) (root ++ destination) = .ok fs') : fs'.Tree root := by
  obtain ⟨entry, hs, hd, hdest, -⟩ := rename_eq_ok hr
  refine h.change (fun p hg => ?_) (fun p absolute target => ?_) fun p hg => ?_
  · rw [get_rename hr, if_neg, if_neg, hg]
    · rintro rfl
      rw [hs] at hg
      exact hd (Option.some.inj hg)
    · rintro rfl
      exact hdest hg
  · rw [get_rename hr]
    split
    · exact h.links source absolute target
    · split
      · exact (Option.some_ne_none _).symm
      · exact h.links p absolute target
  · rw [get_rename hr] at hg
    split at hg
    · rename_i hp
      rw [hp]
      exact Or.inr (parent_of_rename hr)
    · split at hg
      · exact absurd rfl hg
      · exact Or.inl hg

theorem append (bytes : Bytes) : (fs.append q bytes).Tree root := by
  have hcases : ∀ p, (fs.append q bytes).get p = fs.get p ∨
      ∃ old new, fs.get p = some (.file old) ∧ (fs.append q bytes).get p = some (.file new) := by
    intro p
    by_cases hp : p = q
    · rw [hp]
      cases hg : fs.get q with
      | none => exact Or.inl (by unfold FileSystem.append; rw [hg]; exact hg)
      | some entry =>
        cases entry with
        | file content => exact Or.inr ⟨content, _, rfl, get_append_self hg⟩
        | directory => exact Or.inl (by unfold FileSystem.append; rw [hg]; exact hg)
        | symlink absolute target => exact Or.inl (by unfold FileSystem.append; rw [hg]; exact hg)
    · exact Or.inl (get_append bytes hp)
  refine h.change (fun p hg => ?_) (fun p absolute target hg => ?_) fun p hg => ?_
  · rcases hcases p with he | ⟨old, new, ho, -⟩
    · rw [he, hg]
    · rw [ho] at hg
      cases hg
  · rcases hcases (root ++ p) with he | ⟨old, new, -, hn⟩
    · exact h.links p absolute target (by rw [← he]; exact hg)
    · rw [hn] at hg
      cases hg
  · rcases hcases p with he | ⟨old, new, ho, -⟩
    · exact Or.inl (by rw [← he]; exact hg)
    · exact Or.inl (by rw [ho]; exact Option.some_ne_none _)

end Tree

end FileSystem

end Parquex
