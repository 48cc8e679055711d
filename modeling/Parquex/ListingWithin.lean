import Parquex.LocalListSound

/-!
# Listing one place of a store

What a listing returns depends on the entries above and beneath its place alone.
So it is enough that these make a tree, whatever else the store holds.
-/

namespace Parquex

namespace FileSystem

/-- Above a place, at it or beneath it. -/
def InLine (place p : Path) : Prop := p <+: place ∨ place <+: p

instance (place p : Path) : Decidable (InLine place p) := inferInstanceAs (Decidable (_ ∨ _))

/-- The entries in line with a place. -/
def within (fs : FileSystem) (place : Path) : FileSystem :=
  ⟨⟨fs.entries.entries.filter fun e => decide (InLine place e.1),
    (List.filter_sublist.map Sigma.fst).nodup fs.entries.nodupKeys⟩⟩

section
variable {fs fs' : FileSystem} {place p done rest : Path}

theorem InLine.of_prefix {q : Path} (h : InLine place p) (hq : q <+: p) : InLine place q := by
  rcases h with h | h
  · exact Or.inl (hq.trans h)
  · exact (List.prefix_or_prefix_of_prefix hq h).imp_right id

theorem get_within_of_ne (hp : p ≠ []) {entry : Entry} :
    (fs.within place).get p = some entry ↔ fs.get p = some entry ∧ InLine place p := by
  rw [get_eq_some_of_ne hp, get_eq_some_of_ne hp]
  unfold within
  simp [List.mem_filter]

theorem get_within (h : InLine place p) : (fs.within place).get p = fs.get p := by
  by_cases hp : p = []
  · rw [hp]
    rfl
  · cases hget : fs.get p with
    | none =>
      rw [Option.eq_none_iff_forall_ne_some]
      intro entry hentry
      rw [((get_within_of_ne hp).mp hentry).1] at hget
      cases hget
    | some entry => exact (get_within_of_ne hp).mpr ⟨hget, h⟩

theorem children_within (h : place <+: p) : (fs.within place).children p = fs.children p := by
  unfold children within
  simp only
  rw [List.filterMap_filter]
  refine List.filterMap_congr fun e _ => ?_
  by_cases hp : e.1.dropLast = p
  · have hline : InLine place e.1 := Or.inr (h.trans (hp ▸ List.dropLast_prefix e.1))
    rw [if_pos (decide_eq_true hline)]
  · rw [if_neg hp]
    split <;> rfl

theorem depth_within : (fs.within place).depth ≤ fs.depth := by
  unfold depth within
  simp only
  generalize fs.entries.entries = l
  induction l with
  | nil => exact Nat.le_refl _
  | cons e l ih =>
    rw [List.filter_cons, List.foldr_cons]
    split
    · rw [List.foldr_cons]
      omega
    · omega

theorem walk_congr (hrest : Plain rest) (h : ∀ p, p <+: done ++ rest → fs.get p = fs'.get p) :
    fs.walk done rest = fs'.walk done rest := by
  induction rest generalizing done with
  | nil => rfl
  | cons name rest ih =>
    have hname := hrest name List.mem_cons_self
    have happend : done ++ [name] ++ rest = done ++ name :: rest := by simp
    have hnext : fs.walk (done ++ [name]) rest = fs'.walk (done ++ [name]) rest :=
      ih (fun n hn => hrest n (List.mem_cons_of_mem _ hn)) (happend ▸ h)
    rw [walk, walk, if_neg hname.1, if_neg hname.2, if_neg hname.1, if_neg hname.2, hnext,
      h (done ++ [name]) (happend ▸ List.prefix_append _ _)]

end

section
variable {fs : FileSystem} {place root p : Path} (h : (fs.within place).Tree root)
include h

theorem Tree.walk_ne_link (hp : Plain p) {directory target left : Path} {absolute : Bool} :
    (fs.within place).walk [] (root ++ p) ≠ .link directory absolute target left := by
  have hroot : (fs.within place).get (root ++ []) = some .directory := by
    rw [List.append_nil]
    exact h.get_root
  have hcases := h.walk_from hroot hp
  rw [List.append_nil, List.nil_append] at hcases
  rw [h.walked.walk]
  rcases hcases with ⟨_, _, hw⟩ | ⟨_, _, hw⟩ | ⟨_, _, _, _, _, hw⟩ <;> rw [hw] <;> exact nofun

theorem Tree.canonicalize_within (hp : Plain p) (hline : InLine place (root ++ p)) :
    fs.canonicalize (root ++ p) = (fs.within place).canonicalize (root ++ p) := by
  have hplain : Plain (root ++ p) := by
    intro name hname
    rcases List.mem_append.mp hname with hname | hname
    · exact h.walked.plain name hname
    · exact hp name hname
  have hwalk : fs.walk [] (root ++ p) = (fs.within place).walk [] (root ++ p) :=
    walk_congr hplain fun q hq => (get_within (hline.of_prefix hq)).symm
  unfold canonicalize canonicalizeFrom
  rw [hwalk]
  cases hw : (fs.within place).walk [] (root ++ p) with
  | arrived q => rfl
  | failed kind => rfl
  | link directory absolute target left => exact absurd hw (h.walk_ne_link hp)

theorem Tree.canonicalize_eq_ok (hp : Plain p) {q : Path} (hc : (fs.within place).canonicalize (root ++ p) = .ok q) :
    q = root ++ p := by
  rcases h.canonicalize_cases hp with ⟨_, _, hok⟩ | ⟨_, _, herror⟩ | ⟨_, _, _, _, _, herror⟩
  · rw [hok] at hc
    exact (Except.ok.inj hc).symm
  · rw [herror] at hc
    cases hc
  · rw [herror] at hc
    cases hc

theorem Tree.metadata_within (hp : Plain p) (hline : InLine place (root ++ p)) :
    fs.metadata (root ++ p) = (fs.within place).metadata (root ++ p) := by
  unfold metadata
  rw [h.canonicalize_within hp hline]
  cases hc : (fs.within place).canonicalize (root ++ p) with
  | error kind => rfl
  | ok q =>
    rw [h.canonicalize_eq_ok hp hc]
    simp only [get_within hline]

theorem Tree.metadataFor_within (hp : Plain p) (hline : InLine place (root ++ p)) (operation : Operation) :
    metadataFor fs (root ++ p) operation = metadataFor (fs.within place) (root ++ p) operation := by
  unfold metadataFor
  rw [h.canonicalize_within hp hline]
  cases hc : (fs.within place).canonicalize (root ++ p) with
  | error kind => rfl
  | ok q =>
    rw [h.canonicalize_eq_ok hp hc]
    simp only [get_within hline]

end

end FileSystem

namespace LocalHost

open FileSystem (InLine Plain)

theorem mapM_congr_mem {ε α β : Type} {f g : α → Except ε β} {as : List α} (h : ∀ a ∈ as, f a = g a) :
    as.mapM f = as.mapM g := by
  induction as with
  | nil => rfl
  | cons a as ih =>
    rw [List.mapM_cons, List.mapM_cons, h a List.mem_cons_self, ih fun b hb => h b (List.mem_cons_of_mem _ hb)]

section
variable {host : LocalHost} {files : FileSystem} {place d : Path} {pre : String} {listingRoot allowedRoot : Path}
  {levels more : Nat} (h : host.ObjectTree (files.within place))
include h

omit h in
theorem visitEntry_congr {files files' : FileSystem} {directory : Path} {entry : String × Entry}
    {visit visit' : Path → Except NativeFailure (List (Path × Nat))}
    (hlinks : ∀ absolute target, entry.2 ≠ .symlink absolute target)
    (hfile : ∀ content, entry.2 = .file content →
      metadataFor files (directory ++ [entry.1]) .list = metadataFor files' (directory ++ [entry.1]) .list)
    (hvisit : entry.2 = .directory → visit (directory ++ [entry.1]) = visit' (directory ++ [entry.1])) :
    visitEntry files listingRoot allowedRoot pre visit directory entry =
      visitEntry files' listingRoot allowedRoot pre visit' directory entry := by
  obtain ⟨name, entry⟩ := entry
  unfold visitEntry
  cases entry with
  | file content =>
    simp only
    unfold visitFile
    rw [hfile content rfl]
  | directory => exact hvisit rfl
  | symlink absolute target => exact absurd rfl (hlinks absolute target)

theorem child_within (hd : place <+: host.root ++ d) {entry : String × Entry}
    (he : entry ∈ (files.within place).children (host.root ++ d)) :
    (files.within place).get (host.root ++ (d ++ [entry.1])) = some entry.2 ∧
      place <+: host.root ++ (d ++ [entry.1]) ∧ ∀ absolute target, entry.2 ≠ .symlink absolute target := by
  have hget := FileSystem.mem_children.mp he
  rw [List.append_assoc] at hget
  refine ⟨hget, ?_, fun absolute target hlink => ?_⟩
  · rw [← List.append_assoc]
    exact hd.trans (List.prefix_append _ _)
  · rw [hlink] at hget
    exact h.tree.links _ _ _ hget

theorem visitDirectory_within (hd : place <+: host.root ++ d) :
    visitDirectory files listingRoot allowedRoot pre levels (host.root ++ d) =
      visitDirectory (files.within place) listingRoot allowedRoot pre levels (host.root ++ d) := by
  induction levels generalizing d with
  | zero => rfl
  | succ levels ih =>
    have hread : files.readDir (host.root ++ d) = (files.within place).readDir (host.root ++ d) := by
      unfold FileSystem.readDir
      rw [FileSystem.get_within (Or.inr hd), FileSystem.children_within hd]
    unfold visitDirectory
    rw [hread]
    cases hentries : (files.within place).readDir (host.root ++ d) with
    | error kind => rfl
    | ok entries =>
      have hchildren : entries = (files.within place).children (host.root ++ d) := by
        unfold FileSystem.readDir at hentries
        split at hentries <;> cases hentries
        rfl
      simp only
      rw [mapM_congr_mem fun entry he => ?_]
      obtain ⟨hget, hchild, hlinks⟩ := child_within h hd (hchildren ▸ he)
      refine visitEntry_congr hlinks (fun content hfile => ?_) fun _ => ?_
      · rw [hfile] at hget
        rw [List.append_assoc]
        exact h.tree.metadataFor_within (h.plain hget) (Or.inr hchild) _
      · rw [List.append_assoc]
        exact ih hchild

/-- Levels beyond the depth of the tree find nothing more. -/
theorem visitDirectory_levels (hd : place <+: host.root ++ d)
    (hget : (files.within place).get (host.root ++ d) = some .directory)
    (hlevels : (files.within place).depth < levels + (host.root ++ d).length)
    (hmore : (files.within place).depth < more + (host.root ++ d).length) :
    visitDirectory (files.within place) listingRoot allowedRoot pre levels (host.root ++ d) =
      visitDirectory (files.within place) listingRoot allowedRoot pre more (host.root ++ d) := by
  induction levels generalizing d more with
  | zero =>
    have := FileSystem.length_le_depth hget
    omega
  | succ levels ih =>
    cases more with
    | zero =>
      have := FileSystem.length_le_depth hget
      omega
    | succ more =>
      unfold visitDirectory FileSystem.readDir
      rw [hget]
      simp only
      rw [mapM_congr_mem fun entry he => ?_]
      obtain ⟨hchildGet, hchild, hlinks⟩ := child_within h hd he
      refine visitEntry_congr hlinks (fun content _ => rfl) fun hdirectory => ?_
      rw [hdirectory] at hchildGet
      rw [List.append_assoc]
      have hlength : (host.root ++ (d ++ [entry.1])).length = (host.root ++ d).length + 1 := by simp; omega
      exact ih hchild hchildGet (by omega) (by omega)

theorem canonicalize_root_within (hroot : host.root <+: place) :
    files.canonicalize host.root = (files.within place).canonicalize host.root := by
  have hline : InLine place (host.root ++ []) := Or.inl (by rw [List.append_nil]; exact hroot)
  have hsame := h.tree.canonicalize_within (fun name hname => by cases hname) hline
  rwa [List.append_nil] at hsame

theorem resolveExisting_within {p : Path} {operation : Operation} (hroot : host.root <+: place) (hp : Plain p)
    (hline : InLine place (host.root ++ p)) :
    host.resolveExisting files (host.root ++ p) operation =
      host.resolveExisting (files.within place) (host.root ++ p) operation := by
  unfold resolveExisting enforceAllowedRoot
  rw [h.tree.canonicalize_within hp hline, canonicalize_root_within h hroot]

theorem isDir_within {p : Path} (hp : Plain p) (hline : InLine place (host.root ++ p)) :
    files.isDir (host.root ++ p) = (files.within place).isDir (host.root ++ p) := by
  unfold FileSystem.isDir
  rw [h.tree.metadata_within hp hline]

theorem listDirectory_within {p : Path} (hroot : host.root <+: place) (hp : Plain p) (hd : place <+: host.root ++ p) :
    host.listDirectory files (host.root ++ p) pre = host.listDirectory (files.within place) (host.root ++ p) pre := by
  have hline : InLine place (host.root ++ p) := Or.inr hd
  have hresolve : host.resolveExisting files (host.root ++ p) .list =
      host.resolveExisting (files.within place) (host.root ++ p) .list := resolveExisting_within h hroot hp hline
  unfold listDirectory
  rw [hresolve, canonicalize_root_within h hroot]
  refine bind_congr fun _ => ?_
  cases hr : host.resolveExisting (files.within place) (host.root ++ p) .list with
  | error failure => rfl
  | ok q =>
    rw [h.tree.canonicalize_eq_ok hp (resolveExisting_eq_ok.mp hr).1]
    simp only [bind, Except.bind]
    rw [isDir_within h hp hline]
    cases hdir : (files.within place).isDir (host.root ++ p) with
    | false => rfl
    | true =>
      have hget := (h.tree.isDir_iff hp).mp hdir
      have hdepth : (files.within place).depth ≤ files.depth := FileSystem.depth_within
      have hvisit : ∀ listingRoot allowedRoot,
          visitDirectory files listingRoot allowedRoot pre (files.depth + 1) (host.root ++ p) =
            visitDirectory (files.within place) listingRoot allowedRoot pre ((files.within place).depth + 1)
              (host.root ++ p) := by
        intro listingRoot allowedRoot
        rw [visitDirectory_within h hd]
        exact visitDirectory_levels h hd hget (by omega) (by omega)
      simp only [hvisit]

theorem headObject_within {p : Path} (hroot : host.root <+: place) (hp : Plain p)
    (hline : InLine place (host.root ++ p)) :
    host.headObject files (host.root ++ p) = host.headObject (files.within place) (host.root ++ p) := by
  unfold headObject
  rw [resolveExisting_within h hroot hp hline]
  cases hr : host.resolveExisting (files.within place) (host.root ++ p) .head with
  | error failure => rfl
  | ok q =>
    rw [h.tree.canonicalize_eq_ok hp (resolveExisting_eq_ok.mp hr).1]
    simp only [bind, Except.bind, h.tree.metadataFor_within hp hline]

/-- A listing beneath a place is that of the entries in line with it. -/
theorem storeList_within (hroot : host.root <+: place) (hk : AcceptedKey pre)
    (hplace : place <+: (host.location pre).dropLast) :
    host.storeList files pre = host.storeList (files.within place) pre := by
  have hparent : (host.location pre).dropLast = host.root ++ (keyPath pre).dropLast :=
    List.dropLast_append_of_ne_nil hk.keyPath_ne_nil
  have hparentPlain : Plain (keyPath pre).dropLast := FileSystem.plain_dropLast hk.plain
  have hbelow : place <+: host.root ++ keyPath pre := hplace.trans (List.dropLast_prefix _)
  have hline : InLine place (host.root ++ keyPath pre) := Or.inr hbelow
  have hlist : host.localList files pre = host.localList (files.within place) pre := by
    rw [hparent] at hplace
    unfold localList
    rw [if_neg (acceptedKey_iff.mp hk).1, if_neg (acceptedKey_iff.mp hk).1, hparent]
    unfold location
    rw [h.tree.metadata_within hk.plain hline, listDirectory_within h hroot hk.plain hbelow,
      headObject_within h hroot hk.plain hline, isDir_within h hparentPlain (Or.inr hplace)]
    simp only [listDirectory_within h hroot hparentPlain hplace]
  unfold storeList
  rw [hlist]

end

end LocalHost

end Parquex
