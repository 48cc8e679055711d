import Parquex.Containment

/-!
# Following links

Where a walk through links arrives, what it says of longer and of shorter paths,
and that it arrives there still when there are more files.
-/

namespace Parquex

namespace FileSystem

variable {fs fs' : FileSystem} {done p q rest c : Path} {name : String}

/-! ## Walks -/

theorem canonicalizeFrom_eq (fs : FileSystem) (hops : Nat) (done rest : Path) :
    fs.canonicalizeFrom hops done rest =
      match fs.walk done rest with
      | .arrived p => .ok p
      | .failed kind => .error kind
      | .link directory absolute target rest =>
        match hops with
        | 0 => .error .filesystemLoop
        | hops + 1 => fs.canonicalizeFrom hops (if absolute then [] else directory) (target ++ rest) := by
  exact canonicalizeFrom.eq_def fs hops done rest

/-- A path resolves with its walk, or with what is left after the first link. -/
theorem canonicalizeFrom_eq_ok {hops : Nat} : fs.canonicalizeFrom hops done rest = .ok c ↔
    fs.walk done rest = .arrived c ∨ ∃ hops' directory absolute target left, hops = hops' + 1 ∧
      fs.walk done rest = .link directory absolute target left ∧
      fs.canonicalizeFrom hops' (if absolute then [] else directory) (target ++ left) = .ok c := by
  rw [canonicalizeFrom_eq]
  cases hw : fs.walk done rest with
  | arrived p => simp
  | failed kind => simp
  | link directory absolute target left => cases hops <;> simp

section
variable (hc : fs.canonicalize p = .ok c)
include hc

end

/-! ## More files -/

/-- Everything is still there. -/
def Extends (fs fs' : FileSystem) : Prop := ∀ p entry, fs.get p = some entry → fs'.get p = some entry

theorem Extends.refl (fs : FileSystem) : fs.Extends fs := fun _ _ => id

theorem Extends.trans {fs'' : FileSystem} (h : fs.Extends fs') (h' : fs'.Extends fs'') : fs.Extends fs'' :=
  fun p entry hg => h' p entry (h p entry hg)

theorem extends_create {entry : Entry} (h : fs.create p entry = .ok fs') : fs.Extends fs' := by
  intro q e hg
  rw [get_create h, if_neg, hg]
  rintro rfl
  rw [(create_eq_ok h).2.1] at hg
  cases hg

theorem Extends.walked (h : fs.Extends fs') (hw : fs.Walked p) : fs'.Walked p := hw.mono fun q hg => h q _ hg

/-- A walk that met nothing missing is the same walk among more files. -/
theorem Extends.walk (h : fs.Extends fs') (hw : ∀ kind, fs.walk done rest ≠ .failed kind) :
    fs'.walk done rest = fs.walk done rest := by
  induction rest generalizing done with
  | nil => rfl
  | cons name rest ih =>
    rw [FileSystem.walk, FileSystem.walk]
    rw [FileSystem.walk] at hw
    by_cases hdot : name = "."
    · simp only [hdot, if_true] at hw ⊢
      exact ih hw
    · by_cases hup : name = ".."
      · simp only [hup, if_true] at hw ⊢
        rw [if_neg (by decide)] at hw ⊢
        rw [if_neg (by decide)]
        exact ih hw
      · simp only [hdot, hup, if_false] at hw ⊢
        cases hg : fs.get (done ++ [name]) with
        | none =>
          rw [hg] at hw
          exact absurd rfl (hw _)
        | some entry =>
          rw [h _ _ hg]
          rw [hg] at hw
          cases entry with
          | directory => exact ih hw
          | _ => rfl

theorem Extends.canonicalize (h : fs.Extends fs') (hc : fs.canonicalize p = .ok c) : fs'.canonicalize p = .ok c := by
  have hfrom : ∀ hops done p, fs.canonicalizeFrom hops done p = .ok c → fs'.canonicalizeFrom hops done p = .ok c := by
    intro hops
    induction hops using Nat.strong_induction_on with
    | _ hops ih =>
      intro done p hc
      rw [canonicalizeFrom_eq_ok] at hc ⊢
      rcases hc with hw | ⟨hops', _, _, _, _, rfl, hw, hfollow⟩
      · refine Or.inl ?_
        rw [h.walk (by rw [hw]; simp), hw]
      · have hrest := ih hops' (Nat.lt_succ_self _) _ _ hfollow
        refine Or.inr ⟨hops', _, _, _, _, rfl, ?_, hrest⟩
        rw [h.walk (by rw [hw]; simp), hw]
  exact hfrom 40 [] p hc

/-! ## Places -/

theorem place_append (hc : fs.canonicalize p = .ok c) : fs.place (p ++ [name]) = .ok (c ++ [name]) := by
  unfold place
  rw [List.getLast?_concat, List.dropLast_concat, hc]

theorem symlinkMetadata_child {entry : Entry} (hc : fs.canonicalize p = .ok c)
    (h : fs.symlinkMetadata (p ++ [name]) = .ok entry) : fs.get (c ++ [name]) = some entry := by
  unfold symlinkMetadata at h
  obtain ⟨q, hq, h⟩ := except_bind_eq_ok.mp h
  rw [place_append hc] at hq
  cases hq
  obtain ⟨_, -, h⟩ := except_bind_eq_ok.mp h
  cases hg : fs.get (c ++ [name]) with
  | none =>
    rw [hg] at h
    cases h
  | some entry =>
    rw [hg] at h
    cases h
    rfl

theorem createDirAt_child (hc : fs.canonicalize p = .ok c) (h : fs.createDirAt (p ++ [name]) = .ok fs') :
    fs.create (c ++ [name]) .directory = .ok fs' := by
  unfold createDirAt at h
  obtain ⟨q, hq, h⟩ := except_bind_eq_ok.mp h
  rw [place_append hc] at hq
  cases hq
  exact h

section
variable (hw : fs.Walked p)
include hw

theorem Walked.symlinkMetadata_child :
    fs.symlinkMetadata (p ++ [name]) = (fs.get (p ++ [name])).elim (.error .notFound) .ok := by
  have hparent : fs.requireParent (p ++ [name]) = .ok () :=
    requireParent_eq_ok.mpr (by rw [List.dropLast_concat]; exact hw.get)
  unfold symlinkMetadata
  rw [place_append hw.canonicalize_self]
  simp only [bind, Except.bind, hparent]

theorem Walked.createDirAt_child : fs.createDirAt (p ++ [name]) = fs.createDir (p ++ [name]) := by
  unfold createDirAt
  rw [place_append hw.canonicalize_self]
  rfl

end

theorem createNewAt_canonical (hc : fs.canonicalize p = .ok p) :
    fs.createNewAt (p ++ [name]) = fs.createNew (p ++ [name]) := by
  unfold createNewAt
  rw [place_append hc]
  rfl

end FileSystem

end Parquex
