import Parquex.Links
import Parquex.LocalObjectsSound
import Mathlib.Logic.Relation

/-!
# Local containment

Whatever links a tree holds, the calls on a key stay at or beneath the root. A call
that resolves a path sees where the links lead before it does anything there; the
creation of directories, which comes first, goes down from the root through real
directories only.
-/

namespace Parquex

namespace LocalHost

variable {host : LocalHost} {files files' : FileSystem} {key name : String} {path : Path} {operation : Operation}

/-! ## Objects -/

/-- Where the missing directories of a writer may come. -/
structure Beneath (c : Path) (files files' : FileSystem) : Prop where
  kept : files.Extends files'
  changed : ∀ p, files'.get p ≠ files.get p → c <+: p.dropLast ∧ p ≠ [] ∧ files'.Walked p.dropLast

theorem Beneath.refl (c : Path) (files : FileSystem) : Beneath c files files :=
  ⟨FileSystem.Extends.refl files, fun _ hp => absurd rfl hp⟩

theorem Beneath.trans {c d : Path} {files'' : FileSystem} (h : Beneath c files files') (h' : Beneath d files' files'')
    (hcd : c <+: d) : Beneath c files files'' := by
  refine ⟨h.kept.trans h'.kept, fun p hp => ?_⟩
  by_cases hq : files''.get p = files'.get p
  · obtain ⟨hpre, hne, hw⟩ := h.changed p (by rw [← hq]; exact hp)
    exact ⟨hpre, hne, h'.kept.walked hw⟩
  · obtain ⟨hpre, hne, hw⟩ := h'.changed p hq
    exact ⟨hcd.trans hpre, hne, hw⟩

/-- The files that an open leaves, and the writer that it returns. -/
structure OpenContained (host : LocalHost) (files : FileSystem) (opened : Opened) : Prop where
  kept : files.Extends opened.files
  changed : ∀ path, opened.files.get path ≠ files.get path → host.Contained opened.files path
  writer : ∀ writer, opened.result = .ok writer →
    host.Contained opened.files writer.stagePath ∧ host.Contained opened.files writer.destination

theorem Contained.mono (h : host.Contained files path) (hkept : files.Extends files') : host.Contained files' path := by
  obtain ⟨root, hroot, hpre, hne, hparent⟩ := h
  exact ⟨root, hkept.canonicalize hroot, hpre, hne, hkept.canonicalize hparent⟩

/-- The directories above the object come before anything else. -/
theorem OpenContained.after {opened : Opened} (h : OpenContained host files' opened) (hkept : files.Extends files')
    (hchanged : ∀ path, files'.get path ≠ files.get path → host.Contained files' path) :
    OpenContained host files opened := by
  refine ⟨hkept.trans h.kept, fun path hp => ?_, h.writer⟩
  by_cases hq : opened.files.get path = files'.get path
  · rw [hq] at hp
    exact (hchanged path hp).mono h.kept
  · exact h.changed path hq

/-- Between these, only system calls that do not fail. -/
abbrev Leads (host : LocalHost) : TaskStep → TaskStep → Prop :=
  Relation.ReflTransGen fun before after => host.next before = after

theorem leads_next {before after : TaskStep} (h : host.Leads (host.next before) after) : host.Leads before after :=
  h.head rfl

/-- The task once the parents of its object have come, or one of them could not. -/
def afterParents (key : String) (options : WriteOptions) (stageSequence : Nat) :
    Except NativeFailure Unit × FileSystem → TaskStep
  | (.ok (), files) => ⟨.running, files, stageSequence, .opening key options .resolve⟩
  | (.error failure, files) => ⟨.failed failure, files, stageSequence, .done⟩

/-- From a canonical root, the parents of an object come as the open makes them come. -/
theorem parents_leads {current left : Path} (key : String) (options : WriteOptions) (stageSequence : Nat)
    (hw : files.Walked current) (hp : FileSystem.Plain left) :
    host.Leads ⟨.running, files, stageSequence, .opening key options (.parents current left)⟩
      (afterParents key options stageSequence (ensureLocalParent files current left)) := by
  induction left generalizing files current with
  | nil => exact Relation.ReflTransGen.refl
  | cons name left ih =>
    have hname := hp name (by simp)
    have hleft : FileSystem.Plain left := fun n hn => hp n (List.mem_cons_of_mem _ hn)
    unfold ensureLocalParent
    rw [hw.symlinkMetadata_child, hw.createDirAt_child]
    apply leads_next
    unfold next Task.step OpenPhase.parents advanceOpen
    simp only [attempt, faultOf, Option.bind_none]
    cases hg : files.get (current ++ [name]) with
    | none =>
      apply leads_next
      unfold next Task.step advanceOpen
      simp only [Option.elim, attempt, faultOf, Option.bind_none]
      cases hcreate : files.createDir (current ++ [name]) with
      | error kind => exact Relation.ReflTransGen.refl
      | ok created =>
        refine ih ?_ hleft
        refine ((FileSystem.extends_create hcreate).walked hw).step hname.1 hname.2 ?_
        rw [FileSystem.get_create hcreate, if_pos rfl]
    | some entry =>
      cases entry with
      | directory => exact ih (hw.step hname.1 hname.2 hg) hleft
      | file content => exact Relation.ReflTransGen.refl
      | symlink absolute target => exact Relation.ReflTransGen.refl

/-- A canonical destination is staged as the open stages it. -/
theorem openStage_leads {parent : Path} (name key : String) (options : WriteOptions) (attempts stageSequence : Nat)
    (hc : files.canonicalize parent = .ok parent) :
    host.Leads ⟨.running, files, stageSequence, .opening key options (.allocate (parent ++ [name]) attempts)⟩
      (host.openStage (parent ++ [name]) options (attempts + 1) files stageSequence).step := by
  induction attempts generalizing stageSequence with
  | zero =>
    apply leads_next
    apply leads_next
    unfold next Task.step advanceOpen openStage
    simp only [attempt, faultOf, Option.bind_none, List.dropLast_concat, FileSystem.createNewAt_canonical hc]
    cases files.createNew _ with
    | ok created => exact Relation.ReflTransGen.refl
    | error kind => cases kind <;> exact Relation.ReflTransGen.refl
  | succ attempts ih =>
    rw [openStage]
    apply leads_next
    apply leads_next
    unfold next Task.step advanceOpen
    simp only [attempt, faultOf, Option.bind_none, List.dropLast_concat, FileSystem.createNewAt_canonical hc]
    cases files.createNew _ with
    | ok created => exact Relation.ReflTransGen.refl
    | error kind =>
      cases kind with
      | alreadyExists => exact ih _
      | _ => exact Relation.ReflTransGen.refl

/-- On a tree whose root is canonical, the system calls of an open leave what the open leaves. -/
theorem openWriter_leads (host : LocalHost) (files : FileSystem) (stageSequence : Nat) (options : WriteOptions)
    (hw : files.Walked host.root) (hk : AcceptedKey key) :
    host.Leads (beginOpen host files stageSequence key options)
      (host.openWriter files stageSequence key options).step := by
  have hparents : host.Leads _ _ := parents_leads key options stageSequence hw (FileSystem.plain_dropLast hk.plain)
  unfold beginOpen openWriter
  rw [show normalizeKey key = .ok key from hk]
  simp only [hk.validateKey]
  refine hparents.trans ?_
  rcases ensureLocalParent files host.root (keyPath key).dropLast with ⟨outcome, files'⟩
  cases outcome with
  | error failure => exact Relation.ReflTransGen.refl
  | ok _ =>
    apply leads_next
    unfold next Task.step advanceOpen
    simp only [afterParents, faultOf, Option.bind_none]
    cases hr : host.resolveDestination files' (host.location key) .writerOpen with
    | error failure => exact Relation.ReflTransGen.refl
    | ok destination =>
      obtain ⟨parent, name, -, hc, rfl, -⟩ := resolveDestination_eq_ok.mp hr
      exact openStage_leads name key options 63 stageSequence (FileSystem.canonicalize_canonical hc)

end LocalHost

end Parquex
