import Parquex.LocalCalls

/-!
# Failed publishes

A publish that returns an error is to leave the destination as it found it, no
staging file and an inactive writer. It does so exactly when nothing fails that
comes after the last step it can undo.
-/

namespace Parquex

/-! ## Replacing the destination -/

theorem Faults.attempt_eq_ok {faults : Faults} {α : Type} {call : SystemCall} {result : Except IoErrorKind α} {a : α}
    (h : faults.attempt call result = .ok a) : result = .ok a := by
  unfold attempt at h
  split at h
  · cases h
  · exact h

section
variable (host : LocalHost) (faults : Faults) (files : FileSystem) (source destination : Path)

/-- The old object is taken away before the rename. -/
def LocalHost.Removes (files' : FileSystem) : Prop :=
  host.windows = true ∧ faults.attempt .removeDestination (files.removeFile destination) = .ok files'

theorem moveFile_cases :
    (∃ kind, faults.attempt .rename (files.rename source destination) = .error kind ∧
      moveFile faults files source destination = (.error kind, files)) ∨
    ∃ files', faults.attempt .rename (files.rename source destination) = .ok files' ∧
      moveFile faults files source destination = (.ok (), files') := by
  unfold moveFile
  cases faults.attempt .rename (files.rename source destination) with
  | error kind => exact Or.inl ⟨kind, rfl, rfl⟩
  | ok files' => exact Or.inr ⟨files', rfl, rfl⟩

/-- The files before the rename of a replacement. -/
def LocalHost.Cleared (files₁ : FileSystem) : Prop :=
  (files₁ = files ∧ ∀ files', ¬ host.Removes faults files destination files') ∨
    host.Removes faults files destination files₁

/-- A replacement stops before it changed anything, or renames over what it left of the destination. -/
theorem LocalHost.replaceFile_cases :
    (∃ kind, host.replaceFile faults files source destination = (.error kind, files) ∧
      ∀ files', ¬ host.Removes faults files destination files') ∨
    ∃ files₁, host.Cleared faults files destination files₁ ∧
      host.replaceFile faults files source destination = moveFile faults files₁ source destination := by
  unfold replaceFile Cleared Removes
  by_cases hw : host.windows = true
  · simp only [hw, if_true, true_and]
    cases hr : faults.attempt .removeDestination (files.removeFile destination) with
    | ok files₁ => exact Or.inr ⟨files₁, Or.inr rfl, rfl⟩
    | error kind =>
      cases kind with
      | notFound => exact Or.inr ⟨files, Or.inl ⟨rfl, nofun⟩, rfl⟩
      | _ => exact Or.inl ⟨_, rfl, nofun⟩
  · simp only [hw, Bool.false_eq_true, if_false, false_and]
    exact Or.inr ⟨files, Or.inl ⟨rfl, fun _ => id⟩, rfl⟩

variable {host faults files source destination}

theorem LocalHost.Cleared.get_source {files₁ : FileSystem} (h : host.Cleared faults files destination files₁)
    (hne : source ≠ destination) : files₁.get source = files.get source := by
  rcases h with ⟨rfl, -⟩ | hremoves
  · rfl
  · rw [FileSystem.get_removeFile (Faults.attempt_eq_ok hremoves.2), if_neg hne]

/-- A rename that succeeds puts the source at the destination. -/
theorem LocalHost.Cleared.get_renamed {files₁ files₂ : FileSystem} (h : host.Cleared faults files destination files₁)
    (hne : source ≠ destination) (hr : faults.attempt .rename (files₁.rename source destination) = .ok files₂) :
    files₂.get destination = files.get source ∧ files₂.get source = none := by
  have hmove := FileSystem.get_rename (Faults.attempt_eq_ok hr)
  exact ⟨by rw [hmove, if_pos rfl, h.get_source hne], by rw [hmove, if_neg hne, if_pos rfl]⟩

end

namespace LocalWriter

variable (host : LocalHost) (faults : Faults) (w : LocalWriter) (files : FileSystem)

/-- The staging file has the name that an open gives it. -/
def Staged : Prop :=
  ∃ sequence, w.stagePath = w.destination.dropLast ++ [host.stageName (w.destination.getLast?.getD "") sequence]

theorem Staged.ne {host : LocalHost} {w : LocalWriter} (h : w.Staged host) : w.stagePath ≠ w.destination := by
  obtain ⟨sequence, hs⟩ := h
  intro he
  have hlast : w.stagePath.getLast? = some (host.stageName (w.destination.getLast?.getD "") sequence) := by
    rw [hs, List.getLast?_concat]
  rw [he] at hlast
  have hname := congrArg (fun name => (name.getD "").length) hlast
  unfold LocalHost.stageName at hname
  simp only [Option.getD_some, String.length_append] at hname
  have : ".".length = 1 := rfl
  omega

/-! ## The staging file -/

/-- The staging file can be removed, or there is none. -/
def StageRemovable : Prop :=
  (faults.failure .removeStage = none ∧ files.get w.stagePath ≠ some .directory) ∨ files.get w.stagePath = none

theorem get_removeStage {p : Path} (hp : p ≠ w.stagePath) : (w.removeStage faults files).get p = files.get p := by
  unfold removeStage
  cases hr : faults.attempt .removeStage (files.removeFile w.stagePath) with
  | error kind => rfl
  | ok files' => exact (FileSystem.get_removeFile (Faults.attempt_eq_ok hr) p).trans (if_neg hp)

theorem get_removeStage_eq_none : (w.removeStage faults files).get w.stagePath = none ↔ w.StageRemovable faults files := by
  unfold removeStage StageRemovable Faults.attempt
  cases faults.failure .removeStage with
  | some kind => simp [Except.toOption]
  | none =>
    cases hr : files.removeFile w.stagePath with
    | ok files' =>
      obtain ⟨⟨entry, hg, hd⟩, -⟩ := FileSystem.removeFile_eq_ok hr
      have := FileSystem.get_removeFile hr w.stagePath
      rw [if_pos rfl] at this
      simp only [Except.toOption, Option.getD_some, this, true_iff]
      exact Or.inl ⟨trivial, by rw [hg]; simpa using hd⟩
    | error kind =>
      simp only [Except.toOption, Option.getD_none]
      refine ⟨Or.inr, ?_⟩
      rintro (⟨-, hd⟩ | hn)
      · unfold FileSystem.removeFile at hr
        split at hr
        · assumption
        · exact absurd (by assumption) hd
        · cases hr
      · exact hn

/-! ## What an error leaves -/

/-- An error leaves the destination as it was, no staging file and an inactive writer. -/
def Atomic (result : Except NativeFailure Nat × FileSystem × LocalWriter) : Prop :=
  ∀ failure, result.1 = .error failure →
    result.2.1.get w.destination = files.get w.destination ∧ result.2.1.get w.stagePath = none ∧
      result.2.2.active = false

/-- No step fails that comes after the last one that a publish can undo. -/
structure PublishSafe : Prop where
  /-- A publish is refused once its writer is inactive and its staging file gone. -/
  refused : ∀ failure, w.ensureOpen .writerPublish = .error failure → w.active = false ∧ files.get w.stagePath = none
  /-- With a step before the replacement, the removal of the staging file does not fail too. -/
  unprepared : w.ensureOpen .writerPublish = .ok () → ∀ failure, w.prepare faults files = .error failure →
    w.StageRemovable faults files
  unreplaced : w.ensureOpen .writerPublish = .ok () → ∀ size, w.prepare faults files = .ok size →
    ∀ kind files', host.replaceFile faults files w.stagePath w.destination = (.error kind, files') →
      w.StageRemovable faults files
  /-- The rename does not fail after the old object was removed. -/
  removed : w.ensureOpen .writerPublish = .ok () → ∀ size, w.prepare faults files = .ok size →
    ∀ files', host.Removes faults files w.destination files' →
      (faults.attempt .rename (files'.rename w.stagePath w.destination)).isOk = true
  /-- The parent is synced, or the destination held the staged bytes before. -/
  synced : w.ensureOpen .writerPublish = .ok () → ∀ size, w.prepare faults files = .ok size →
    ∀ files', host.replaceFile faults files w.stagePath w.destination = (.ok (), files') → w.sync = .all →
      (faults.failure .syncParent).isSome = true → files.get w.stagePath = files.get w.destination

variable {host faults w files}

/-- A publish that is undone by removing its staging file. -/
theorem atomic_removed {failure : NativeFailure} {files₁ : FileSystem} (hne : w.stagePath ≠ w.destination)
    (hstage : files₁.get w.stagePath = files.get w.stagePath) :
    w.Atomic files (.error failure, w.removeStage faults files₁, w.takeFile.finish) ↔
      files₁.get w.destination = files.get w.destination ∧ w.StageRemovable faults files := by
  have hremovable : (w.removeStage faults files₁).get w.stagePath = none ↔ w.StageRemovable faults files := by
    rw [get_removeStage_eq_none]
    unfold StageRemovable
    rw [hstage]
  have hdest := get_removeStage faults w files₁ hne.symm
  constructor
  · intro h
    obtain ⟨hd, hs, -⟩ := h failure rfl
    exact ⟨by rw [← hdest]; exact hd, hremovable.mp hs⟩
  · rintro ⟨hd, hs⟩ - -
    exact ⟨hdest.trans hd, hremovable.mpr hs, rfl⟩

end LocalWriter

/-- A failed publish is atomic exactly when nothing fails that it cannot undo. -/
theorem failed_publish_atomic_iff (host : LocalHost) (faults : Faults) (w : LocalWriter) (files : FileSystem)
    (hw : w.Staged host) :
    w.Atomic files (w.publish host faults files) ↔ w.PublishSafe host faults files := by
  have hne := hw.ne
  unfold LocalWriter.publish
  cases hopen : w.ensureOpen .writerPublish with
  | error failure =>
    constructor
    · intro h
      obtain ⟨-, hs, ha⟩ := h failure rfl
      exact ⟨fun _ _ => ⟨ha, hs⟩, by simp [hopen], by simp [hopen], by simp [hopen], by simp [hopen]⟩
    · intro h _ _
      exact ⟨rfl, (h.refused failure hopen).2, (h.refused failure hopen).1⟩
  | ok =>
    cases hp : w.prepare faults files with
    | error failure =>
      rw [LocalWriter.complete, LocalWriter.atomic_removed hne rfl, and_iff_right rfl]
      constructor
      · intro h
        exact ⟨by simp [hopen], fun _ _ _ => h, by simp [hp], by simp [hp], by simp [hp]⟩
      · intro h
        exact h.unprepared hopen failure hp
    | ok size =>
      rw [LocalWriter.complete]
      have hstopped : ∀ kind, host.replaceFile faults files w.stagePath w.destination = (.error kind, files) →
          (∀ files', ¬ host.Removes faults files w.destination files') →
          (w.StageRemovable faults files ↔ w.PublishSafe host faults files) := by
        intro kind hr hn
        constructor
        · intro h
          exact ⟨by simp [hopen], by simp [hp], fun _ _ _ _ _ _ => h, fun _ _ _ files' hr' => absurd hr' (hn files'),
            by simp [hr]⟩
        · intro h
          exact h.unreplaced hopen size hp kind files hr
      rcases host.replaceFile_cases faults files w.stagePath w.destination with
        ⟨kind, hr, hn⟩ | ⟨files₁, hfiles, hmoved⟩
      · rw [hr, LocalWriter.replaced, LocalWriter.atomic_removed hne rfl, and_iff_right rfl]
        exact hstopped kind hr hn
      · rcases moveFile_cases faults files₁ w.stagePath w.destination with ⟨kind, hrename, hm⟩ | ⟨files₂, hrename, hm⟩
        · rw [hm] at hmoved
          rw [hmoved, LocalWriter.replaced, LocalWriter.atomic_removed hne (hfiles.get_source hne)]
          rcases hfiles with ⟨rfl, hn⟩ | hremoves
          · rw [and_iff_right rfl]
            exact hstopped kind hmoved hn
          · -- the old object is gone
            have hremove := Faults.attempt_eq_ok hremoves.2
            obtain ⟨⟨entry, hentry, -⟩, -⟩ := FileSystem.removeFile_eq_ok hremove
            constructor
            · rintro ⟨hd, -⟩
              rw [FileSystem.get_removeFile hremove, if_pos rfl, hentry] at hd
              cases hd
            · intro h
              have := h.removed hopen size hp files₁ hremoves
              rw [hrename] at this
              cases this
        · -- the new object is in place
          rw [hm] at hmoved
          obtain ⟨hdest, hgone⟩ := hfiles.get_renamed hne hrename
          have hremoved : ∀ files', host.Removes faults files w.destination files' →
              (faults.attempt .rename (files'.rename w.stagePath w.destination)).isOk = true := by
            intro files' hr'
            rcases hfiles with ⟨-, hn⟩ | hremoves
            · exact absurd hr' (hn files')
            · have : files' = files₁ := Except.ok.inj (hr'.2.symm.trans hremoves.2)
              rw [this, hrename]
              rfl
          rw [hmoved, LocalWriter.replaced]
          by_cases hs : w.sync = .all ∧ (faults.failure .syncParent).isSome = true
          · rw [if_pos hs]
            constructor
            · intro h
              obtain ⟨hd, -⟩ := h _ rfl
              exact ⟨by simp [hopen], by simp [hp], by simp [hmoved], fun _ _ _ => hremoved,
                fun _ _ _ _ _ _ _ => hdest.symm.trans hd⟩
            · intro h _ _
              exact ⟨hdest.trans (h.synced hopen size hp files₂ hmoved hs.1 hs.2), hgone, rfl⟩
          · rw [if_neg hs]
            constructor
            · intro _
              exact ⟨by simp [hopen], by simp [hp], by simp [hmoved], fun _ _ _ => hremoved,
                fun _ _ _ _ _ h₁ h₂ => absurd ⟨h₁, h₂⟩ hs⟩
            · intro _ failure hf
              cases hf

/-! ## Every writer is staged -/

/-- What a step leaves of a writer: the same files under the same policies, or nothing. -/
def LocalWriter.Carries (w : LocalWriter) : Task → Prop
  | .writer w' _ => w'.stagePath = w.stagePath ∧ w'.destination = w.destination ∧ w'.flush = w.flush ∧ w'.sync = w.sync
  | .done => True
  | _ => False

theorem LocalWriter.advance_carries (host : LocalHost) (files : FileSystem) (stageSequence : Nat)
    (fault : Option Fault) (w : LocalWriter) (phase : WriterPhase) :
    w.Carries (w.advance host files stageSequence fault phase).task := by
  cases phase with
  | idle => exact ⟨rfl, rfl, rfl, rfl⟩
  | writing chunk =>
    simp only [advance]
    split
    · exact ⟨rfl, rfl, rfl, rfl⟩
    · split <;> exact ⟨rfl, rfl, rfl, rfl⟩
  | syncing =>
    simp only [advance]
    split <;> exact ⟨rfl, rfl, rfl, rfl⟩
  | statting =>
    simp only [advance]
    split
    · exact ⟨rfl, rfl, rfl, rfl⟩
    · split <;> exact ⟨rfl, rfl, rfl, rfl⟩
  | replacing size =>
    simp only [advance]
    split <;> exact ⟨rfl, rfl, rfl, rfl⟩
  | moving size =>
    simp only [advance]
    split
    · exact ⟨rfl, rfl, rfl, rfl⟩
    · split <;> exact ⟨rfl, rfl, rfl, rfl⟩
  | syncingParent size =>
    simp only [advance]
    split <;> exact ⟨rfl, rfl, rfl, rfl⟩
  | cleaning failure =>
    simp only [advance]
    split
    · exact ⟨rfl, rfl, rfl, rfl⟩
    · trivial
  | removing =>
    simp only [advance]
    split <;> exact ⟨rfl, rfl, rfl, rfl⟩

theorem Task.step_carries (host : LocalHost) (files : FileSystem) (stageSequence : Nat)
    (fault : Option Fault) (w : LocalWriter) (phase : WriterPhase) (action : Action) :
    w.Carries ((Task.writer w phase).step host files stageSequence fault action).task := by
  have hsame : w.Carries (Task.writer w phase) := ⟨rfl, rfl, rfl, rfl⟩
  cases action with
  | advance => cases phase <;> exact w.advance_carries host files stageSequence fault _
  | cancel => cases phase <;> exact ⟨rfl, rfl, rfl, rfl⟩
  | write chunk =>
    cases phase with
    | idle =>
      simp only [Task.step, LocalWriter.beginWrite]
      split <;> exact ⟨rfl, rfl, rfl, rfl⟩
    | _ => exact hsame
  | publish =>
    cases phase with
    | idle =>
      simp only [Task.step, LocalWriter.beginPublish]
      split
      · exact ⟨rfl, rfl, rfl, rfl⟩
      · split <;> exact ⟨rfl, rfl, rfl, rfl⟩
    | _ => exact hsame
  | abort =>
    cases phase with
    | idle =>
      simp only [Task.step, LocalWriter.beginAbort]
      split <;> exact ⟨rfl, rfl, rfl, rfl⟩
    | _ => exact hsame
  | drop =>
    cases phase with
    | idle =>
      simp only [Task.step, LocalWriter.beginDrop]
      split
      · exact ⟨rfl, rfl, rfl, rfl⟩
      · trivial
    | _ => exact hsame
  | _ => cases phase <;> exact hsame

/-- The staging file of a task is named as an open names it. -/
def Task.Staged (host : LocalHost) : Task → Prop
  | .opening _ _ (.create destination stagePath _) => ∃ sequence,
    stagePath = destination.dropLast ++ [host.stageName (destination.getLast?.getD "") sequence]
  | .writer w _ => w.Staged host
  | _ => True

theorem Task.Staged.step {host : LocalHost} {t : Task} (h : t.Staged host) (files : FileSystem) (stageSequence : Nat)
    (fault : Option Fault) (action : Action) : (t.step host files stageSequence fault action).task.Staged host := by
  cases t with
  | absent =>
    cases action with
    | openWriter key options =>
      simp only [Task.step, beginOpen]
      split
      · trivial
      · split
        · trivial
        · unfold OpenPhase.parents
          split <;> trivial
    | delete key =>
      simp only [Task.step, beginDelete]
      split
      · trivial
      · split <;> trivial
    | _ => trivial
  | opening key options phase =>
    cases action with
    | advance =>
      simp only [Task.step]
      cases phase with
      | lookup current left =>
        simp only [advanceOpen]
        split
        · trivial
        · trivial
        · unfold OpenPhase.parents
          split <;> trivial
        · trivial
        · trivial
      | createDir current left =>
        simp only [advanceOpen]
        split
        · trivial
        · unfold OpenPhase.parents
          split <;> trivial
      | resolve =>
        simp only [advanceOpen]
        split
        · trivial
        · split <;> trivial
      | allocate destination attempts => exact ⟨stageSequence, rfl⟩
      | create destination stagePath attempts =>
        simp only [advanceOpen]
        split
        · exact h
        · split <;> trivial
        · trivial
    | _ => exact h
  | writer w phase =>
    have hc := Task.step_carries host files stageSequence fault w phase action
    obtain ⟨sequence, hs⟩ := h
    revert hc
    cases ((Task.writer w phase).step host files stageSequence fault action).task with
    | writer w' phase' =>
      rintro ⟨h₁, h₂, -, -⟩
      exact ⟨sequence, by rw [h₁, h₂, hs]⟩
    | done => exact fun _ => trivial
    | _ => exact False.elim
  | deleting phase =>
    cases action with
    | advance =>
      simp only [Task.step]
      cases phase with
      | resolve key =>
        simp only [advanceDelete]
        split
        · trivial
        · split <;> trivial
      | remove path =>
        simp only [advanceDelete]
        split <;> trivial
    | _ => trivial
  | done => cases action <;> trivial

/-- Every writer of a store is staged, in any interleaving. -/
theorem LocalState.staged (host : LocalHost) (initial : FileSystem) (stageSequence : Nat) (events : List StoreEvent)
    (task : Nat) : (((LocalState.machine host).run (first initial stageSequence) events).tasks task).Staged host := by
  have h0 : ((first initial stageSequence).tasks task).Staged host := trivial
  refine (LocalState.machine host).run_inv (I := fun s => (s.tasks task).Staged host) h0 ?_ events
  intro s e h
  change (Function.update s.tasks e.task _ task).Staged host
  by_cases he : task = e.task
  · rw [he] at h ⊢
    rw [Function.update_self]
    exact h.step _ _ _ _
  · rw [Function.update_of_ne he]
    exact h
/-! ## A publish that fails once its object is in place -/

def syncedHost : LocalHost := { root := ["data"], pid := 7, windows := false }

def syncedWriter : LocalWriter where
  file := true
  stagePath := ["data", ".k.parquex-7-0.tmp"]
  destination := ["data", "k"]
  flush := .beforePublish
  sync := .all
  cancelled := false
  active := true

/-- An object, and the bytes that are to replace it. -/
def syncedFiles : FileSystem :=
  ((FileSystem.set ⟨∅⟩ ["data"] .directory).set ["data", "k"] (.file [1])).set ["data", ".k.parquex-7-0.tmp"] (.file [2])

theorem syncedWriter_staged : syncedWriter.Staged syncedHost := ⟨0, by decide⟩

/-- The sync of the parent directory fails after the rename. -/
theorem failed_publish_replaces :
    ¬ syncedWriter.Atomic syncedFiles (syncedWriter.publish syncedHost (.only .syncParent .other 0) syncedFiles) := by
  intro h
  have hd := (h (.new .nativeFailure .writerPublish "destination directory sync failed") (by decide)).1
  revert hd
  decide

/-- A rename that fails on Unix leaves everything as it was. -/
theorem failed_publish_atomic_iff_rename :
    syncedWriter.Atomic syncedFiles (syncedWriter.publish syncedHost (.only .rename .other 0) syncedFiles) := by
  refine (failed_publish_atomic_iff syncedHost (.only .rename .other 0) syncedWriter syncedFiles
    syncedWriter_staged).mpr ⟨nofun, fun _ _ _ => ?_, fun _ _ _ _ _ _ => ?_, fun _ _ _ _ h => absurd h.1 nofun, ?_⟩
  · exact Or.inl ⟨rfl, by decide⟩
  · exact Or.inl ⟨rfl, by decide⟩
  · intro _ _ _ _ _ _ hsync
    revert hsync
    decide

end Parquex
