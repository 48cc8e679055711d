import Parquex.LocalObjectsSound

/-!
# What can be seen of a writer

A writer stages its bytes in a file beside its destination, under a name that is a
key itself. So whoever lists the directory or asks for that key reaches the bytes
before they are published. A file is either a staging file or an object that was
published and not deleted since; a listing shows no others.
-/

namespace Parquex

/-! ## The keys of staging files -/

theorem not_mem_toString_nat {c : Char} (hd : c.isDigit = false) (hm : c ≠ '-') (n : Nat) :
    c ∉ (toString n).toList := by
  rw [← toString_natCast]
  exact not_mem_toString hd hm n

theorem drivePrefix_append (d : String) (s t : String) (hd : d ≠ "") :
    drivePrefix (d ++ "/" ++ s) = drivePrefix (d ++ "/" ++ t) := by
  unfold drivePrefix
  have hne : d.toList ≠ [] := fun he => hd (String.toList_inj.mp he)
  simp only [String.toList_append]
  cases h : d.toList with
  | nil => exact absurd h hne
  | cons a l =>
    cases l with
    | nil => rfl
    | cons b l =>
      by_cases hb : b = ':'
      · rw [hb]
        cases l <;> rfl
      · simp [hb]

theorem drivePrefix_dot (s : String) : drivePrefix ("." ++ s) = false := by
  unfold drivePrefix
  rw [String.toList_append]
  cases s.toList with
  | nil => rfl
  | cons b l =>
    by_cases hb : b = ':'
    · rw [hb]
      cases l <;> rfl
    · simp [hb]

namespace LocalHost

variable {host : LocalHost} {key : String}

/-- The name of a staging file has no separator, and is no name of a directory. -/
theorem stageName_chars {name : String} (hfree : SlashFree name) (hback : '\\' ∉ name.toList) (sequence : Nat) :
    SlashFree (host.stageName name sequence) ∧ '\\' ∉ (host.stageName name sequence).toList := by
  have hslash := not_mem_toString_nat (c := '/') (by decide) (by decide)
  have hslash' := not_mem_toString_nat (c := '\\') (by decide) (by decide)
  unfold SlashFree at *
  unfold stageName
  simp only [String.toList_append, List.mem_append, not_or]
  exact ⟨⟨⟨⟨⟨⟨⟨by decide, hfree⟩, by decide⟩, hslash _⟩, by decide⟩, hslash _⟩, by decide⟩,
    ⟨⟨⟨⟨⟨⟨by decide, hback⟩, by decide⟩, hslash' _⟩, by decide⟩, hslash' _⟩, by decide⟩⟩

theorem stageName_ne {name : String} (sequence : Nat) :
    host.stageName name sequence ≠ "" ∧ host.stageName name sequence ≠ "." ∧ host.stageName name sequence ≠ ".." := by
  have hlength : 2 < (host.stageName name sequence).toList.length := by
    unfold stageName
    simp only [String.toList_append, List.length_append]
    have h₁ : ".parquex-".toList.length = 9 := by decide
    omega
  refine ⟨?_, ?_, ?_⟩
  all_goals
    intro he
    rw [he] at hlength
    exact absurd hlength (by decide)

/-- A staging file lies under a key. -/
theorem exists_stageKey (hk : AcceptedKey key) (sequence : Nat) :
    ∃ k, AcceptedKey k ∧
      (host.location key).dropLast ++ [host.stageName ((host.location key).getLast?.getD "") sequence] =
        host.location k := by
  obtain ⟨name, hname⟩ : ∃ name, (keyPath key).getLast? = some name := by
    rw [← Option.isSome_iff_exists, List.getLast?_isSome]
    exact hk.keyPath_ne_nil
  have hlast : (host.location key).getLast? = some name := (getLast?_location hk).trans hname
  have hdrop : (host.location key).dropLast = host.root ++ (keyPath key).dropLast :=
    List.dropLast_append_of_ne_nil hk.keyPath_ne_nil
  have hsplit : splitSlash key = (keyPath key).dropLast ++ [name] := by
    rw [← hk.keyPath_eq]
    exact (List.dropLast_append_getLast? name hname).symm
  have hback : '\\' ∉ key.toList := hk.relative.2
  rw [hlast, hdrop, Option.getD_some]
  generalize (keyPath key).dropLast = d at hsplit
  have hjoin : key = joinSlash (d ++ [name]) := by rw [← hsplit, joinSlash_splitSlash]
  have hmem : ∀ s ∈ d ++ [name], s ∈ splitSlash key := fun s hs => by rw [hsplit]; exact hs
  have hbesides : ∀ last, joinSlash (d ++ [last]) = last ∧ d = [] ∨
      joinSlash (d ++ [last]) = joinSlash d ++ "/" ++ last ∧ joinSlash d ≠ "" := by
    intro last
    by_cases hd : d = []
    · exact Or.inl ⟨by rw [hd, List.nil_append, joinSlash_singleton], hd⟩
    · refine Or.inr ⟨by rw [joinSlash_append _ _ hd (by simp), joinSlash_singleton], fun he => ?_⟩
      have hfree : ∀ s ∈ d, SlashFree s := fun s hs => slashFree_of_mem_splitSlash (hmem s (by simp [hs]))
      have hd' := splitSlash_joinSlash hd hfree
      rw [he] at hd'
      exact (hk.segment_ne (hmem "" (List.mem_append_left _ (by rw [← hd']; decide)))).1 rfl
  have hchars : ∀ last, '\\' ∉ last.toList → '\\' ∉ (joinSlash (d ++ [last])).toList := by
    intro last hl
    rcases hbesides name with ⟨hn, hd⟩ | ⟨hn, -⟩ <;> rcases hbesides last with ⟨hl', hd'⟩ | ⟨hl', hne⟩
    · rw [hl']; exact hl
    · exact absurd (by rw [hd]; rfl) hne
    · rw [hl']; exact hl
    · rw [hjoin, hn] at hback
      rw [hl']
      simp only [String.toList_append, List.mem_append, not_or] at hback ⊢
      exact ⟨hback.1, hl⟩
  have hnameback : '\\' ∉ name.toList := by
    rw [hjoin] at hback
    rcases hbesides name with ⟨hn, -⟩ | ⟨hn, -⟩
    · rw [hn] at hback
      exact hback
    · rw [hn] at hback
      simp only [String.toList_append, List.mem_append, not_or] at hback
      exact hback.2
  have hchars' : SlashFree (host.stageName name sequence) ∧ '\\' ∉ (host.stageName name sequence).toList :=
    stageName_chars (slashFree_of_mem_splitSlash (hmem name (by simp))) hnameback sequence
  obtain ⟨hfree, hstage⟩ := hchars'
  have hksplit : splitSlash (joinSlash (d ++ [host.stageName name sequence])) = d ++ [host.stageName name sequence] := by
    refine splitSlash_joinSlash (by simp) fun s hs => ?_
    rcases List.mem_append.mp hs with hs | hs
    · exact slashFree_of_mem_splitSlash (hmem s (by simp [hs]))
    · rw [List.mem_singleton.mp hs]
      exact hfree
  have hsegments : ∀ s ∈ d ++ [host.stageName name sequence], s ≠ "" ∧ s ≠ "." ∧ s ≠ ".." := by
    intro s hs
    rcases List.mem_append.mp hs with hs | hs
    · exact hk.segment_ne (hmem s (by simp [hs]))
    · rw [List.mem_singleton.mp hs]
      exact stageName_ne sequence
  have hdrive : drivePrefix (joinSlash (d ++ [host.stageName name sequence])) = false := by
    rcases hbesides (host.stageName name sequence) with ⟨hs, -⟩ | ⟨hs, hne⟩
    · rw [hs]
      unfold stageName
      simp only [String.append_assoc]
      exact drivePrefix_dot _
    · rcases hbesides name with ⟨-, hd⟩ | ⟨hn, -⟩
      · exact absurd (by rw [hd]; rfl) hne
      · rw [hs, drivePrefix_append _ _ name hne, ← hn, ← hjoin]
        exact (acceptedKey_iff_relative.mp hk).2
  have haccepted : AcceptedKey (joinSlash (d ++ [host.stageName name sequence])) := by
    refine acceptedKey_iff_relative.mpr ⟨⟨?_, hchars _ hstage⟩, hdrive⟩
    rw [hksplit]
    exact hsegments
  refine ⟨_, haccepted, ?_⟩
  unfold location
  rw [haccepted.keyPath_eq, hksplit, List.append_assoc]

end LocalHost

/-! ## Where files come from -/

/-- A store, and the paths at which the last file to be put there was a staging file. -/
structure Watched where
  state : LocalState
  staging : List Path

/-- An open puts a staging file beside its destination, and a publish puts an object at it. -/
def stagingAfter (staging : List Path) : StoreReply → Task → List Path
  | .opened, .writer w _ => w.stagePath :: staging
  | .published _, .writer w _ => staging.filter fun p => p ≠ w.destination
  | _, _ => staging

namespace Watched

def first (files : FileSystem) (stageSequence : Nat) : Watched := ⟨LocalState.first files stageSequence, []⟩

def step (host : LocalHost) (s : Watched) (event : StoreEvent) : StoreReply × Watched :=
  let result := s.state.step host event
  (result.1, ⟨result.2, stagingAfter s.staging result.1 (result.2.tasks event.task)⟩)

def machine (host : LocalHost) : Machine Watched StoreEvent StoreReply := ⟨step host⟩

/-- A staging file is at the path. -/
def Staging (s : Watched) (p : Path) : Prop := p ∈ s.staging ∧ s.state.files.content p ≠ none

end Watched

/-- The library opens its writers without asking for a synchronised directory. -/
def StoreEvent.FromLibrary (event : StoreEvent) : Prop :=
  ∀ key options, event.action = .openWriter key options → options.sync ≠ .all

/-! ## The invariant -/

section
variable (host : LocalHost) (key : String)

def OpenPhase.Sound : OpenPhase → Prop
  | .allocate destination _ => destination = host.location key
  | .create destination stagePath _ =>
    destination = host.location key ∧ ∃ k, AcceptedKey k ∧ stagePath = host.location k
  | _ => True

def DeletePhase.Sound : DeletePhase → Prop
  | .resolve k => k = key
  | .remove path => path = host.location key

structure LocalWriter.Sound (w : LocalWriter) (phase : WriterPhase) : Prop where
  accepted : AcceptedKey key
  destination : w.destination = host.location key
  stagePath : ∃ k, AcceptedKey k ∧ w.stagePath = host.location k
  sync : w.sync ≠ .all
  phase : ∀ size, phase ≠ .syncingParent size

/-- A task works on its own key, and stages under a key. -/
def Task.Sound : Task → Prop
  | .opening k options phase => k = key ∧ AcceptedKey key ∧ options.sync ≠ .all ∧ phase.Sound host key
  | .writer w phase => w.Sound host key phase
  | .deleting phase => AcceptedKey key ∧ phase.Sound host key
  | _ => True

/-- Every object is a staging file, or has been published and not deleted since. -/
def Accounted (l : Ledger) (files : FileSystem) (staging : List Path) : Prop :=
  ∀ key, AcceptedKey key → files.content (host.location key) ≠ none →
    host.location key ∈ staging ∨ l.contents key ≠ none

/-- The reply tells that a file came or that an object went. -/
def StoreReply.tells : StoreReply → Bool
  | .opened => true
  | .published _ => true
  | .deleted => true
  | _ => false

structure Watched.Inv (l : Ledger) (s : Watched) : Prop where
  tree : host.ObjectTree s.state.files
  tasks : ∀ task, (s.state.tasks task).Sound host (l.key task)
  accounted : Accounted host l s.state.files s.staging

/-- What a step of one task keeps. -/
structure StepSound (l : Ledger) (s : Watched) (event : StoreEvent) (r : TaskStep) : Prop where
  tree : host.ObjectTree r.files
  task : r.task.Sound host ((l.observe (event, r.reply)).key event.task)
  accounted : Accounted host (l.observe (event, r.reply)) r.files (stagingAfter s.staging r.reply r.task)

end

namespace Watched

section
variable {host : LocalHost} {l : Ledger} {s : Watched} {event : StoreEvent} {r : TaskStep} {files : FileSystem}
  {stageSequence : Nat} {new : Task}

theorem Inv.next (h : s.Inv host l) (hstep : StepSound host l s event r) (hr : r = (s.state.tasks event.task).step host
    s.state.files s.state.stageSequence event.fault event.action) :
    Watched.Inv host (l.observe (event, (s.step host event).1)) (s.step host event).2 := by
  subst hr
  refine ⟨hstep.tree, fun task => ?_, ?_⟩
  · change (Function.update s.state.tasks event.task _ task).Sound host _
    by_cases ht : task = event.task
    · rw [ht, Function.update_self]
      exact hstep.task
    · rw [Function.update_of_ne ht]
      have hother := l.observe_other (event, (s.step host event).1) ht
      rw [hother.1]
      exact h.tasks task
  · have htask : (s.state.step host event).2.tasks event.task =
        ((s.state.tasks event.task).step host s.state.files s.state.stageSequence event.fault event.action).task :=
      Function.update_self ..
    change Accounted host _ _ (stagingAfter s.staging _ ((s.state.step host event).2.tasks event.task))
    rw [htask]
    exact hstep.accounted

/-- A step that puts no file anywhere. -/
theorem Inv.quiet (h : s.Inv host l) (htree : host.ObjectTree files)
    (hfiles : ∀ p, files.content p ≠ none → s.state.files.content p ≠ none) {reply : StoreReply}
    (hreply : reply.tells = false)
    (hself : new.Sound host ((l.observe (event, reply)).key event.task)) :
    StepSound host l s event ⟨reply, files, stageSequence, new⟩ where
  tree := htree
  task := hself
  accounted := by
    have hstaging : stagingAfter s.staging reply new = s.staging := by
      unfold stagingAfter
      split
      · cases hreply
      · cases hreply
      · rfl
    have hp : ∀ metadata, reply ≠ .published metadata := by
      rintro metadata rfl
      cases hreply
    have hd : reply ≠ .deleted := by
      rintro rfl
      cases hreply
    intro key hk hc
    rw [hstaging, l.observe_contents event hp hd]
    exact h.accounted key hk (hfiles _ hc)

/-! ## What each call keeps -/

section
variable {task : Nat} {fault : Option Fault} {key : String} {options : WriteOptions} {w : LocalWriter}
  {phase : WriterPhase}

theorem beginOpen_sound (h : s.Inv host l) (hsync : options.sync ≠ .all) :
    StepSound host l s ⟨task, .openWriter key options, fault⟩
      (beginOpen host s.state.files s.state.stageSequence key options) := by
  unfold beginOpen
  cases hn : normalizeKey key with
  | error error => exact h.quiet h.tree (fun _ => id) rfl trivial
  | ok k =>
    obtain ⟨rfl, hacc⟩ := normalizeKey_eq_ok hn
    simp only [hacc.validateKey]
    refine h.quiet h.tree (fun _ => id) rfl ?_
    have hkey : (l.begin ⟨task, .openWriter k options, fault⟩).key task = k := Function.update_self ..
    refine ⟨hkey.symm, ?_, hsync, ?_⟩
    · change AcceptedKey ((l.begin ⟨task, .openWriter k options, fault⟩).key task)
      rw [hkey]
      exact hacc
    · cases (keyPath k).dropLast <;> trivial

theorem beginDelete_sound (h : s.Inv host l) :
    StepSound host l s ⟨task, .delete key, fault⟩ (beginDelete s.state.files s.state.stageSequence key) := by
  unfold beginDelete
  cases hn : normalizeKey key with
  | error error => exact h.quiet h.tree (fun _ => id) rfl trivial
  | ok k =>
    obtain ⟨rfl, hacc⟩ := normalizeKey_eq_ok hn
    simp only [hacc.validateKey]
    refine h.quiet h.tree (fun _ => id) rfl ?_
    have hkey : (l.begin ⟨task, .delete k, fault⟩).key task = k := Function.update_self ..
    refine ⟨?_, hkey.symm⟩
    change AcceptedKey ((l.begin ⟨task, .delete k, fault⟩).key task)
    rw [hkey]
    exact hacc

theorem advanceOpen_sound (h : s.Inv host l) {phase : OpenPhase} (hs : s.state.tasks task = .opening key options phase) :
    StepSound host l s ⟨task, .advance, fault⟩
      (advanceOpen host s.state.files s.state.stageSequence fault key options phase) := by
  have ht := h.tasks task
  rw [hs] at ht
  obtain ⟨rfl, hk, hsync, hph⟩ := ht
  have hdone : ∀ failure stageSequence, StepSound host l s ⟨task, .advance, fault⟩
      ⟨.failed failure, s.state.files, stageSequence, .done⟩ := fun failure stageSequence =>
    h.quiet h.tree (fun _ => id) rfl trivial
  have hnext : ∀ (phase' : OpenPhase) stageSequence, phase'.Sound host (l.key task) →
      StepSound host l s ⟨task, .advance, fault⟩
        ⟨.running, s.state.files, stageSequence, .opening (l.key task) options phase'⟩ := fun phase' stageSequence hp =>
    h.quiet h.tree (fun _ => id) rfl ⟨rfl, hk, hsync, hp⟩
  have hparents : ∀ current left, (OpenPhase.parents current left).Sound host (l.key task) := by
    intro current left
    cases left <;> trivial
  cases phase with
  | lookup current left =>
    simp only [advanceOpen]
    split
    · exact hdone _ _
    · exact hdone _ _
    · exact hnext _ _ (hparents _ _)
    · exact hnext _ _ trivial
    · exact hdone _ _
  | createDir current left =>
    simp only [advanceOpen]
    cases hc : attempt fault .createDir (s.state.files.createDir current) with
    | error kind => exact hdone _ _
    | ok files' =>
      have hd := attempt_eq_ok hc
      refine h.quiet (h.tree.createDir hd) (fun p => ?_) rfl ⟨rfl, hk, hsync, hparents _ _⟩
      rw [FileSystem.content_createDir hd]
      exact id
  | resolve =>
    simp only [advanceOpen]
    split
    · exact hdone _ _
    · cases hr : host.resolveDestination s.state.files (host.location (l.key task)) .writerOpen with
      | error failure => exact hdone _ _
      | ok destination => exact hnext _ _ (h.tree.resolveDestination_eq hk hr)
  | allocate destination attempts =>
    refine hnext _ _ ⟨hph, ?_⟩
    have hdest : destination = host.location (l.key task) := hph
    rw [hdest]
    exact LocalHost.exists_stageKey hk _
  | create destination stagePath attempts =>
    obtain ⟨hdest, k, hstage, hpath⟩ := hph
    simp only [advanceOpen]
    cases hc : attempt fault .createNew (s.state.files.createNew stagePath) with
    | error kind =>
      cases kind with
      | alreadyExists =>
        cases attempts with
        | zero => exact hdone _ _
        | succ attempts => exact hnext _ _ hdest
      | _ => exact hdone _ _
    | ok files' =>
      have hn := attempt_eq_ok hc
      refine ⟨?_, ?_, ?_⟩
      · rw [hpath] at hn
        exact h.tree.createNew hstage hn
      · exact ⟨hk, hdest, ⟨k, hstage, hpath⟩, hsync, (by simp)⟩
      · intro key' hk' hc'
        rw [FileSystem.content_createNew hn] at hc'
        split at hc'
        · rename_i he
          exact Or.inl (by rw [he]; exact List.mem_cons_self)
        · rcases h.accounted key' hk' hc' with hm | hm
          · exact Or.inl (List.mem_cons_of_mem _ hm)
          · exact Or.inr hm

theorem advanceDelete_sound (h : s.Inv host l) {phase : DeletePhase} (hs : s.state.tasks task = .deleting phase) :
    StepSound host l s ⟨task, .advance, fault⟩
      (advanceDelete host s.state.files s.state.stageSequence fault phase) := by
  have ht := h.tasks task
  rw [hs] at ht
  obtain ⟨hk, hph⟩ := ht
  have hdone : ∀ failure, StepSound host l s ⟨task, .advance, fault⟩
      ⟨.failed failure, s.state.files, s.state.stageSequence, .done⟩ := fun failure =>
    h.quiet h.tree (fun _ => id) rfl trivial
  cases phase with
  | resolve k =>
    have hkey : k = l.key task := hph
    simp only [advanceDelete]
    split
    · exact hdone _
    · cases hr : host.resolveExisting s.state.files (host.location k) .delete with
      | error failure => exact hdone _
      | ok path =>
        rw [hkey] at hr
        exact h.quiet h.tree (fun _ => id) rfl ⟨hk, h.tree.resolveExisting_eq hk hr⟩
  | remove path =>
    have hpath : path = host.location (l.key task) := hph
    simp only [advanceDelete]
    cases hr : attempt fault .removeObject (s.state.files.removeFile path) with
    | error kind => exact hdone _
    | ok files' =>
      have hremove := attempt_eq_ok hr
      refine ⟨h.tree.removeFile hremove, trivial, fun key' hk' hc => ?_⟩
      rw [FileSystem.content_removeFile hremove] at hc
      split at hc
      · exact absurd rfl hc
      · rename_i hne
        rcases h.accounted key' hk' hc with hm | hm
        · exact Or.inl hm
        · refine Or.inr ?_
          change Function.update l.contents (l.key task) none key' ≠ none
          rw [Function.update_of_ne fun he => hne (by rw [he, hpath])]
          exact hm

/-- The same writer in another phase. -/
theorem writer_sound {w' : LocalWriter} {phase' : WriterPhase} (hw : w.Sound host key phase)
    (hsame : w'.stagePath = w.stagePath ∧ w'.destination = w.destination ∧ w'.sync = w.sync)
    (hph : ∀ size, phase' ≠ .syncingParent size) : w'.Sound host key phase' := by
  obtain ⟨h₁, h₂, h₃⟩ := hsame
  exact ⟨hw.accepted, by rw [h₂]; exact hw.destination, by rw [h₁]; exact hw.stagePath, by rw [h₃]; exact hw.sync, hph⟩

theorem cleanup_sound (h : s.Inv host l) (hs : s.state.tasks task = .writer w phase) {action : Action}
    (hact : action = .publish ∨ action = .advance) (failure : NativeFailure) :
    StepSound host l s ⟨task, action, fault⟩ (w.cleanup s.state.files s.state.stageSequence failure) := by
  have ht := h.tasks task
  rw [hs] at ht
  refine h.quiet h.tree (fun _ => id) rfl ?_
  rcases hact with rfl | rfl <;> exact writer_sound ht ⟨rfl, rfl, rfl⟩ nofun

theorem beginWrite_sound (h : s.Inv host l) (hs : s.state.tasks task = .writer w phase) (chunk : Bytes) :
    StepSound host l s ⟨task, .write chunk, fault⟩ (w.beginWrite s.state.files s.state.stageSequence chunk) := by
  have ht := h.tasks task
  rw [hs] at ht
  unfold LocalWriter.beginWrite
  cases w.ensureOpen .writerWrite with
  | error failure => exact h.quiet h.tree (fun _ => id) rfl (writer_sound ht ⟨rfl, rfl, rfl⟩ nofun)
  | ok => exact h.quiet h.tree (fun _ => id) rfl (writer_sound ht ⟨rfl, rfl, rfl⟩ nofun)

theorem beginPublish_sound (h : s.Inv host l) (hs : s.state.tasks task = .writer w phase) :
    StepSound host l s ⟨task, .publish, fault⟩ (w.beginPublish s.state.files s.state.stageSequence fault) := by
  have ht := h.tasks task
  rw [hs] at ht
  unfold LocalWriter.beginPublish
  cases w.ensureOpen .writerPublish with
  | error failure => exact h.quiet h.tree (fun _ => id) rfl (writer_sound ht ⟨rfl, rfl, rfl⟩ nofun)
  | ok =>
    simp only
    split
    · exact cleanup_sound h hs (Or.inl rfl) _
    · refine h.quiet h.tree (fun _ => id) rfl (writer_sound ht ⟨rfl, rfl, rfl⟩ ?_)
      split <;> nofun

theorem beginAbort_sound (h : s.Inv host l) (hs : s.state.tasks task = .writer w phase) :
    StepSound host l s ⟨task, .abort, fault⟩ (w.beginAbort s.state.files s.state.stageSequence) := by
  have ht := h.tasks task
  rw [hs] at ht
  unfold LocalWriter.beginAbort
  split
  · exact h.quiet h.tree (fun _ => id) rfl (writer_sound ht ⟨rfl, rfl, rfl⟩ nofun)
  · exact h.quiet h.tree (fun _ => id) rfl (writer_sound ht ⟨rfl, rfl, rfl⟩ nofun)

theorem beginDrop_sound (h : s.Inv host l) (hs : s.state.tasks task = .writer w phase) :
    StepSound host l s ⟨task, .drop, fault⟩ (w.beginDrop s.state.files s.state.stageSequence) := by
  have ht := h.tasks task
  rw [hs] at ht
  unfold LocalWriter.beginDrop
  split
  · exact h.quiet h.tree (fun _ => id) rfl (writer_sound ht ⟨rfl, rfl, rfl⟩ nofun)
  · exact h.quiet h.tree (fun _ => id) rfl trivial

/-- A step that removes a file, if the environment lets it. -/
theorem removed_sound (h : s.Inv host l) {path : Path} {call : SystemCall} {files' : FileSystem}
    (hr : attempt fault call (s.state.files.removeFile path) = .ok files') {reply : StoreReply}
    (hreply : reply.tells = false)
    (hself : new.Sound host ((l.observe (event, reply)).key event.task)) :
    StepSound host l s event ⟨reply, files', stageSequence, new⟩ := by
  have hremove := attempt_eq_ok hr
  refine h.quiet (h.tree.removeFile hremove) (fun p hc => ?_) hreply hself
  rw [FileSystem.content_removeFile hremove] at hc
  split at hc
  · exact absurd rfl hc
  · exact hc

/-- A rename publishes an object where its key says. -/
theorem moved_sound (h : s.Inv host l) (hs : s.state.tasks task = .writer w phase) {files' : FileSystem}
    (hr : s.state.files.rename w.stagePath w.destination = .ok files') (size : Nat) :
    StepSound host l s ⟨task, .advance, fault⟩
      (if w.sync = .all then ⟨.running, files', s.state.stageSequence, .writer w (.syncingParent size)⟩
        else ⟨w.publishedReply host size, files', s.state.stageSequence, .writer w.finish .idle⟩) := by
  have ht := h.tasks task
  rw [hs] at ht
  obtain ⟨k, hstage, hpath⟩ := ht.stagePath
  rw [if_neg ht.sync, LocalWriter.publishedReply, ht.destination, LocalHost.localMetadata_location]
  rw [ht.destination, hpath] at hr
  refine ⟨h.tree.rename ht.accepted hr, writer_sound ht ⟨rfl, rfl, rfl⟩ (by simp), fun key' hk' hc => ?_⟩
  change _ ∨ Function.update l.contents (l.key task) (some (l.accepted task)) key' ≠ none
  by_cases he : key' = l.key task
  · refine Or.inr ?_
    rw [he, Function.update_self]
    exact Option.some_ne_none _
  · have hne : host.location key' ≠ host.location (l.key task) := fun hl =>
      he (LocalHost.location_inj hk' ht.accepted hl)
    rw [FileSystem.content_rename hr, if_neg hne] at hc
    have hold : s.state.files.content (host.location key') ≠ none := by
      split at hc
      · exact absurd rfl hc
      · exact hc
    rw [Function.update_of_ne he]
    rcases h.accounted key' hk' hold with hm | hm
    · refine Or.inl (List.mem_filter.mpr ⟨hm, ?_⟩)
      change decide (host.location key' ≠ w.destination) = true
      rw [ht.destination]
      exact decide_eq_true hne
    · exact Or.inr hm

theorem append_sound (h : s.Inv host l) {path : Path} {bytes : Bytes} {reply : StoreReply}
    (hreply : reply.tells = false)
    (hself : new.Sound host ((l.observe (event, reply)).key event.task)) :
    StepSound host l s event ⟨reply, s.state.files.append path bytes, stageSequence, new⟩ := by
  refine h.quiet (h.tree.append bytes) (fun p hc => ?_) hreply hself
  rw [FileSystem.content_append] at hc
  split at hc
  · rename_i he
    intro hn
    rw [he] at hn
    rw [hn] at hc
    exact hc rfl
  · exact hc

theorem advance_sound (h : s.Inv host l) (hs : s.state.tasks task = .writer w phase) :
    StepSound host l s ⟨task, .advance, fault⟩
      (w.advance host s.state.files s.state.stageSequence fault phase) := by
  have ht := h.tasks task
  rw [hs] at ht
  have hsame : ∀ (w' : LocalWriter) (phase' : WriterPhase),
      w'.stagePath = w.stagePath ∧ w'.destination = w.destination ∧ w'.sync = w.sync →
      (∀ size, phase' ≠ .syncingParent size) → w'.Sound host (l.key task) phase' :=
    fun _ _ => writer_sound ht
  cases phase with
  | idle => exact h.quiet h.tree (fun _ => id) rfl ht
  | writing chunk =>
    simp only [LocalWriter.advance]
    split
    · exact append_sound h rfl (hsame _ _ ⟨rfl, rfl, rfl⟩ (by simp))
    · split
      · exact append_sound h rfl (hsame _ _ ⟨rfl, rfl, rfl⟩ (by simp))
      · exact append_sound h rfl (hsame _ _ ⟨rfl, rfl, rfl⟩ (by simp))
  | syncing =>
    simp only [LocalWriter.advance]
    split
    · exact cleanup_sound h hs (Or.inr rfl) _
    · exact h.quiet h.tree (fun _ => id) rfl (hsame _ _ ⟨rfl, rfl, rfl⟩ (by simp))
  | statting =>
    simp only [LocalWriter.advance]
    split
    · exact cleanup_sound h hs (Or.inr rfl) _
    · cases metadataFor s.state.files w.stagePath .writerPublish with
      | error failure => exact cleanup_sound h hs (Or.inr rfl) _
      | ok size =>
        refine h.quiet h.tree (fun _ => id) rfl (hsame _ _ ⟨rfl, rfl, rfl⟩ ?_)
        split <;> simp
  | replacing size =>
    simp only [LocalWriter.advance]
    cases hr : attempt fault .removeDestination (s.state.files.removeFile w.destination) with
    | ok files' => exact removed_sound h hr rfl (hsame _ _ ⟨rfl, rfl, rfl⟩ (by simp))
    | error kind =>
      cases kind with
      | notFound => exact h.quiet h.tree (fun _ => id) rfl (hsame _ _ ⟨rfl, rfl, rfl⟩ (by simp))
      | _ => exact cleanup_sound h hs (Or.inr rfl) _
  | moving size =>
    simp only [LocalWriter.advance]
    cases hr : attempt fault .rename (s.state.files.rename w.stagePath w.destination) with
    | error kind => exact cleanup_sound h hs (Or.inr rfl) _
    | ok files' => exact moved_sound h hs (attempt_eq_ok hr) size
  | syncingParent size => exact absurd rfl (ht.phase size)
  | cleaning failure =>
    simp only [LocalWriter.advance]
    cases hr : attempt fault .removeStage (s.state.files.removeFile w.stagePath) with
    | error kind =>
      cases failure with
      | none => exact h.quiet h.tree (fun _ => id) rfl trivial
      | some failure => exact h.quiet h.tree (fun _ => id) rfl (hsame _ _ ⟨rfl, rfl, rfl⟩ (by simp))
    | ok files' =>
      cases failure with
      | none => exact removed_sound h hr rfl trivial
      | some failure => exact removed_sound h hr rfl (hsame _ _ ⟨rfl, rfl, rfl⟩ (by simp))
  | removing =>
    simp only [LocalWriter.advance]
    cases hr : attempt fault .removeStage (s.state.files.removeFile w.stagePath) with
    | ok files' => exact removed_sound h hr rfl (hsame _ _ ⟨rfl, rfl, rfl⟩ (by simp))
    | error kind =>
      cases kind with
      | notFound => exact h.quiet h.tree (fun _ => id) rfl (hsame _ _ ⟨rfl, rfl, rfl⟩ (by simp))
      | _ => exact h.quiet h.tree (fun _ => id) rfl (hsame _ _ ⟨rfl, rfl, rfl⟩ (by simp))

end

theorem step_sound (h : s.Inv host l) (he : event.FromLibrary) :
    StepSound host l s event
      ((s.state.tasks event.task).step host s.state.files s.state.stageSequence event.fault event.action) := by
  obtain ⟨task, action, fault⟩ := event
  have hblocked : StepSound host l s ⟨task, action, fault⟩
      ⟨.blocked, s.state.files, s.state.stageSequence, s.state.tasks task⟩ :=
    h.quiet h.tree (fun _ => id) rfl (h.tasks task)
  change StepSound host l s ⟨task, action, fault⟩
    ((s.state.tasks task).step host s.state.files s.state.stageSequence fault action)
  cases hs : s.state.tasks task with
  | absent =>
    rw [hs] at hblocked
    cases action with
    | openWriter key options => exact beginOpen_sound h (he key options rfl)
    | delete key => exact beginDelete_sound h
    | _ => exact hblocked
  | opening key options phase =>
    rw [hs] at hblocked
    cases action with
    | advance => exact advanceOpen_sound h hs
    | _ => exact hblocked
  | deleting phase =>
    rw [hs] at hblocked
    cases action with
    | advance => exact advanceDelete_sound h hs
    | _ => exact hblocked
  | done =>
    rw [hs] at hblocked
    exact hblocked
  | writer w phase =>
    have ht := h.tasks task
    rw [hs] at hblocked ht
    cases action with
    | cancel =>
      have hcancel : StepSound host l s ⟨task, .cancel, fault⟩
          ⟨.running, s.state.files, s.state.stageSequence, .writer w.cancel phase⟩ :=
        h.quiet h.tree (fun _ => id) rfl (writer_sound ht ⟨rfl, rfl, rfl⟩ ht.phase)
      cases phase <;> exact hcancel
    | advance => cases phase <;> exact advance_sound h hs
    | write chunk =>
      cases phase with
      | idle => exact beginWrite_sound h hs chunk
      | _ => exact hblocked
    | publish =>
      cases phase with
      | idle => exact beginPublish_sound h hs
      | _ => exact hblocked
    | abort =>
      cases phase with
      | idle => exact beginAbort_sound h hs
      | _ => exact hblocked
    | drop =>
      cases phase with
      | idle => exact beginDrop_sound h hs
      | _ => exact hblocked
    | _ => cases phase <;> exact hblocked

theorem first_sound {initial : FileSystem} (htree : host.ObjectTree initial) (stageSequence : Nat) :
    (first initial stageSequence).Inv host (Ledger.first fun key => initial.content (host.location key)) :=
  ⟨htree, fun _ => trivial, fun _ _ hc => Or.inr hc⟩

/-- In every state that is reached, each object is accounted for. -/
theorem run_sound {initial : FileSystem} (htree : host.ObjectTree initial) (stageSequence : Nat)
    {events : List StoreEvent} (hevents : ∀ event ∈ events, event.FromLibrary) :
    ((machine host).run (first initial stageSequence) events).Inv host
      ((Ledger.first fun key => initial.content (host.location key)).after
        ((machine host).trace (first initial stageSequence) events)) := by
  refine (machine host).trace_inv_of (P := StoreEvent.FromLibrary)
    (I := fun history s =>
      s.Inv host ((Ledger.first fun key => initial.content (host.location key)).after history))
    (first_sound htree stageSequence) ?_ hevents
  intro history s event he hs
  rw [Ledger.after_concat]
  exact hs.next (step_sound hs he) rfl

end

/-! ## What is seen -/

section
variable {host : LocalHost} {s : Watched} {l : Ledger} {key : String}

theorem Staging.exists_file (h : s.Staging (host.location key)) :
    ∃ content, s.state.files.get (host.location key) = some (.file content) := by
  have hc := h.2
  unfold FileSystem.content at hc
  split at hc
  · rename_i content hg
    exact ⟨content, hg⟩
  · exact absurd rfl hc

/-- A listing shows the objects that are published, and the staging files that lie where it looks. -/
theorem Inv.list_iff (h : s.Inv host l) {maxRangeBytes : Nat} {text pre : String}
    (hn : normalizeListPrefix text = .ok pre) :
    (∀ entries, (host.store maxRangeBytes).list s.state.files text = .ok entries →
        ∀ key ∈ entries.map Metadata.key, l.contents key ≠ none ∧ ¬ s.Staging (host.location key)) ↔
      host.UnderObject s.state.files pre ∨
        ∀ key, host.Listed s.state.files pre key → ¬ s.Staging (host.location key) := by
  rcases h.tree.storeList_normalized hn with ⟨hunder, herror⟩ | ⟨hstop, found, hfound, hlists⟩
  · refine iff_of_true (fun entries hentries => ?_) (Or.inl hunder)
    rw [LocalHost.store_list hn, herror] at hentries
    cases hentries
  · rw [or_iff_right hstop]
    have hlist : (host.store maxRangeBytes).list s.state.files text =
        .ok (found.map fun entry => .fromNative entry.path entry) := by
      rw [LocalHost.store_list hn, hfound]
      rfl
    have hmem : ∀ key, key ∈ (found.map fun entry => Metadata.fromNative entry.path entry).map Metadata.key ↔
        host.Listed s.state.files pre key := by
      intro key
      rw [LocalHost.map_fromNative]
      exact hlists.keys key
    constructor
    · intro hall key hkey
      exact (hall _ hlist key ((hmem key).mpr hkey)).2
    · intro hnone entries hentries key hkey
      rw [hlist] at hentries
      cases hentries
      have hlisted := (hmem key).mp hkey
      refine ⟨?_, hnone key hlisted⟩
      obtain ⟨⟨hk, content, hg⟩, -⟩ := hlisted
      have hc : s.state.files.content (host.location key) ≠ none := by
        unfold FileSystem.content
        rw [hg]
        exact Option.some_ne_none _
      rcases h.accounted key hk hc with hm | hm
      · exact absurd ⟨hm, hc⟩ (hnone key ((hmem key).mp hkey))
      · exact hm

end

/-- What the calls of the library show of the files that its writers stage. -/
theorem staged_invisible_iff (host : LocalHost) (initial : FileSystem) (stageSequence maxRangeBytes : Nat)
    (events : List StoreEvent) (htree : host.ObjectTree initial) (hevents : ∀ event ∈ events, event.FromLibrary) :
    let s := (machine host).run (first initial stageSequence) events
    let ledger := (Ledger.first fun key => initial.content (host.location key)).after
      ((machine host).trace (first initial stageSequence) events)
    let store := host.store maxRangeBytes
    (∀ text pre, normalizeListPrefix text = .ok pre →
      ((∀ entries, store.list s.state.files text = .ok entries →
          ∀ key ∈ entries.map Metadata.key, ledger.contents key ≠ none ∧ ¬ s.Staging (host.location key)) ↔
        host.UnderObject s.state.files pre ∨
          ∀ key, host.Listed s.state.files pre key → ¬ s.Staging (host.location key))) ∧
    ∀ key, AcceptedKey key →
      ((s.Staging (host.location key) → ∀ metadata, store.head s.state.files key ≠ .ok metadata) ↔
          ¬ s.Staging (host.location key)) ∧
        ((s.Staging (host.location key) → ∀ offset length bytes,
            store.readRange s.state.files key offset length ≠ .ok bytes) ↔ ¬ s.Staging (host.location key)) ∧
        ((s.Staging (host.location key) → ∀ files, store.delete s.state.files key ≠ .ok files) ↔
          ¬ s.Staging (host.location key)) := by
  have h := run_sound htree stageSequence hevents
  refine ⟨fun text pre hn => h.list_iff hn, fun key hk => ⟨?_, ?_, ?_⟩⟩
  · refine ⟨fun hno hs => ?_, fun hno hs => absurd hs hno⟩
    obtain ⟨content, hg⟩ := hs.exists_file
    refine hno hs (.fromNative key { path := key, size := content.length }) ?_
    have hhead := h.tree.storeHead_file hk hg
    rw [Store.head_eq hk]
    change Store.nativeResult (host.storeHead _ key) >>= _ = _
    rw [hhead]
    rfl
  · refine ⟨fun hno hs => ?_, fun hno hs => absurd hs hno⟩
    obtain ⟨content, hg⟩ := hs.exists_file
    refine hno hs 0 0 [] ?_
    have hread := h.tree.storeReadRange_file hk hg 0 0
    rw [Store.readRange_eq hk (Nat.zero_le _) (by decide) (by decide)]
    change TimePartition.nativeResult (host.storeReadRange _ key 0 0) = _
    rw [hread]
    rfl
  · refine ⟨fun hno hs => ?_, fun hno hs => absurd hs hno⟩
    obtain ⟨content, hg⟩ := hs.exists_file
    have hdelete := h.tree.storeDelete_file hk hg
    refine hno hs (((machine host).run (first initial stageSequence) events).state.files.unset (host.location key)) ?_
    rw [Store.delete_eq hk]
    change Store.nativeResult (host.storeDelete _ key) = _
    rw [hdelete]
    rfl

/-! ## One writer -/

def stagedHost : LocalHost := { root := [], pid := 7, windows := false }

/-- A writer has been opened and has written a byte. -/
def stagedEvents : List StoreEvent :=
  [⟨0, .openWriter "a" { flush := .beforePublish, sync := .none }, none⟩, ⟨0, .advance, none⟩, ⟨0, .advance, none⟩,
    ⟨0, .advance, none⟩, ⟨0, .write [9], none⟩, ⟨0, .advance, none⟩]

theorem stagedEvents_fromLibrary : ∀ event ∈ stagedEvents, event.FromLibrary := by
  intro event he key options ha
  simp only [stagedEvents, List.mem_cons, List.not_mem_nil, or_false] at he
  rcases he with rfl | rfl | rfl | rfl | rfl | rfl <;> cases ha
  decide

theorem staged_invisible_iff_one :
    let s := (machine stagedHost).run (first ⟨∅⟩ 5) stagedEvents
    (s.Staging (stagedHost.location "a") →
        ∀ metadata, (stagedHost.store 8388608).head s.state.files "a" ≠ .ok metadata) ↔
      ¬ s.Staging (stagedHost.location "a") :=
  ((staged_invisible_iff stagedHost ⟨∅⟩ 5 8388608 stagedEvents (LocalHost.objectTree_of_fits rfl (by decide))
    stagedEvents_fromLibrary).2 "a" (by decide)).1

/-- Nothing is published, and yet the byte is listed, read and removed. -/
theorem staged_bytes_visible :
    let s := (machine stagedHost).run (first ⟨∅⟩ 5) stagedEvents
    let ledger := (Ledger.first fun key => (FileSystem.mk ∅).content (stagedHost.location key)).after
      ((machine stagedHost).trace (first ⟨∅⟩ 5) stagedEvents)
    let store := stagedHost.store 8388608
    ledger.contents ".a.parquex-7-5.tmp" = none ∧
      store.list s.state.files "" = .ok [{ key := ".a.parquex-7-5.tmp", size := 1 }] ∧
      store.head s.state.files ".a.parquex-7-5.tmp" = .ok { key := ".a.parquex-7-5.tmp", size := 1 } ∧
      store.readRange s.state.files ".a.parquex-7-5.tmp" 0 1 = .ok [9] ∧
      (store.delete s.state.files ".a.parquex-7-5.tmp").toOption.isSome := by
  decide

end Watched

end Parquex
