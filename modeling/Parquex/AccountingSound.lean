import Parquex.Accounting
import Parquex.Fallible

/-!
# Every active resource is counted once

Whatever the order in which resources are opened, used and released, each counter
is the number of the active resources of its kind, and each resource is discounted
at most once, by the time that it is dropped.
-/

namespace Parquex

/-! ## Readers -/

namespace ReaderState

theorem consume_active (memorySize : RecordBatch → Nat) (state : ReaderState)
    (result : Except ParquetError RecordBatch) : (state.consume memorySize result).2.active = state.active := by
  unfold consume
  split
  · split
    · split <;> rfl
    · rfl
  · rfl

theorem fill_active (memorySize : RecordBatch → Nat) (results : List (Except ParquetError RecordBatch))
    (state : ReaderState) : (state.fill memorySize results).2.active = state.active := by
  induction results generalizing state with
  | nil =>
    unfold fill
    split <;> rfl
  | cons result results ih =>
    unfold fill
    have hconsume := consume_active memorySize { state with reader := some results } result
    split
    · split
      · rename_i failure next he
        rw [he] at hconsume
        exact hconsume
      · rename_i next he
        rw [he] at hconsume
        rw [ih]
        exact hconsume
    · rfl

theorem nextBatch_active (memorySize : RecordBatch → Nat) (state : ReaderState) :
    (state.nextBatch memorySize).2.active = state.active := by
  have hpop : ∀ state : ReaderState, (state.pop memorySize).2.active = state.active := by
    intro state
    unfold pop
    split <;> rfl
  unfold nextBatch
  split
  · rfl
  · cases hr : state.reader with
    | none =>
      simp only
      split
      · rfl
      · exact hpop state
    | some results =>
      have hfill := fill_active memorySize results state
      simp only
      split
      · exact hfill
      · rw [hpop]
        exact hfill

theorem close_active (state : ReaderState) : state.close.2.active = false := by
  unfold close
  cases ha : state.active <;> simp [ha]

theorem closeMove_eq (state : ReaderState) : state.closeMove = if state.active && true then .sub else .keep := by
  unfold closeMove close
  cases ha : state.active <;> simp

end ReaderState

/-- Whoever opens a reader gets an active one. -/
theorem openBackend_active {file : ParquetFile} {settings : ReaderOpenSettings} {state : ReaderState}
    {fields : List NativeField} (h : openBackend file settings = .ok (state, fields)) : state.active = true := by
  unfold openBackend at h
  obtain ⟨_, -, h₁⟩ := except_bind_eq_ok.mp h
  obtain ⟨_, -, h₂⟩ := except_bind_eq_ok.mp h₁
  obtain ⟨compiled, -, h₃⟩ := except_bind_eq_ok.mp h₂
  cases hall : settings.columns.isEmpty with
  | true =>
    simp only [hall, if_true] at h₃
    obtain ⟨_, -, h₄⟩ := except_bind_eq_ok.mp h₃
    obtain ⟨_, -, h₅⟩ := except_bind_eq_ok.mp h₄
    cases compiled with
    | none =>
      obtain ⟨_, -, h₆⟩ := except_bind_eq_ok.mp h₅
      cases h₆
      rfl
    | some compiled =>
      obtain ⟨_, -, h₆⟩ := except_bind_eq_ok.mp h₅
      obtain ⟨_, -, h₇⟩ := except_bind_eq_ok.mp h₆
      cases h₇
      rfl
  | false =>
    simp only [hall, Bool.false_eq_true, if_false] at h₃
    obtain ⟨_, -, h₄⟩ := except_bind_eq_ok.mp h₃
    obtain ⟨_, -, h₅⟩ := except_bind_eq_ok.mp h₄
    cases compiled with
    | none =>
      obtain ⟨_, -, h₆⟩ := except_bind_eq_ok.mp h₅
      cases h₆
      rfl
    | some compiled =>
      obtain ⟨_, -, h₆⟩ := except_bind_eq_ok.mp h₅
      obtain ⟨_, -, h₇⟩ := except_bind_eq_ok.mp h₆
      cases h₇
      rfl

namespace ReaderTask

theorem closed_turn {state : ReaderState} {poisoned : Bool} {task : ReaderTask} (ha : task.active = false)
    (hp : (reader state poisoned).past = true → task.past = true) :
    Turn active past (.reader state poisoned) (task, state.closeMove) := by
  rw [state.closeMove_eq]
  exact Turn.finished (by rw [ha, Bool.not_true, Bool.and_false]) hp

theorem close_turn (state : ReaderState) (poisoned : Bool) :
    Turn active past (.reader state poisoned) (close state poisoned) := by
  unfold close
  cases poisoned with
  | true => exact Turn.kept rfl id
  | false => exact closed_turn state.close_active id

/-- A reader is counted when its open has succeeded and discounted by what closes it. -/
theorem step_turn (memorySize : RecordBatch → Nat) (task : ReaderTask) (action : ReaderAction) :
    Turn active past task (task.step memorySize action) := by
  cases task with
  | absent =>
    cases action with
    | «open» file settings =>
      simp only [step, openStore]
      split
      · exact Turn.kept rfl nofun
      · split
        · exact Turn.kept rfl nofun
        · rename_i file state fields ho
          exact ⟨nofun, fun _ => ⟨rfl, openBackend_active ho, rfl, rfl⟩, nofun, nofun⟩
    | _ => exact Turn.kept rfl id
  | dropped => cases action <;> exact Turn.kept rfl id
  | reader state poisoned =>
    cases action with
    | «open» => exact Turn.kept rfl id
    | monitor found =>
      cases found with
      | true => exact Turn.kept rfl id
      | false => exact close_turn state poisoned
    | next =>
      simp only [step]
      split
      · exact Turn.kept rfl id
      · exact Turn.kept (state.nextBatch_active memorySize) id
    | panic => exact Turn.kept rfl id
    | close => exact close_turn state poisoned
    | cancel => exact Turn.kept rfl id
    | down => exact close_turn state poisoned
    | drop => exact closed_turn rfl fun _ => rfl

end ReaderTask

/-! ## Local writers -/

namespace LocalWriter

variable (host : LocalHost) (files : FileSystem) (stageSequence : Nat) (fault : Option Fault) (w : LocalWriter)

/-- A system call leaves a writer active unless it is the last of a publish, of an abort or of a drop. -/
theorem advance_active (phase : WriterPhase) :
    (w.advance host files stageSequence fault phase).task.active = (w.active && !w.finishes files fault phase) ∧
      (w.advance host files stageSequence fault phase).task.past = true := by
  cases phase with
  | idle => exact ⟨(Bool.and_true _).symm, rfl⟩
  | writing chunk =>
    simp only [advance, finishes]
    split
    · exact ⟨(Bool.and_true _).symm, rfl⟩
    · split <;> exact ⟨(Bool.and_true _).symm, rfl⟩
  | syncing =>
    simp only [advance, finishes]
    split <;> exact ⟨(Bool.and_true _).symm, rfl⟩
  | statting =>
    simp only [advance, finishes]
    split
    · exact ⟨(Bool.and_true _).symm, rfl⟩
    · split <;> exact ⟨(Bool.and_true _).symm, rfl⟩
  | replacing size =>
    simp only [advance, finishes]
    split <;> exact ⟨(Bool.and_true _).symm, rfl⟩
  | moving size =>
    cases hr : attempt fault .rename (files.rename w.stagePath w.destination) with
    | error kind =>
      simp only [advance, finishes, hr]
      exact ⟨(Bool.and_true _).symm, rfl⟩
    | ok files =>
      by_cases hs : w.sync = .all
      · simp [advance, finishes, hr, hs, Task.active, Task.past]
      · simp [advance, finishes, hr, hs, Task.active, Task.past, finish]
  | syncingParent size =>
    simp only [advance, finishes]
    split <;> exact ⟨(Bool.and_false _).symm, rfl⟩
  | cleaning failure =>
    cases failure <;> exact ⟨(Bool.and_false _).symm, rfl⟩
  | removing =>
    simp only [advance, finishes]
    split <;> exact ⟨(Bool.and_false _).symm, rfl⟩

end LocalWriter

namespace Task

variable (host : LocalHost) (files : FileSystem) (stageSequence : Nat) (fault : Option Fault)

theorem beginOpen_turn (key : String) (options : WriteOptions) :
    Turn active past .absent ((beginOpen host files stageSequence key options).task, .keep) := by
  unfold beginOpen
  split
  · exact Turn.kept rfl nofun
  · split <;> exact Turn.kept rfl nofun

theorem beginDelete_turn (key : String) :
    Turn active past .absent ((beginDelete files stageSequence key).task, .keep) := by
  unfold beginDelete
  split
  · exact Turn.kept rfl nofun
  · split <;> exact Turn.kept rfl nofun

/-- An open is counted with the creation of its staging file, the last call that can fail. -/
theorem advanceOpen_turn (key : String) (options : WriteOptions) (phase : OpenPhase) :
    Turn active past (.opening key options phase)
      ((advanceOpen host files stageSequence fault key options phase).task,
        Task.move files fault (.opening key options phase) .advance) := by
  cases phase with
  | lookup current left =>
    simp only [advanceOpen, Task.move]
    split <;> exact Turn.kept rfl nofun
  | createDir current left =>
    simp only [advanceOpen, Task.move]
    split <;> exact Turn.kept rfl nofun
  | resolve =>
    simp only [advanceOpen, Task.move]
    split
    · exact Turn.kept rfl nofun
    · split <;> exact Turn.kept rfl nofun
  | allocate destination attempts => exact Turn.kept rfl nofun
  | create destination stagePath attempts =>
    cases hc : attempt fault .createNew (files.createNew stagePath) with
    | ok files =>
      simp only [advanceOpen, Task.move, hc]
      exact ⟨nofun, fun _ => ⟨rfl, rfl, rfl, rfl⟩, nofun, nofun⟩
    | error kind =>
      simp only [advanceOpen, Task.move, hc]
      split
      · rename_i he
        cases he
      · split <;> exact Turn.kept rfl nofun
      · exact Turn.kept rfl nofun

theorem advanceDelete_turn (phase : DeletePhase) :
    Turn active past (.deleting phase) ((advanceDelete host files stageSequence fault phase).task, .keep) := by
  cases phase with
  | resolve key =>
    simp only [advanceDelete]
    split
    · exact Turn.kept rfl fun _ => rfl
    · split <;> exact Turn.kept rfl fun _ => rfl
  | remove path =>
    simp only [advanceDelete]
    split <;> exact Turn.kept rfl fun _ => rfl

/-- The calls on a writer leave it active; a drop ends only a writer that is not. -/
theorem call_turn (w : LocalWriter) :
    (∀ chunk, Turn active past (.writer w .idle) ((w.beginWrite files stageSequence chunk).task, .keep)) ∧
      Turn active past (.writer w .idle) ((w.beginPublish files stageSequence fault).task, .keep) ∧
      Turn active past (.writer w .idle) ((w.beginAbort files stageSequence).task, .keep) ∧
      Turn active past (.writer w .idle) ((w.beginDrop files stageSequence).task, .keep) := by
  refine ⟨fun chunk => ?_, ?_, ?_, ?_⟩
  · unfold LocalWriter.beginWrite
    split <;> exact Turn.kept rfl id
  · unfold LocalWriter.beginPublish
    split
    · exact Turn.kept rfl id
    · split <;> exact Turn.kept rfl id
  · unfold LocalWriter.beginAbort
    split <;> exact Turn.kept rfl id
  · unfold LocalWriter.beginDrop
    split
    · exact Turn.kept rfl id
    · rename_i ha
      exact Turn.kept (Bool.eq_false_iff.mpr ha).symm fun _ => rfl

theorem step_turn (task : Task) (action : Action) :
    Turn active past task ((task.step host files stageSequence fault action).task, task.move files fault action) := by
  cases task with
  | absent =>
    cases action with
    | openWriter key options => exact beginOpen_turn host files stageSequence key options
    | delete key => exact beginDelete_turn files stageSequence key
    | _ => exact Turn.kept rfl id
  | opening key options phase =>
    cases action with
    | advance => exact advanceOpen_turn host files stageSequence fault key options phase
    | _ => cases phase <;> exact Turn.kept rfl id
  | deleting phase =>
    cases action with
    | advance => exact advanceDelete_turn host files stageSequence fault phase
    | _ => exact Turn.kept rfl id
  | done => cases action <;> exact Turn.kept rfl id
  | writer w phase =>
    obtain ⟨hwrite, hpublish, habort, hdrop⟩ := call_turn files stageSequence fault w
    cases action with
    | advance =>
      obtain ⟨hactive, hpast⟩ := w.advance_active host files stageSequence fault phase
      cases phase <;> exact Turn.finished hactive fun _ => hpast
    | cancel => cases phase <;> exact Turn.kept rfl id
    | write chunk =>
      cases phase with
      | idle => exact hwrite chunk
      | _ => exact Turn.kept rfl id
    | publish =>
      cases phase with
      | idle => exact hpublish
      | _ => exact Turn.kept rfl id
    | abort =>
      cases phase with
      | idle => exact habort
      | _ => exact Turn.kept rfl id
    | drop =>
      cases phase with
      | idle => exact hdrop
      | _ => exact Turn.kept rfl id
    | openWriter key options => cases phase <;> exact Turn.kept rfl id
    | delete key => cases phase <;> exact Turn.kept rfl id

end Task

/-! ## Multipart writers -/

namespace RemoteState

variable (s : RemoteState)

theorem beginWrite_active (buffer : Bytes) : (s.beginWrite buffer).2.writer.active = s.writer.active := by
  unfold beginWrite
  split
  · rfl
  · split <;> rfl

theorem fill_active (left : Bytes) (length : Nat) : (s.fill left length).2.writer.active = s.writer.active := by
  unfold fill
  split <;> rfl

theorem beginPublish_active : s.beginPublish.2.writer.active = s.writer.active := by
  unfold beginPublish
  split
  · rfl
  · split <;> rfl

theorem beginAbort_active (dropping : Bool) :
    (s.beginAbort dropping).2.writer.active = (s.writer.active && !s.writer.upload.isNone) := by
  unfold beginAbort
  cases ha : s.writer.active with
  | false => simp [ha]
  | true =>
    cases hu : s.writer.upload with
    | none => simp [hu, finishActive]
    | some upload => simp [hu, ha, put]

theorem joinPart_active (index : Nat) : (s.joinPart index).2.writer.active = s.writer.active := by
  unfold joinPart
  split <;> rfl

theorem answer_active (result : Except RemoteErrorKind Nat) :
    (s.answer result).2.writer.active = (s.writer.active && !s.finishes (.answered result)) := by
  unfold answer finishes
  cases hp : s.phase with
  | completing => cases result <;> simp [finishActive, Except.toOption]
  | undoing kind => cases result <;> simp [finishActive]
  | heading => cases result <;> simp
  | aborting dropping =>
    cases dropping with
    | true => simp [finishActive]
    | false => cases result <;> simp [finishActive]
  | _ => simp

theorem overtake_active (completed : Bool) :
    (s.overtake completed).2.writer.active = (s.writer.active && !s.finishes (.overtaken completed)) := by
  unfold overtake finishes
  cases hc : s.writer.cancelled <;> cases hp : s.phase <;> simp [finishActive, writeFailed]

theorem failPart_active (index : Nat) (kind : RemoteErrorKind) :
    (s.failPart index kind).2.writer.active = (s.writer.active && !s.finishes (.partFailed index kind)) := by
  unfold failPart finishes
  cases hp : s.phase with
  | waiting buffer =>
    simp only [Bool.not_false, Bool.and_true]
    split
    · exact s.joinPart_active index
    · rfl
  | finishing upload =>
    by_cases hi : index < upload.tasks.length <;> simp [hi, finishActive]
  | _ => simp

/-- A step leaves a writer active unless it comes to `finish_active`. -/
theorem step_active (event : RemoteEvent) :
    (s.step event).2.writer.active = (s.writer.active && !s.finishes event) := by
  have hkeep : ∀ {t : RemoteState}, t.writer.active = s.writer.active → s.finishes event = false →
      t.writer.active = (s.writer.active && !s.finishes event) := by
    intro t ht hf
    rw [ht, hf, Bool.not_false, Bool.and_true]
  cases event with
  | answered result => exact s.answer_active result
  | overtaken completed => exact s.overtake_active completed
  | partFailed index kind => exact s.failPart_active index kind
  | partDone index => exact hkeep (s.joinPart_active index) rfl
  | cancel => exact hkeep rfl rfl
  | write buffer =>
    unfold step finishes
    cases s.phase with
    | idle => simpa using s.beginWrite_active buffer
    | _ => simp
  | publish =>
    unfold step finishes
    cases s.phase with
    | idle => simpa using s.beginPublish_active
    | _ => simp
  | abort =>
    unfold step finishes
    cases s.phase with
    | idle => simpa using s.beginAbort_active false
    | _ => simp
  | drop =>
    unfold step finishes
    cases s.phase with
    | idle => simpa using s.beginAbort_active true
    | _ => simp
  | capacity =>
    unfold step finishes
    cases s.phase with
    | waiting buffer =>
      simp only [Bool.not_false, Bool.and_true]
      split <;> rfl
    | _ => simp
  | copy =>
    unfold step finishes
    cases s.phase with
    | filling left length => simpa using s.fill_active left length
    | _ => simp
  | uploaded =>
    unfold step finishes
    cases s.phase with
    | finishing upload =>
      simp only [Bool.not_false, Bool.and_true]
      split <;> rfl
    | _ => simp

/-- A writer that is gone is not active. -/
def Gone : Prop := s.phase = .gone → s.writer.active = false

variable {s}

theorem gone_of_phase (hp : s.phase ≠ .gone) : s.Gone := fun hg => absurd hg hp

theorem gone_writeFailed : s.writeFailed.2.Gone := gone_of_phase nofun

theorem gone_finishActive (phase : RemotePhase) : (s.finishActive phase).Gone := fun _ => rfl

variable (s) in
theorem gone_beginWrite (buffer : Bytes) : (s.beginWrite buffer).2.Gone := by
  unfold RemoteState.beginWrite
  split
  · exact gone_writeFailed
  · split
    · exact gone_writeFailed
    · exact gone_of_phase nofun

theorem Gone.fill (h : s.Gone) (left : Bytes) (length : Nat) : (s.fill left length).2.Gone := by
  unfold RemoteState.fill
  split
  · exact gone_of_phase nofun
  · exact h
  · exact gone_of_phase nofun

theorem Gone.beginPublish (h : s.Gone) : s.beginPublish.2.Gone := by
  unfold RemoteState.beginPublish
  split
  · exact h
  · split
    · exact h
    · exact gone_of_phase nofun

variable (s) in
theorem gone_beginAbort (dropping : Bool) : (s.beginAbort dropping).2.Gone := by
  unfold RemoteState.beginAbort
  cases ha : s.writer.active with
  | false => exact fun _ => ha
  | true =>
    cases hu : s.writer.upload with
    | none =>
      simp only [Bool.not_true, Bool.false_eq_true, if_false, hu]
      exact gone_finishActive _
    | some upload =>
      simp only [Bool.not_true, Bool.false_eq_true, if_false, hu]
      exact gone_of_phase nofun

theorem Gone.joinPart (h : s.Gone) (index : Nat) : (s.joinPart index).2.Gone := by
  unfold RemoteState.joinPart
  split
  · exact gone_of_phase nofun
  · exact h

theorem Gone.answer (h : s.Gone) (result : Except RemoteErrorKind Nat) : (s.answer result).2.Gone := by
  unfold RemoteState.answer
  split
  · split
    · exact gone_of_phase nofun
    · exact gone_of_phase nofun
  · split <;> exact gone_finishActive _
  · split <;> exact gone_of_phase nofun
  · split
    · exact gone_finishActive _
    · split <;> exact gone_finishActive _
  · exact h

theorem Gone.overtake (h : s.Gone) (completed : Bool) : (s.overtake completed).2.Gone := by
  unfold RemoteState.overtake
  simp only
  split
  · split
    · exact gone_writeFailed
    · exact gone_finishActive _
    · exact fun _ => rfl
    · exact gone_finishActive _
    · exact gone_of_phase nofun
    · exact h
  · exact h

theorem Gone.failPart (h : s.Gone) (index : Nat) (kind : RemoteErrorKind) : (s.failPart index kind).2.Gone := by
  unfold RemoteState.failPart
  split
  · split
    · exact gone_writeFailed
    · exact h
  · split
    · exact gone_finishActive _
    · exact h
  · exact h

theorem Gone.step (h : s.Gone) (event : RemoteEvent) : (s.step event).2.Gone := by
  unfold RemoteState.step
  split
  · exact s.gone_beginWrite _
  · exact h.beginPublish
  · exact s.gone_beginAbort false
  · exact s.gone_beginAbort true
  · exact h
  · split
    · exact gone_of_phase nofun
    · exact h
  · exact h.fill _ _
  · exact h.joinPart _
  · exact h.failPart _ _
  · split
    · exact gone_of_phase nofun
    · exact h
  · exact h.answer _
  · exact h.overtake _
  · exact h

end RemoteState

namespace MultipartTask

theorem step_turn (task : MultipartTask) (action : MultipartAction) : Turn active past task (task.step action) := by
  cases task with
  | absent =>
    cases action with
    | «open» created limits key =>
      cases created with
      | error failure => exact Turn.kept rfl nofun
      | ok => exact ⟨nofun, fun _ => ⟨rfl, rfl, rfl, rfl⟩, nofun, nofun⟩
    | _ => exact Turn.kept rfl id
  | failed => cases action <;> exact Turn.kept rfl id
  | writer state poisoned =>
    cases action with
    | «open» created limits key => exact Turn.kept rfl id
    | call event =>
      simp only [step]
      split
      · exact Turn.kept rfl id
      · exact Turn.finished (state.step_active event) id
    | panic =>
      cases poisoned with
      | true => exact Turn.kept rfl id
      | false =>
        simp only [step, panic]
        split <;> exact Turn.kept rfl id

/-- A writer that is gone is not active. -/
def Gone : MultipartTask → Prop
  | .writer state _ => state.Gone
  | _ => True

theorem Gone.step {task : MultipartTask} (h : task.Gone) (action : MultipartAction) : (task.step action).1.Gone := by
  cases task with
  | absent =>
    cases action with
    | «open» created limits key =>
      cases created with
      | error failure => trivial
      | ok => exact RemoteState.gone_of_phase nofun
    | _ => trivial
  | failed => cases action <;> trivial
  | writer state poisoned =>
    cases action with
    | «open» created limits key => exact h
    | call event =>
      simp only [MultipartTask.step]
      split
      · exact h
      · exact RemoteState.Gone.step h event
    | panic =>
      cases poisoned with
      | true => exact h
      | false =>
        simp only [MultipartTask.step, MultipartTask.panic]
        split
        · exact h
        · exact h
        · exact RemoteState.gone_of_phase nofun

end MultipartTask

/-! ## The runtime -/

namespace NativeState

variable (host : Nat → LocalHost) (memorySize : RecordBatch → Nat)

theorem count_eq (s : NativeState) (kind : ResourceKind) (move : CounterMove) (k : ResourceKind) :
    s.count kind move k = if k = kind then move.apply (s.counters k) else s.counters k := by
  unfold count
  rw [Function.update_apply]
  split
  · rename_i hk
    rw [hk]
  · rfl

/-- Every step moves one resource and the counter of its kind. -/
theorem machine_lawful : accounts.Lawful (machine host memorySize) := by
  intro s event
  cases event with
  | reader task action =>
    have hturn : Turn ReaderTask.active ReaderTask.past (s.readers task)
        (((s.readers task).step memorySize action).1, ((s.readers task).step memorySize action).2) :=
      (s.readers task).step_turn memorySize action
    refine Accounts.Moves.of_turn hturn ⟨rfl, rfl⟩ ?_ ?_ ?_
    · simp [accounts, machine, step, active, past]
    · rintro ⟨kind, other⟩ hne
      cases kind with
      | reader =>
        have hother : other ≠ task := fun he => hne (by rw [he]; rfl)
        simp [accounts, machine, step, active, past, Function.update_of_ne hother]
      | _ => exact ⟨rfl, rfl⟩
    · exact fun k => count_eq s .reader _ k
  | writer event =>
    refine Accounts.Moves.of_turn
      ((s.store.tasks event.task).step_turn (host event.task) s.store.files s.store.stageSequence event.fault
        event.action)
      ⟨rfl, rfl⟩ ?_ ?_ ?_
    · simp [accounts, machine, step, active, past, LocalState.step]
    · rintro ⟨kind, other⟩ hne
      cases kind with
      | writer =>
        have hother : other ≠ event.task := fun he => hne (by rw [he]; rfl)
        simp [accounts, machine, step, active, past, LocalState.step, Function.update_of_ne hother]
      | _ => exact ⟨rfl, rfl⟩
    · exact fun k => count_eq s .writer _ k
  | multipart task action =>
    have hturn : Turn MultipartTask.active MultipartTask.past (s.multiparts task)
        (((s.multiparts task).step action).1, ((s.multiparts task).step action).2) :=
      (s.multiparts task).step_turn action
    refine Accounts.Moves.of_turn hturn ⟨rfl, rfl⟩ ?_ ?_ ?_
    · simp [accounts, machine, step, active, past]
    · rintro ⟨kind, other⟩ hne
      cases kind with
      | multipart =>
        have hother : other ≠ task := fun he => hne (by rw [he]; rfl)
        simp [accounts, machine, step, active, past, Function.update_of_ne hother]
      | _ => exact ⟨rfl, rfl⟩
    · exact fun k => count_eq s .multipart _ k

theorem machine_fresh (files : FileSystem) (stageSequence : Nat) (counters : ResourceKind → Nat) :
    accounts.Fresh (first files stageSequence counters) := by
  intro resource
  obtain ⟨kind, task⟩ := resource
  cases kind <;> exact ⟨rfl, rfl⟩

theorem active_of_not_past (s : NativeState) {resource : ResourceKind × Nat} (hp : s.past resource = false) :
    s.active resource = false := by
  obtain ⟨kind, task⟩ := resource
  cases kind with
  | reader =>
    simp only [past, active] at hp ⊢
    cases hr : s.readers task <;> simp [hr, ReaderTask.past, ReaderTask.active] at hp ⊢
  | writer =>
    simp only [past, active] at hp ⊢
    cases hr : s.store.tasks task <;> simp [hr, Task.past, Task.active] at hp ⊢
  | multipart =>
    simp only [past, active] at hp ⊢
    cases hr : s.multiparts task <;> simp [hr, MultipartTask.past, MultipartTask.active] at hp ⊢

section
variable (files : FileSystem) (stageSequence : Nat) (counters : ResourceKind → Nat) (events : List NativeEvent)

theorem multiparts_gone (task : Nat) :
    ((reached host memorySize files stageSequence counters events).multiparts task).Gone := by
  refine (machine host memorySize).run_inv (s := first files stageSequence counters)
    (I := fun s => ∀ task, (s.multiparts task).Gone) (fun _ => trivial) (fun s event hs task => ?_) events task
  cases event with
  | multipart moved action =>
    by_cases ht : task = moved
    · simp only [machine, step, ht, Function.update_self]
      exact (hs moved).step action
    · simp only [machine, step, Function.update_of_ne ht]
      exact hs task
  | _ => exact hs task

/-- A dropped resource is not active. -/
theorem active_of_dropped {resource : ResourceKind × Nat}
    (hd : (reached host memorySize files stageSequence counters events).Dropped resource) :
    (reached host memorySize files stageSequence counters events).active resource = false := by
  obtain ⟨kind, task⟩ := resource
  cases kind with
  | reader =>
    simp only [Dropped] at hd
    simp only [active, hd]
    rfl
  | writer =>
    simp only [Dropped] at hd
    simp only [active, hd]
    rfl
  | multipart =>
    simp only [Dropped] at hd
    rcases hd with hd | ⟨state, poisoned, hd, hphase⟩
    · simp only [active, hd]
      rfl
    · have hg := multiparts_gone host memorySize files stageSequence counters events task
      rw [hd] at hg
      simp only [active, hd]
      exact hg hphase

/-- Any number of resources of the three kinds, opened, used and released in any order. -/
theorem resources_accounted :
    (∀ kind, (accounts.activeSet (reached host memorySize files stageSequence counters events) kind).Finite ∧
      (reached host memorySize files stageSequence counters events).counters kind = counters kind +
        (accounts.activeSet (reached host memorySize files stageSequence counters events) kind).ncard) ∧
    (∀ before event after, events = before ++ event :: after →
      (step host memorySize (reached host memorySize files stageSequence counters before) event).1.move = .sub →
      0 < (reached host memorySize files stageSequence counters before).counters
        (step host memorySize (reached host memorySize files stageSequence counters before) event).1.resource.1) ∧
    (∀ resource, moved host memorySize files stageSequence counters events .sub resource ≤ 1 ∧
      moved host memorySize files stageSequence counters events .add resource =
        moved host memorySize files stageSequence counters events .sub resource +
          (if (reached host memorySize files stageSequence counters events).active resource = true then 1 else 0) ∧
      ((reached host memorySize files stageSequence counters events).Dropped resource →
        moved host memorySize files stageSequence counters events .sub resource =
          moved host memorySize files stageSequence counters events .add resource)) ∧
    ((∀ resource, (reached host memorySize files stageSequence counters events).past resource = true →
        (reached host memorySize files stageSequence counters events).Dropped resource) →
      (reached host memorySize files stageSequence counters events).counters = counters) := by
  have hl := machine_lawful host memorySize
  have hf := machine_fresh files stageSequence counters
  have hfinite : ∀ kind,
      (accounts.activeSet (reached host memorySize files stageSequence counters events) kind).Finite :=
    (hl.counted hf events).1
  have hcounter : ∀ kind, (reached host memorySize files stageSequence counters events).counters kind = counters kind +
      (accounts.activeSet (reached host memorySize files stageSequence counters events) kind).ncard :=
    (hl.counted hf events).2
  have hdropped := @active_of_dropped host memorySize files stageSequence counters events
  refine ⟨fun kind => ⟨hfinite kind, hcounter kind⟩, fun before event after _ hm => hl.taken hf hm,
    fun resource => ?_, fun hall => ?_⟩
  · have honce : moved host memorySize files stageSequence counters events .add resource ≤ 1 :=
      (hl.tally hf events resource).once
    have hbalance : moved host memorySize files stageSequence counters events .add resource =
        moved host memorySize files stageSequence counters events .sub resource +
          if (reached host memorySize files stageSequence counters events).active resource = true then 1 else 0 :=
      (hl.tally hf events resource).balance
    refine ⟨by omega, hbalance, fun hd => ?_⟩
    rw [hdropped hd] at hbalance
    simpa using hbalance.symm
  · funext kind
    have hnone : accounts.activeSet (reached host memorySize files stageSequence counters events) kind = ∅ := by
      rw [Set.eq_empty_iff_forall_notMem]
      rintro resource ⟨-, ha⟩
      change (reached host memorySize files stageSequence counters events).active resource = true at ha
      cases hp : (reached host memorySize files stageSequence counters events).past resource with
      | false =>
        rw [active_of_not_past _ hp] at ha
        cases ha
      | true =>
        rw [hdropped (hall resource hp)] at ha
        cases ha
    rw [hcounter, hnone, Set.ncard_empty, Nat.add_zero]

end

end NativeState

end Parquex
