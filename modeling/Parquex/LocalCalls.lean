import Parquex.Fallible
import Parquex.LocalStore

/-!
# Whole calls on a local writer

A call holds the lock of its writer until it returns. Here each call is one
function, as the source has it, of the system calls that fail during it; the run
of its system calls without another task in between computes that function.
-/

namespace Parquex

/-- What the environment does during one call: the system calls that fail, and how far a failing write came. -/
structure Faults where
  failure : SystemCall → Option IoErrorKind
  written : Nat

namespace Faults

def never : Faults := ⟨fun _ => none, 0⟩

def only (call : SystemCall) (kind : IoErrorKind) (written : Nat) : Faults :=
  ⟨fun c => if c = call then some kind else none, written⟩

variable (faults : Faults)

def attempt {α : Type} (call : SystemCall) (result : Except IoErrorKind α) : Except IoErrorKind α :=
  match faults.failure call with
  | some kind => .error kind
  | none => result

def check (call : SystemCall) (operation : Operation) : Except NativeFailure Unit :=
  match faults.failure call with
  | some kind => .error (.fromIo operation kind)
  | none => .ok ()

/-- The fault of one system call. -/
def fault (call : SystemCall) : Option Fault := (faults.failure call).map (⟨call, ·, faults.written⟩)

/-- The fault of the system call before which a writer stands. -/
def next : WriterPhase → Option Fault
  | .idle => none
  | .writing _ => (faults.fault .writeAll).or (faults.fault .flush)
  | .syncing => faults.fault .sync
  | .statting => faults.fault .metadata
  | .replacing _ => faults.fault .removeDestination
  | .moving _ => faults.fault .rename
  | .syncingParent _ => faults.fault .syncParent
  | .cleaning _ => faults.fault .removeStage
  | .removing => faults.fault .removeStage

theorem faultOf_fault (call : SystemCall) : faultOf (faults.fault call) call = faults.failure call := by
  unfold faultOf fault
  cases faults.failure call <;> simp

theorem attempt_fault {α : Type} (call : SystemCall) (result : Except IoErrorKind α) :
    Parquex.attempt (faults.fault call) call result = faults.attempt call result := by
  have h := faults.faultOf_fault call
  unfold Parquex.attempt attempt
  cases hf : faults.failure call with
  | none => simp only [h, hf]
  | some kind => simp only [h, hf]

end Faults

/-! ## The calls -/

/-- A rename, and the files it leaves when it fails. -/
def moveFile (faults : Faults) (files : FileSystem) (source destination : Path) : Except IoErrorKind Unit × FileSystem :=
  match faults.attempt .rename (files.rename source destination) with
  | .ok files => (.ok (), files)
  | .error kind => (.error kind, files)

/-- Move a staged file to its destination; the destination is removed first on Windows. -/
def LocalHost.replaceFile (host : LocalHost) (faults : Faults) (files : FileSystem) (source destination : Path) :
    Except IoErrorKind Unit × FileSystem :=
  if host.windows then
    match faults.attempt .removeDestination (files.removeFile destination) with
    | .ok files => moveFile faults files source destination
    | .error .notFound => moveFile faults files source destination
    | .error kind => (.error kind, files)
  else moveFile faults files source destination

namespace LocalWriter

variable (host : LocalHost) (faults : Faults) (w : LocalWriter) (files : FileSystem)

def write (chunk : Bytes) : Except NativeFailure Nat × FileSystem :=
  match w.ensureOpen .writerWrite with
  | .error failure => (.error failure, files)
  | .ok () =>
    match faults.failure .writeAll with
    | some kind => (.error (.fromIo .writerWrite kind), files.append w.stagePath (chunk.take faults.written))
    | none =>
      let files := files.append w.stagePath chunk
      match if w.flush = .eachChunk then faults.failure .flush else none with
      | some kind => (.error (.fromIo .writerWrite kind), files)
      | none => (.ok chunk.length, files)

/-- The staging file as its writer leaves it behind. -/
def removeStage : FileSystem := (faults.attempt .removeStage (files.removeFile w.stagePath)).toOption.getD files

/-- Flush and sync the staged bytes, as far as the policies ask for it, and take their number. -/
def prepare : Except NativeFailure Nat := do
  if w.flush ≠ .none then faults.check .flush .writerPublish
  if w.sync ≠ .none then faults.check .sync .writerPublish
  faults.check .metadata .writerPublish
  metadataFor files w.stagePath .writerPublish

/-- What a publish does once its replacement has returned. -/
def replaced (size : Nat) (result : Except IoErrorKind Unit × FileSystem) :
    Except NativeFailure Nat × FileSystem × LocalWriter :=
  match result with
  | (.error kind, files) => (.error (.fromIo .writerPublish kind), w.removeStage faults files, w.takeFile.finish)
  | (.ok (), files) =>
    if w.sync = .all ∧ (faults.failure .syncParent).isSome then
      (.error (.new .nativeFailure .writerPublish "destination directory sync failed"), files, w.takeFile.finish)
    else (.ok size, files, w.takeFile.finish)

/-- Put the prepared file at its destination. -/
def complete (prepared : Except NativeFailure Nat) : Except NativeFailure Nat × FileSystem × LocalWriter :=
  match prepared with
  | .error failure => (.error failure, w.removeStage faults files, w.takeFile.finish)
  | .ok size => w.replaced faults size (host.replaceFile faults files w.stagePath w.destination)

/-- The size of the object that is now at the destination. -/
def publish : Except NativeFailure Nat × FileSystem × LocalWriter :=
  match w.ensureOpen .writerPublish with
  | .error failure => (.error failure, files, w)
  | .ok () => w.complete host faults files (w.prepare faults files)

def abort : Except NativeFailure Bool × FileSystem × LocalWriter :=
  if w.active then
    let w := w.cancel.takeFile
    match faults.attempt .removeStage (files.removeFile w.stagePath) with
    | .ok files => (.ok true, files, w.finish)
    | .error .notFound => (.ok true, files, w.finish)
    | .error kind => (.error (.fromIo .writerAbort kind), files, w.finish)
  else (.ok false, files, w)

/-- The staging file goes with an active writer. -/
def drop : FileSystem := if w.active then w.removeStage faults files else files

end LocalWriter

/-! ## The runs of their system calls -/

/-- Make the next system call of the writer until its call returns. -/
def TaskStep.settle (host : LocalHost) (faults : Faults) : Nat → TaskStep → TaskStep
  | n + 1, ⟨.running, files, stageSequence, .writer w phase⟩ =>
    settle host faults n (w.advance host files stageSequence (faults.next phase) phase)
  | _, step => step

section
variable (host : LocalHost) (faults : Faults) (n : Nat) (files : FileSystem) (stageSequence : Nat)

/-- A call that settles is a run of the store in which only its task takes steps. -/
theorem settle_run (task : Nat) (tasks : Nat → Task) (step : TaskStep) :
    ∃ events : List StoreEvent, (∀ event ∈ events, event.task = task) ∧
      (LocalState.machine host).run ⟨step.files, step.stageSequence, Function.update tasks task step.task⟩ events =
        ⟨(step.settle host faults n).files, (step.settle host faults n).stageSequence,
          Function.update tasks task (step.settle host faults n).task⟩ ∧
      (step.reply :: (LocalState.machine host).replies
        ⟨step.files, step.stageSequence, Function.update tasks task step.task⟩ events).getLast? =
        some (step.settle host faults n).reply := by
  induction n generalizing step with
  | zero => exact ⟨[], List.forall_mem_nil _, rfl, rfl⟩
  | succ n ih =>
    obtain ⟨reply, files, stageSequence, t⟩ := step
    by_cases hs : ∃ w phase, reply = .running ∧ t = .writer w phase
    · obtain ⟨w, phase, rfl, rfl⟩ := hs
      obtain ⟨events, htask, hrun, hreply⟩ := ih (w.advance host files stageSequence (faults.next phase) phase)
      have hstep : (LocalState.machine host).step
          ⟨files, stageSequence, Function.update tasks task (.writer w phase)⟩ ⟨task, .advance, faults.next phase⟩ =
          ((w.advance host files stageSequence (faults.next phase) phase).reply,
            ⟨(w.advance host files stageSequence (faults.next phase) phase).files,
              (w.advance host files stageSequence (faults.next phase) phase).stageSequence,
              Function.update tasks task (w.advance host files stageSequence (faults.next phase) phase).task⟩) := by
        simp only [LocalState.machine, LocalState.step, Function.update_self, Function.update_idem]
        cases phase <;> rfl
      refine ⟨⟨task, .advance, faults.next phase⟩ :: events, ?_, ?_, ?_⟩
      · intro event he
        rcases List.mem_cons.mp he with rfl | he
        · rfl
        · exact htask event he
      · rw [Machine.run, hstep]
        exact hrun
      · rw [Machine.replies_cons, hstep, List.getLast?_cons_cons]
        exact hreply
    · refine ⟨[], List.forall_mem_nil _, ?_, ?_⟩
      all_goals
        cases reply <;> cases t <;> first | rfl | exact absurd ⟨_, _, rfl, rfl⟩ hs

theorem settle_running (w : LocalWriter) (phase : WriterPhase) :
    (TaskStep.mk .running files stageSequence (.writer w phase)).settle host faults (n + 1) =
      (w.advance host files stageSequence (faults.next phase) phase).settle host faults n := rfl

variable {n} in
theorem settle_done {step : TaskStep} (h : step.reply ≠ .running) : step.settle host faults n = step := by
  obtain ⟨reply, files, stageSequence, t⟩ := step
  cases n with
  | zero => rfl
  | succ n =>
    cases reply with
    | running => exact absurd rfl h
    | _ => rfl

namespace LocalWriter

variable (w : LocalWriter)

theorem publishedReply_ne (size : Nat) : w.publishedReply host size ≠ .running := by
  unfold publishedReply
  split <;> nofun

/-- What a caller of the store is told of a publish. -/
def publishReply (result : Except NativeFailure Nat) : StoreReply :=
  match result with
  | .ok size => w.publishedReply host size
  | .error failure => .failed failure

def writeReply : Except NativeFailure Nat → StoreReply
  | .ok count => .written count
  | .error failure => .failed failure

def abortReply : Except NativeFailure Bool → StoreReply
  | .ok active => .aborted active
  | .error failure => .failed failure

theorem settle_write (chunk : Bytes) :
    (w.beginWrite files stageSequence chunk).settle host faults 6 =
      ⟨writeReply (w.write faults files chunk).1, (w.write faults files chunk).2, stageSequence, .writer w .idle⟩ := by
  unfold beginWrite write
  cases w.ensureOpen .writerWrite with
  | error failure => rfl
  | ok =>
    have hwrite : faultOf ((faults.fault .writeAll).or (faults.fault .flush)) .writeAll = faults.failure .writeAll := by
      unfold faultOf Faults.fault
      cases faults.failure .writeAll <;> cases faults.failure .flush <;> rfl
    rw [settle_running]
    unfold advance Faults.next
    simp only [hwrite]
    cases hf : faults.failure .writeAll with
    | some kind =>
      have hfault : faults.fault .writeAll = some ⟨.writeAll, kind, faults.written⟩ := by
        simp only [Faults.fault, hf, Option.map_some]
      simp only [hfault, Option.some_or, Option.map_some, Option.getD_some]
      rfl
    | none =>
      have hfault : faults.fault .writeAll = none := by simp only [Faults.fault, hf, Option.map_none]
      simp only [hfault, Option.none_or, Faults.faultOf_fault]
      cases (if w.flush = .eachChunk then faults.failure .flush else none) <;> rfl

theorem settle_cleanup (failure : NativeFailure) :
    (w.cleanup files stageSequence failure).settle host faults (n + 1) =
      ⟨.failed failure, w.removeStage faults files, stageSequence, .writer w.takeFile.finish .idle⟩ := by
  unfold cleanup
  rw [settle_running]
  unfold advance Faults.next
  simp only [Faults.attempt_fault]
  cases n <;> rfl

/-- A publish that has returned. -/
def publishStep (result : Except NativeFailure Nat × FileSystem × LocalWriter) : TaskStep :=
  ⟨w.publishReply host result.1, result.2.1, stageSequence, .writer result.2.2 .idle⟩

/-- The rename, and what follows it. -/
theorem settle_moving (size : Nat) :
    (TaskStep.mk .running files stageSequence (.writer w.takeFile (.moving size))).settle host faults (n + 2) =
      w.publishStep host stageSequence
        (w.replaced faults size (moveFile faults files w.stagePath w.destination)) := by
  have hstage : w.takeFile.stagePath = w.stagePath := rfl
  have hdest : w.takeFile.destination = w.destination := rfl
  have hsync : w.takeFile.sync = w.sync := rfl
  rw [settle_running]
  unfold moveFile advance Faults.next
  simp only [Faults.attempt_fault, hstage, hdest, hsync]
  cases faults.attempt .rename (files.rename w.stagePath w.destination) with
  | error kind => exact w.takeFile.settle_cleanup host faults n files stageSequence _
  | ok files =>
    have hdone : ∀ n, (TaskStep.mk (w.publishedReply host size) files stageSequence
        (.writer w.takeFile.finish .idle)).settle host faults n = ⟨w.publishedReply host size, files, stageSequence,
          .writer w.takeFile.finish .idle⟩ := fun n => settle_done host faults (w.publishedReply_ne host size)
    by_cases hs : w.sync = .all
    · simp only [replaced, hs, if_true, true_and]
      rw [settle_running]
      unfold advance Faults.next
      simp only [Faults.faultOf_fault]
      cases faults.failure .syncParent with
      | none => exact hdone n
      | some kind => exact settle_done host faults StoreReply.noConfusion
    · simp only [replaced, hs, if_false, false_and]
      exact hdone (n + 1)

theorem settle_replaceFile (size : Nat) :
    (TaskStep.mk .running files stageSequence
        (.writer w.takeFile (if host.windows then .replacing size else .moving size))).settle host faults (n + 3) =
      w.publishStep host stageSequence (w.complete host faults files (.ok size)) := by
  have hdest : w.takeFile.destination = w.destination := rfl
  unfold complete LocalHost.replaceFile
  by_cases hw : host.windows = true
  · simp only [hw, if_true]
    rw [settle_running]
    unfold advance Faults.next
    simp only [Faults.attempt_fault, hdest]
    cases faults.attempt .removeDestination (files.removeFile w.destination) with
    | ok files => exact settle_moving host faults n files stageSequence w size
    | error kind =>
      cases kind with
      | notFound => exact settle_moving host faults n files stageSequence w size
      | _ => exact w.takeFile.settle_cleanup host faults (n + 1) files stageSequence _
  · simp only [hw, Bool.false_eq_true, if_false]
    exact settle_moving host faults (n + 1) files stageSequence w size

theorem settle_statting :
    (TaskStep.mk .running files stageSequence (.writer w .statting)).settle host faults (n + 4) =
      w.publishStep host stageSequence (w.complete host faults files
        (do faults.check .metadata .writerPublish; metadataFor files w.stagePath .writerPublish)) := by
  rw [settle_running]
  unfold advance Faults.next Faults.check
  simp only [Faults.faultOf_fault]
  cases faults.failure .metadata with
  | some kind => exact w.settle_cleanup host faults (n + 2) files stageSequence _
  | none =>
    simp only [bind, Except.bind]
    cases metadataFor files w.stagePath .writerPublish with
    | error failure => exact w.settle_cleanup host faults (n + 2) files stageSequence _
    | ok size => exact settle_replaceFile host faults n files stageSequence w size

theorem settle_publish :
    (w.beginPublish files stageSequence (faults.fault .flush)).settle host faults 6 =
      w.publishStep host stageSequence (w.publish host faults files) := by
  unfold beginPublish publish prepare
  cases w.ensureOpen .writerPublish with
  | error failure => rfl
  | ok =>
    have hsynced : (TaskStep.mk .running files stageSequence
        (.writer w (if w.sync = .none then .statting else .syncing))).settle host faults 6 =
        w.publishStep host stageSequence (w.complete host faults files (do
          if w.sync ≠ .none then faults.check .sync .writerPublish
          faults.check .metadata .writerPublish
          metadataFor files w.stagePath .writerPublish)) := by
      by_cases hs : w.sync = .none
      · simp only [hs, if_true, ne_eq, not_true_eq_false, if_false]
        exact settle_statting host faults 2 files stageSequence w
      · simp only [hs, if_false, ne_eq, not_false_eq_true, if_true]
        rw [settle_running]
        unfold advance Faults.next
        simp only [Faults.faultOf_fault]
        cases hf : faults.failure .sync with
        | some kind =>
          simp only [Faults.check, hf]
          exact w.settle_cleanup host faults 4 files stageSequence _
        | none =>
          simp only [Faults.check, hf]
          exact settle_statting host faults 1 files stageSequence w
    by_cases hf : w.flush = .none
    · simp only [hf, if_true, ne_eq, not_true_eq_false, if_false]
      exact hsynced
    · simp only [hf, if_false, ne_eq, not_false_eq_true, if_true, Faults.faultOf_fault]
      cases hflush : faults.failure .flush with
      | some kind =>
        simp only [Faults.check, hflush]
        exact w.settle_cleanup host faults 5 files stageSequence _
      | none =>
        simp only [Faults.check, hflush]
        exact hsynced

theorem settle_abort :
    (w.beginAbort files stageSequence).settle host faults 6 =
      ⟨abortReply (w.abort faults files).1, (w.abort faults files).2.1, stageSequence,
        .writer (w.abort faults files).2.2 .idle⟩ := by
  unfold beginAbort abort
  by_cases ha : w.active = true
  · have hstage : w.cancel.takeFile.stagePath = w.stagePath := rfl
    simp only [ha, if_true]
    rw [settle_running]
    unfold advance Faults.next
    simp only [Faults.attempt_fault, hstage]
    cases faults.attempt .removeStage (files.removeFile w.stagePath) with
    | ok files => rfl
    | error kind => cases kind <;> rfl
  · simp only [ha]
    rfl

end LocalWriter

end

end Parquex
