import Parquex.ParquetWriter
import Parquex.PublishFailure

/-!
# Failed writes

A write that fails may leave any prefix of its chunk in the staging file. The
writer is to refuse every publish from then on, so that no object lacks a part of
what was written to it. Beneath a Parquet writer it is the encoder that refuses;
a writer that is used directly is protected by its caller alone.
-/

namespace Parquex

/-! ## Open writers -/

namespace LocalWriter

def Open (w : LocalWriter) : Prop := w.cancelled = false ∧ w.active = true ∧ w.file = true

theorem ensureOpen_eq_ok {w : LocalWriter} {operation : Operation} : w.ensureOpen operation = .ok () ↔ w.Open := by
  unfold ensureOpen Open
  cases w.cancelled <;> cases w.active <;> cases w.file <;> simp

theorem ensureOpen_cases (w : LocalWriter) (operation : Operation) :
    (w.Open ∧ w.ensureOpen operation = .ok ()) ∨ ¬ w.Open ∧ ∃ failure, w.ensureOpen operation = .error failure := by
  cases h : w.ensureOpen operation with
  | ok => exact Or.inl ⟨ensureOpen_eq_ok.mp h, rfl⟩
  | error failure =>
    refine Or.inr ⟨fun ho => ?_, failure, rfl⟩
    rw [ensureOpen_eq_ok.mpr ho] at h
    cases h

variable (host : LocalHost) (faults : Faults) (w : LocalWriter) (files : FileSystem)

/-- The system lets the staging file replace the destination. -/
def Replaces : Prop :=
  ∃ size, w.prepare faults files = .ok size ∧ (host.replaceFile faults files w.stagePath w.destination).1 = .ok ()

/-- What a publish does to its destination. -/
theorem publish_destination (hne : w.stagePath ≠ w.destination) :
    (¬ (w.publish host faults files).2.2.Open) ∧
    ((w.Open ∧ w.Replaces host faults files ∧
        (w.publish host faults files).2.1.get w.destination = files.get w.stagePath) ∨
      (¬ (w.Open ∧ w.Replaces host faults files) ∧ (∃ failure, (w.publish host faults files).1 = .error failure) ∧
        ((w.publish host faults files).2.1.get w.destination = files.get w.destination ∨
          (w.publish host faults files).2.1.get w.destination = none))) := by
  have hfinish : ¬ w.takeFile.finish.Open := fun h => nomatch h.2.1
  unfold publish
  rcases w.ensureOpen_cases .writerPublish with ⟨ho, he⟩ | ⟨ho, failure, he⟩
  · rw [he]
    dsimp only
    unfold complete
    cases hp : w.prepare faults files with
    | error failure =>
      refine ⟨hfinish, Or.inr ⟨?_, ⟨failure, rfl⟩, Or.inl (get_removeStage faults w files hne.symm)⟩⟩
      rintro ⟨-, size, hs, -⟩
      rw [hp] at hs
      cases hs
    | ok size =>
      dsimp only
      rcases host.replaceFile_cases faults files w.stagePath w.destination with ⟨kind, hr, -⟩ | ⟨files₁, hfiles, hr⟩
      · rw [hr]
        refine ⟨hfinish, Or.inr ⟨?_, ⟨_, rfl⟩, Or.inl (get_removeStage faults w files hne.symm)⟩⟩
        rintro ⟨-, -, -, hs⟩
        rw [hr] at hs
        cases hs
      · rcases moveFile_cases faults files₁ w.stagePath w.destination with ⟨kind, -, hm⟩ | ⟨files₂, hrename, hm⟩
        · rw [hr, hm]
          refine ⟨hfinish, Or.inr ⟨?_, ⟨_, rfl⟩, ?_⟩⟩
          · rintro ⟨-, -, -, hs⟩
            rw [hr, hm] at hs
            cases hs
          · dsimp only [replaced]
            rw [get_removeStage faults w files₁ hne.symm]
            rcases hfiles with ⟨rfl, -⟩ | hremoves
            · exact Or.inl rfl
            · exact Or.inr (by rw [FileSystem.get_removeFile (Faults.attempt_eq_ok hremoves.2), if_pos rfl])
        · have hreplaces : w.Replaces host faults files := ⟨size, hp, by rw [hr, hm]⟩
          obtain ⟨hdest, -⟩ := hfiles.get_renamed hne hrename
          rw [hr, hm]
          dsimp only [replaced]
          split <;> exact ⟨hfinish, Or.inl ⟨ho, hreplaces, hdest⟩⟩
  · rw [he]
    exact ⟨ho, Or.inr ⟨fun h => ho h.1, ⟨failure, rfl⟩, Or.inl rfl⟩⟩

/-- A write that fails leaves the writer, a write that does not appends its chunk. -/
theorem write_cases (chunk : Bytes) :
    (¬ w.Open ∧ (∃ failure, (w.write faults files chunk).1 = .error failure) ∧ (w.write faults files chunk).2 = files) ∨
    w.Open ∧ (((∃ failure, (w.write faults files chunk).1 = .error failure) ∧
        ∃ appended, (w.write faults files chunk).2 = files.append w.stagePath appended) ∨
      (∃ count, (w.write faults files chunk).1 = .ok count) ∧
        (w.write faults files chunk).2 = files.append w.stagePath chunk) := by
  unfold write
  rcases w.ensureOpen_cases .writerWrite with ⟨ho, he⟩ | ⟨ho, failure, he⟩
  · rw [he]
    refine Or.inr ⟨ho, ?_⟩
    cases faults.failure .writeAll with
    | some kind => exact Or.inl ⟨⟨_, rfl⟩, _, rfl⟩
    | none =>
      cases (if w.flush = .eachChunk then faults.failure .flush else none) with
      | some kind => exact Or.inl ⟨⟨.fromIo .writerWrite kind, rfl⟩, chunk, rfl⟩
      | none => exact Or.inr ⟨⟨chunk.length, rfl⟩, rfl⟩
  · rw [he]
    exact Or.inl ⟨ho, ⟨failure, rfl⟩, rfl⟩

theorem publish_paths :
    (w.publish host faults files).2.2.stagePath = w.stagePath ∧
      (w.publish host faults files).2.2.destination = w.destination := by
  unfold publish
  split
  · exact ⟨rfl, rfl⟩
  · unfold complete
    split
    · exact ⟨rfl, rfl⟩
    · unfold replaced
      split
      · exact ⟨rfl, rfl⟩
      · split <;> exact ⟨rfl, rfl⟩

theorem abort_cases :
    ¬ (w.abort faults files).2.2.Open ∧ (w.abort faults files).2.2.stagePath = w.stagePath ∧
      (w.abort faults files).2.2.destination = w.destination ∧
      ∀ p, p ≠ w.stagePath → (w.abort faults files).2.1.get p = files.get p := by
  unfold abort
  by_cases ha : w.active = true
  · rw [if_pos ha]
    have hfinish : ¬ w.cancel.takeFile.finish.Open := fun h => nomatch h.2.1
    dsimp only
    cases hr : faults.attempt .removeStage (files.removeFile w.cancel.takeFile.stagePath) with
    | ok files' =>
      refine ⟨hfinish, rfl, rfl, fun p hp => ?_⟩
      exact (FileSystem.get_removeFile (Faults.attempt_eq_ok hr) p).trans (if_neg hp)
    | error kind => cases kind <;> exact ⟨hfinish, rfl, rfl, fun _ _ => rfl⟩
  · rw [if_neg ha]
    exact ⟨fun ho => ha ho.2.1, rfl, rfl, fun _ _ => rfl⟩

/-! ## A writer that is used directly -/

inductive Call
  | write (chunk : Bytes)
  | publish
  | abort
  | cancel

inductive CallReply
  | written (result : Except NativeFailure Nat)
  | published (result : Except NativeFailure Nat)
  | aborted (result : Except NativeFailure Bool)
  | cancelled
  deriving DecidableEq

end LocalWriter

/-- A writer and the files it shares with nobody while it is used. -/
structure Staging where
  files : FileSystem
  writer : LocalWriter

namespace Staging

open LocalWriter

variable (host : LocalHost)

def step (s : Staging) (event : Call × Faults) : CallReply × Staging :=
  match event.1 with
  | .write chunk =>
    let result := s.writer.write event.2 s.files chunk
    (.written result.1, ⟨result.2, s.writer⟩)
  | .publish =>
    let result := s.writer.publish host event.2 s.files
    (.published result.1, ⟨result.2.1, result.2.2⟩)
  | .abort =>
    let result := s.writer.abort event.2 s.files
    (.aborted result.1, ⟨result.2.1, result.2.2⟩)
  | .cancel => (.cancelled, ⟨s.files, s.writer.cancel⟩)

def machine : Machine Staging (Call × Faults) CallReply := ⟨step host⟩

/-- What a call was asked to add to the object. -/
def chunkOf : (Call × Faults) × CallReply → Bytes
  | ((.write chunk, _), _) => chunk
  | _ => []

def failedWrite : (Call × Faults) × CallReply → Bool
  | (_, .written (.error _)) => true
  | _ => false

/-- A publish is not called on a writer that is still open after a failed write, or the system stops it. -/
def Intact (history : List ((Call × Faults) × CallReply)) (s : Staging) (event : Call × Faults) : Prop :=
  event.1 = .publish → history.any failedWrite = true → s.writer.Open → ¬ s.writer.Replaces host event.2 s.files

/-- No publish succeeds after a failed write, and a destination that changes holds all chunks. -/
def Poisoned (history : List ((Call × Faults) × CallReply)) (s : Staging) (event : Call × Faults) : Prop :=
  (∀ size, (s.step host event).1 = .published (.ok size) → history.any failedWrite = false) ∧
  ((s.step host event).2.files.get s.writer.destination = s.files.get s.writer.destination ∨
    (s.step host event).2.files.get s.writer.destination = none ∨
    (s.step host event).2.files.get s.writer.destination = some (.file (history.flatMap chunkOf)))

structure Inv (history : List ((Call × Faults) × CallReply)) (s : Staging) : Prop where
  apart : s.writer.stagePath ≠ s.writer.destination
  staged : s.writer.Open → history.any failedWrite = false →
    s.files.get s.writer.stagePath = some (.file (history.flatMap chunkOf))

section
variable {host : LocalHost} {history : List ((Call × Faults) × CallReply)} {s : Staging} {event : Call × Faults}

theorem Inv.closed {s' : Staging} {history' : List ((Call × Faults) × CallReply)} (h : Inv history s)
    (hw : s'.writer.stagePath = s.writer.stagePath ∧ s'.writer.destination = s.writer.destination)
    (hc : ¬ s'.writer.Open) : Inv history' s' :=
  ⟨by rw [hw.1, hw.2]; exact h.apart, fun ho => absurd ho hc⟩

theorem any_failedWrite (event : Call × Faults) (reply : CallReply) :
    (history ++ [(event, reply)]).any failedWrite = (history.any failedWrite || failedWrite (event, reply)) := by
  rw [List.any_append, List.any_cons, List.any_nil, Bool.or_false]

theorem step_inv (h : Inv history s) (event : Call × Faults) :
    Inv (history ++ [(event, (s.step host event).1)]) (s.step host event).2 := by
  obtain ⟨call, faults⟩ := event
  cases call with
  | write chunk =>
    refine ⟨h.apart, fun ho hfailed => ?_⟩
    rw [any_failedWrite, Bool.or_eq_false_iff] at hfailed
    have hopen : s.writer.Open := ho
    rcases s.writer.write_cases faults s.files chunk with ⟨hn, -⟩ | ⟨-, ⟨⟨failure, hr⟩, -⟩ | ⟨-, hfiles⟩⟩
    · exact absurd hopen hn
    · have : failedWrite ((.write chunk, faults), .written (s.writer.write faults s.files chunk).1) = false := hfailed.2
      rw [hr] at this
      cases this
    · have hstage := h.staged hopen hfailed.1
      change (s.writer.write faults s.files chunk).2.get s.writer.stagePath = _
      rw [hfiles, FileSystem.get_append_self hstage, List.flatMap_append]
      simp only [List.flatMap_cons, List.flatMap_nil, List.append_nil, chunkOf]
  | publish => exact h.closed (s.writer.publish_paths host faults s.files) (publish_destination _ _ _ _ h.apart).1
  | abort =>
    obtain ⟨hc, hs, hd, -⟩ := s.writer.abort_cases faults s.files
    exact h.closed ⟨hs, hd⟩ hc
  | cancel => exact h.closed ⟨rfl, rfl⟩ fun ho => nomatch ho.1

/-- A call of an intact writer keeps its destination free of what is not the whole. -/
theorem step_poisoned (hi : Intact host history s event) (h : Inv history s) : Poisoned host history s event := by
  obtain ⟨call, faults⟩ := event
  cases call with
  | write chunk =>
    refine ⟨nofun, Or.inl ?_⟩
    change (s.writer.write faults s.files chunk).2.get s.writer.destination = _
    rcases s.writer.write_cases faults s.files chunk with ⟨-, -, he⟩ | ⟨-, ⟨-, appended, he⟩ | ⟨-, he⟩⟩
    · rw [he]
    · rw [he, FileSystem.get_append _ h.apart.symm]
    · rw [he, FileSystem.get_append _ h.apart.symm]
  | publish =>
    rcases (s.writer.publish_destination host faults s.files h.apart).2 with
      ⟨ho, hr, hd⟩ | ⟨-, ⟨failure, hf⟩, hd⟩
    · have hnone : history.any failedWrite = false := by
        cases hfailed : history.any failedWrite with
        | false => rfl
        | true => exact absurd hr (hi rfl hfailed ho)
      exact ⟨fun _ _ => hnone, Or.inr (Or.inr (hd.trans (h.staged ho hnone)))⟩
    · refine ⟨fun size hs => ?_, ?_⟩
      · have hok := CallReply.published.inj hs
        rw [hf] at hok
        cases hok
      · rcases hd with hd | hd
        · exact Or.inl hd
        · exact Or.inr (Or.inl hd)
  | abort =>
    obtain ⟨-, -, -, hp⟩ := s.writer.abort_cases faults s.files
    exact ⟨nofun, Or.inl (hp _ h.apart.symm)⟩
  | cancel => exact ⟨nofun, Or.inl rfl⟩

end

end Staging

/-! ## The encoder above a staged output -/

/-- A computation that writes chunks to a sink and is told of each whether it was written. -/
inductive Output (α : Type)
  | done (result : α)
  | write (chunk : Bytes) (next : Bool → Output α)

/-- What was written and whether it succeeded, the result, and what the sink has become. -/
structure OutputRun (α : Type) where
  log : List (Bytes × Bool)
  result : α
  files : FileSystem
  sink : LocalWriter

namespace Output

variable {α : Type}

/-- Some answers of the sink, and the result they lead to. -/
inductive Answers : Output α → List (Bytes × Bool) → α → Prop
  | done (result : α) : Answers (.done result) [] result
  | write {chunk : Bytes} {next : Bool → Output α} {written : Bool} {log : List (Bytes × Bool)} {result : α} :
    Answers (next written) log result → Answers (.write chunk next) ((chunk, written) :: log) result

/-- Run against a staging file; before each write the owner may die, and each has its own faults. -/
def run (env : Nat → Faults × Bool) : Output α → Nat → FileSystem → LocalWriter → OutputRun α
  | .done result, _, files, sink => ⟨[], result, files, sink⟩
  | .write chunk next, n, files, sink =>
    let sink := if (env n).2 then sink.cancel else sink
    let result := sink.write (env n).1 files chunk
    let rest := (next result.1.isOk).run env (n + 1) result.2 sink
    { rest with log := (chunk, result.1.isOk) :: rest.log }

/-- All writes succeeded. -/
def Clean (log : List (Bytes × Bool)) : Prop := ∀ entry ∈ log, entry.2 = true

def bytes (log : List (Bytes × Bool)) : Bytes := log.flatMap Prod.fst

/-- What a run does to the files of its sink. -/
structure Spec (o : Output α) (files : FileSystem) (stage dest : Path) (r : OutputRun α) : Prop where
  answers : o.Answers r.log r.result
  stagePath : r.sink.stagePath = stage
  destination : r.sink.destination = dest
  staged : ∀ content, files.get stage = some (.file content) → Clean r.log →
    r.files.get stage = some (.file (content ++ bytes r.log))
  frame : ∀ p, p ≠ stage → r.files.get p = files.get p

theorem run_spec (env : Nat → Faults × Bool) (o : Output α) (n : Nat) (files : FileSystem) (sink : LocalWriter) :
    o.Spec files sink.stagePath sink.destination (o.run env n files sink) := by
  induction o generalizing n files sink with
  | done result => exact ⟨.done result, rfl, rfl, fun _ h _ => by simpa [run, bytes] using h, fun _ _ => rfl⟩
  | write chunk next ih =>
    rw [run]
    have hsink : (if (env n).2 then sink.cancel else sink).stagePath = sink.stagePath ∧
        (if (env n).2 then sink.cancel else sink).destination = sink.destination := by
      split <;> exact ⟨rfl, rfl⟩
    generalize (if (env n).2 then sink.cancel else sink) = sink' at hsink ⊢
    have h := ih (sink'.write (env n).1 files chunk).1.isOk (n + 1) (sink'.write (env n).1 files chunk).2 sink'
    rw [← hsink.1, ← hsink.2]
    refine ⟨.write h.answers, h.stagePath, h.destination, fun content hcontent hclean => ?_, fun p hp => ?_⟩
    · have hrest := fun entry he => hclean entry (List.mem_cons_of_mem _ he)
      have hwritten : (sink'.write (env n).1 files chunk).1.isOk = true := hclean _ (List.mem_cons_self ..)
      rcases sink'.write_cases (env n).1 files chunk with ⟨-, ⟨failure, hf⟩, -⟩ | ⟨-, ⟨⟨failure, hf⟩, -⟩ | ⟨-, he⟩⟩
      · rw [hf] at hwritten
        cases hwritten
      · rw [hf] at hwritten
        cases hwritten
      · refine (h.staged (content ++ chunk) ?_ hrest).trans ?_
        · rw [he, FileSystem.get_append_self hcontent]
        · simp only [bytes, List.flatMap_cons, List.append_assoc]
    · refine (h.frame p hp).trans ?_
      rcases sink'.write_cases (env n).1 files chunk with ⟨-, -, he⟩ | ⟨-, ⟨-, appended, he⟩ | ⟨-, he⟩⟩
      · rw [he]
      · rw [he, FileSystem.get_append _ hp]
      · rw [he, FileSystem.get_append _ hp]

end Output

/-- The Arrow writer: it is made over a sink, takes batches, and gives the sink back when the file is complete. -/
structure ArrowLibrary where
  State : Type
  tryNew : Output (Option State)
  write : State → RecordBatch → Output (Bool × State)
  intoInner : State → Output Bool

/-- What the Arrow writer documents: an error of the sink is returned, and the row group that it interrupts is never
closed; the file of an unclosed row group is never completed. -/
structure ArrowLibrary.Rules (library : ArrowLibrary) (Unclosed : library.State → Prop) : Prop where
  tryNew : ∀ log state, library.tryNew.Answers log (some state) → Output.Clean log
  write : ∀ state batch log written state', (library.write state batch).Answers log (written, state') →
    ¬ Output.Clean log → written = false ∧ Unclosed state'
  unclosed : ∀ state batch log written state', (library.write state batch).Answers log (written, state') →
    Unclosed state → Unclosed state'
  intoInner : ∀ state log, (library.intoInner state).Answers log true → Output.Clean log ∧ ¬ Unclosed state

/-! ## A Parquet writer over a staging file -/

/-- The writer of a Parquet file, the staging file below it, and the token they share. -/
structure StagedParquet (library : ArrowLibrary) where
  files : FileSystem
  output : LocalWriter
  writer : Option library.State
  active : Bool
  schema : List Field
  maxBatchRows : Nat

/-- A call and what the environment does during it; the staged output is dropped at the end of some. -/
inductive StagedCall
  | writeBatch (term : Term) (env : Nat → Faults × Bool)
  | close (env : Nat → Faults × Bool) (cancelled : Bool) (publish drop : Faults)
  | cancel
  | abort (drop : Faults)

inductive StagedReply
  | written
  | closed (size : Nat)
  | aborted (active : Bool)
  | failed (failure : NativeFailure)
  | none

/-- The reply of a call and the writes to the staged output during it. -/
structure StagedEntry where
  reply : StagedReply
  log : List (Bytes × Bool)

namespace StagedParquet

variable (host : LocalHost) {library : ArrowLibrary}

/-- The Arrow writer of a staged output that has been opened, with what it has written. -/
def openOutput (library : ArrowLibrary) (files : FileSystem) (output : LocalWriter) (schema : List Field)
    (maxBatchRows : Nat) (env : Nat → Faults × Bool) : List (Bytes × Bool) × Option (StagedParquet library) :=
  let r := library.tryNew.run env 0 files output
  (r.log, r.result.map fun state =>
    { files := r.files, output := r.sink, writer := some state, active := true, schema, maxBatchRows })

def writeBatch (s : StagedParquet library) (term : Term) (env : Nat → Faults × Bool) :
    StagedEntry × StagedParquet library :=
  if s.output.cancelled then (⟨.failed (.cancelled .parquetWriterWrite), []⟩, s)
  else if !s.active then (⟨.failed (.cancelled .parquetWriterWrite), []⟩, s)
  else
    match decodeBatch term s.schema s.maxBatchRows with
    | .error failure => (⟨.failed failure, []⟩, s)
    | .ok batch =>
      match s.writer with
      | none => (⟨.failed (.cancelled .parquetWriterWrite), []⟩, s)
      | some state =>
        let r := (library.write state batch).run env 0 s.files s.output
        (⟨if r.result.1 then .written else .failed (encodeFailure .parquetWriterWrite), r.log⟩,
          { s with files := r.files, output := r.sink, writer := some r.result.2 })

def close (s : StagedParquet library) (env : Nat → Faults × Bool) (cancelled : Bool) (publish drop : Faults) :
    StagedEntry × StagedParquet library :=
  if s.output.cancelled then (⟨.failed (.cancelled .parquetWriterClose), []⟩, s)
  else
    match s.writer with
    | none => (⟨.failed (.cancelled .parquetWriterClose), []⟩, s)
    | some state =>
      let r := (library.intoInner state).run env 0 s.files s.output
      let s := { s with writer := none, active := false }
      if r.result then
        let staged := if cancelled then r.sink.cancel else r.sink
        let published := staged.publish host publish r.files
        (⟨match published.1 with
            | .ok size => .closed size
            | .error failure => .failed { failure with operation := .parquetWriterClose }, r.log⟩,
          { s with files := published.2.2.drop drop published.2.1, output := published.2.2 })
      else
        (⟨.failed (encodeFailure .parquetWriterClose), r.log⟩,
          { s with files := r.sink.drop drop r.files, output := r.sink })

def abort (s : StagedParquet library) (drop : Faults) : StagedEntry × StagedParquet library :=
  if !s.active then (⟨.aborted false, []⟩, s)
  else
    let output := s.output.cancel
    let files := if s.writer.isSome then output.drop drop s.files else s.files
    (⟨.aborted true, []⟩, { s with files, output, writer := none, active := false })

def step (s : StagedParquet library) : StagedCall → StagedEntry × StagedParquet library
  | .writeBatch term env => s.writeBatch term env
  | .close env cancelled publish drop => s.close host env cancelled publish drop
  | .cancel => (⟨.none, []⟩, { s with output := s.output.cancel })
  | .abort drop => s.abort drop

def machine : Machine (StagedParquet library) StagedCall StagedEntry := ⟨step host⟩

/-- The writes so far. -/
def logOf (opening : List (Bytes × Bool)) (history : List (StagedCall × StagedEntry)) : List (Bytes × Bool) :=
  opening ++ history.flatMap fun entry => entry.2.log

theorem logOf_concat (opening : List (Bytes × Bool)) (history : List (StagedCall × StagedEntry)) (call : StagedCall)
    (entry : StagedEntry) : logOf opening (history ++ [(call, entry)]) = logOf opening history ++ entry.log := by
  simp [logOf]

structure Inv (Unclosed : library.State → Prop) (log : List (Bytes × Bool)) (s : StagedParquet library) : Prop where
  apart : s.output.stagePath ≠ s.output.destination
  staged : ∀ state, s.writer = some state → Output.Clean log →
    s.files.get s.output.stagePath = some (.file (Output.bytes log))
  unclosed : ∀ state, s.writer = some state → ¬ Output.Clean log → Unclosed state

/-- No close succeeds after a failed write, and a destination that changes holds all that was written. -/
def Poisoned (opening : List (Bytes × Bool)) (history : List (StagedCall × StagedEntry)) (s : StagedParquet library)
    (call : StagedCall) : Prop :=
  let log := logOf opening history ++ (s.step host call).1.log
  (∀ size, (s.step host call).1.reply = .closed size → Output.Clean log) ∧
  ((s.step host call).2.files.get s.output.destination = s.files.get s.output.destination ∨
    (s.step host call).2.files.get s.output.destination = none ∨
    (s.step host call).2.files.get s.output.destination = some (.file (Output.bytes log)))

section
variable {host : LocalHost} {Unclosed : library.State → Prop} {log : List (Bytes × Bool)} {s : StagedParquet library}

theorem clean_append {before after : List (Bytes × Bool)} :
    Output.Clean (before ++ after) ↔ Output.Clean before ∧ Output.Clean after := by
  unfold Output.Clean
  constructor
  · intro h
    exact ⟨fun entry he => h entry (by simp [he]), fun entry he => h entry (by simp [he])⟩
  · rintro ⟨h₁, h₂⟩ entry he
    rcases List.mem_append.mp he with he | he
    · exact h₁ entry he
    · exact h₂ entry he

theorem bytes_append (before after : List (Bytes × Bool)) :
    Output.bytes (before ++ after) = Output.bytes before ++ Output.bytes after := List.flatMap_append

/-- What a call does: it keeps the invariant, and it does not put less than the whole at the destination. -/
structure Keeps (Unclosed : library.State → Prop) (log : List (Bytes × Bool)) (s : StagedParquet library)
    (r : StagedEntry × StagedParquet library) : Prop where
  inv : Inv Unclosed (log ++ r.1.log) r.2
  destination : r.2.output.destination = s.output.destination
  closed : ∀ size, r.1.reply = .closed size → Output.Clean (log ++ r.1.log)
  content : r.2.files.get s.output.destination = s.files.get s.output.destination ∨
    r.2.files.get s.output.destination = none ∨
    r.2.files.get s.output.destination = some (.file (Output.bytes (log ++ r.1.log)))

/-- A call that writes nothing and leaves what it finds. -/
theorem Inv.quiet (h : Inv Unclosed log s) {reply : StagedReply} (hr : ∀ size, reply ≠ .closed size) :
    Keeps Unclosed log s (⟨reply, []⟩, s) :=
  ⟨by rw [List.append_nil]; exact h, rfl, fun size he => absurd he (hr size), Or.inl rfl⟩

/-- A call that gives up the Arrow writer. -/
theorem Inv.gone {s' : StagedParquet library} (h : Inv Unclosed log s) (hw : s'.writer = none)
    (hs : s'.output.stagePath = s.output.stagePath) (hd : s'.output.destination = s.output.destination)
    (log' : List (Bytes × Bool)) : Inv Unclosed log' s' := by
  refine ⟨by rw [hs, hd]; exact h.apart, ?_, ?_⟩
  all_goals
    intro state he
    rw [hw] at he
    cases he

theorem writeBatch_keeps (hlib : library.Rules Unclosed) (h : Inv Unclosed log s) (term : Term)
    (env : Nat → Faults × Bool) : Keeps Unclosed log s (s.writeBatch term env) := by
  unfold writeBatch
  split
  · exact h.quiet nofun
  · split
    · exact h.quiet nofun
    · split
      · exact h.quiet nofun
      · rename_i batch hbatch
        cases hw : s.writer with
        | none => exact h.quiet nofun
        | some state =>
          dsimp only
          have hr := Output.run_spec env (library.write state batch) 0 s.files s.output
          generalize (library.write state batch).run env 0 s.files s.output = r at hr ⊢
          refine ⟨⟨by rw [hr.stagePath, hr.destination]; exact h.apart, ?_, ?_⟩, hr.destination, ?_,
            Or.inl (hr.frame _ h.apart.symm)⟩
          · intro _ _ hclean
            obtain ⟨h₁, h₂⟩ := clean_append.mp hclean
            dsimp only
            rw [hr.stagePath, bytes_append]
            exact hr.staged _ (h.staged state hw h₁) h₂
          · intro state' hs hclean
            obtain rfl := Option.some.inj hs
            by_cases hr' : Output.Clean r.log
            · exact hlib.unclosed _ _ _ _ _ hr.answers (h.unclosed state hw fun h₁ => hclean (clean_append.mpr ⟨h₁, hr'⟩))
            · exact (hlib.write _ _ _ _ _ hr.answers hr').2
          · intro size he
            dsimp only at he
            split at he <;> cases he

theorem drop_get (faults : Faults) (w : LocalWriter) (files : FileSystem) {p : Path} (hp : p ≠ w.stagePath) :
    (w.drop faults files).get p = files.get p := by
  unfold LocalWriter.drop
  split
  · exact LocalWriter.get_removeStage faults w files hp
  · rfl

theorem close_keeps (hlib : library.Rules Unclosed) (h : Inv Unclosed log s) (env : Nat → Faults × Bool)
    (cancelled : Bool) (publish drop : Faults) : Keeps Unclosed log s (s.close host env cancelled publish drop) := by
  unfold close
  split
  · exact h.quiet nofun
  · cases hw : s.writer with
    | none => exact h.quiet nofun
    | some state =>
      dsimp only
      have hr := Output.run_spec env (library.intoInner state) 0 s.files s.output
      generalize (library.intoInner state).run env 0 s.files s.output = r at hr ⊢
      have hapart : r.sink.stagePath ≠ r.sink.destination := by rw [hr.stagePath, hr.destination]; exact h.apart
      cases hresult : r.result with
      | false =>
        rw [if_neg nofun]
        refine ⟨h.gone rfl hr.stagePath hr.destination _, hr.destination, nofun, Or.inl ?_⟩
        dsimp only
        rw [drop_get _ _ _ (by rw [hr.stagePath]; exact h.apart.symm)]
        exact hr.frame _ h.apart.symm
      | true =>
        rw [if_pos rfl]
        have hanswers := hr.answers
        rw [hresult] at hanswers
        obtain ⟨hclean, hclosed⟩ := hlib.intoInner _ _ hanswers
        have hlog : Output.Clean log := by
          by_contra hn
          exact hclosed (h.unclosed state hw hn)
        have hsink : (if cancelled then r.sink.cancel else r.sink).stagePath = s.output.stagePath ∧
            (if cancelled then r.sink.cancel else r.sink).destination = s.output.destination := by
          split <;> exact ⟨hr.stagePath, hr.destination⟩
        generalize (if cancelled then r.sink.cancel else r.sink) = staged at hsink ⊢
        have hpaths := staged.publish_paths host publish r.files
        have hpublish := (staged.publish_destination host publish r.files (by rw [hsink.1, hsink.2]; exact h.apart)).2
        have hdrop : ∀ files : FileSystem, ((staged.publish host publish r.files).2.2.drop drop files).get
            s.output.destination = files.get s.output.destination := fun files =>
          drop_get _ _ _ (by rw [hpaths.1, hsink.1]; exact h.apart.symm)
        have hwhole := clean_append.mpr ⟨hlog, hclean⟩
        refine ⟨h.gone rfl (hpaths.1.trans hsink.1) (hpaths.2.trans hsink.2) _, hpaths.2.trans hsink.2,
          fun _ _ => hwhole, ?_⟩
        dsimp only
        rw [hdrop, bytes_append]
        rw [hsink.1, hsink.2] at hpublish
        rcases hpublish with ⟨-, -, hd⟩ | ⟨-, -, hd | hd⟩
        · exact Or.inr (Or.inr (hd.trans (hr.staged _ (h.staged state hw hlog) hclean)))
        · exact Or.inl (hd.trans (hr.frame _ h.apart.symm))
        · exact Or.inr (Or.inl hd)

theorem abort_keeps (h : Inv Unclosed log s) (drop : Faults) : Keeps Unclosed log s (s.abort drop) := by
  unfold abort
  split
  · exact h.quiet nofun
  · refine ⟨?_, rfl, nofun, Or.inl ?_⟩
    · have hnone : ∀ files, Inv Unclosed (log ++ [])
          { s with files, output := s.output.cancel, writer := none, active := false } :=
        fun files => ⟨h.apart, nofun, nofun⟩
      exact hnone _
    · dsimp only
      split
      · exact drop_get drop s.output.cancel s.files h.apart.symm
      · rfl

theorem step_keeps (hlib : library.Rules Unclosed) (h : Inv Unclosed log s) (call : StagedCall) :
    Keeps Unclosed log s (s.step host call) := by
  cases call with
  | writeBatch term env => exact writeBatch_keeps hlib h term env
  | close env cancelled publish drop => exact close_keeps hlib h env cancelled publish drop
  | cancel =>
    refine ⟨⟨h.apart, ?_, ?_⟩, rfl, nofun, Or.inl rfl⟩
    · intro state hs hclean
      change s.files.get s.output.stagePath = some (.file (Output.bytes (log ++ [])))
      rw [List.append_nil]
      exact h.staged state hs (clean_append.mp hclean).1
    · intro state hs hclean
      exact h.unclosed state hs fun hn => hclean (clean_append.mpr ⟨hn, nofun⟩)
  | abort drop => exact abort_keeps h drop

end

/-- What an open that succeeds leaves. -/
theorem openOutput_inv {Unclosed : library.State → Prop} (hlib : library.Rules Unclosed) {files : FileSystem}
    {output : LocalWriter} {schema : List Field} {maxBatchRows : Nat} {env : Nat → Faults × Bool}
    {opening : List (Bytes × Bool)} {s : StagedParquet library} (hne : output.stagePath ≠ output.destination)
    (hstage : files.get output.stagePath = some (.file []))
    (h : openOutput library files output schema maxBatchRows env = (opening, some s)) : Inv Unclosed opening s := by
  unfold openOutput at h
  have hr := Output.run_spec env library.tryNew 0 files output
  generalize library.tryNew.run env 0 files output = r at hr h
  obtain ⟨rfl, hs⟩ := Prod.mk.inj h
  obtain ⟨state, hresult, rfl⟩ := Option.map_eq_some_iff.mp hs
  have hanswers := hr.answers
  rw [hresult] at hanswers
  have hclean := hlib.tryNew _ _ hanswers
  refine ⟨by rw [hr.stagePath, hr.destination]; exact hne, fun _ _ _ => ?_, fun _ _ hn => absurd hclean hn⟩
  have := hr.staged [] hstage hclean
  rw [List.nil_append] at this
  dsimp only
  rw [hr.stagePath]
  exact this

end StagedParquet

/-- A failed write poisons its writer, beneath a Parquet writer always, and alone when its caller stops. -/
theorem failed_write_poisons (host : LocalHost) (files : FileSystem) (w : LocalWriter) (hw : w.Staged host)
    (hfresh : w.Open ∧ files.get w.stagePath = some (.file [])) :
    (∀ events, (Staging.machine host).Along (Staging.Intact host) ⟨files, w⟩ events →
      (Staging.machine host).Along (Staging.Poisoned host) ⟨files, w⟩ events) ∧
    (∀ (library : ArrowLibrary) (Unclosed : library.State → Prop), library.Rules Unclosed →
      ∀ schema maxBatchRows env opening s,
        StagedParquet.openOutput library files w schema maxBatchRows env = (opening, some s) →
        ∀ calls, (StagedParquet.machine host).Along (StagedParquet.Poisoned host opening) s calls) := by
  constructor
  · intro events hintact
    have h0 : Staging.Inv [] ⟨files, w⟩ := ⟨hw.ne, fun _ _ => hfresh.2⟩
    exact hintact.imp_inv h0 (fun _ s e _ h => Staging.step_inv h e) fun _ _ _ hi h => Staging.step_poisoned hi h
  · intro library Unclosed hlib schema maxBatchRows env opening s hopen calls
    have h0 : StagedParquet.Inv Unclosed (StagedParquet.logOf opening []) s := by
      have := StagedParquet.openOutput_inv hlib hw.ne hfresh.2 hopen
      simpa [StagedParquet.logOf] using this
    have hkeeps : ∀ history s call, StagedParquet.Inv Unclosed (StagedParquet.logOf opening history) s →
        StagedParquet.Keeps Unclosed (StagedParquet.logOf opening history) s (s.step host call) :=
      fun _ _ call h => StagedParquet.step_keeps hlib h call
    have hall : (StagedParquet.machine host).Along (fun _ _ _ => True) s calls := fun _ _ _ _ => trivial
    refine hall.imp_inv (I := fun history s => StagedParquet.Inv Unclosed (StagedParquet.logOf opening history) s) h0
      ?_ ?_
    · intro history s call _ h
      rw [StagedParquet.logOf_concat]
      exact (hkeeps history s call h).inv
    · intro history s call _ h
      exact ⟨(hkeeps history s call h).closed, (hkeeps history s call h).content⟩

/-! ## A writer that loses its second byte -/

/-- The write fails after one byte, and the publish is made all the same. -/
def tornCalls : List (LocalWriter.Call × Faults) :=
  [(.write [1, 2], .only .writeAll .other 1), (.publish, .never)]

def tornFiles : FileSystem :=
  (FileSystem.set ⟨∅⟩ ["data"] .directory).set ["data", ".k.parquex-7-0.tmp"] (.file [])

theorem torn_write_published :
    ¬ (Staging.machine syncedHost).Along (Staging.Poisoned syncedHost) ⟨tornFiles, syncedWriter⟩ tornCalls := by
  intro h
  have := (h [(.write [1, 2], .only .writeAll .other 1)] (.publish, .never) [] rfl).1 1 (by decide)
  revert this
  decide

/-- An encoder that stages every batch as one byte, and refuses once a byte was not written. -/
def byteLibrary : ArrowLibrary where
  State := Bool
  tryNew := .done (some true)
  write := fun closed _ => .write [0] fun written => .done (written, closed && written)
  intoInner := fun closed => .done closed

theorem byteLibrary_rules : byteLibrary.Rules (· = false) where
  tryNew := by
    intro log state h
    cases h
    nofun
  write := by
    intro closed batch log written state' h hclean
    cases h with
    | write h =>
      cases h
      cases written with
      | true => exact absurd (by simp [Output.Clean]) hclean
      | false => exact ⟨rfl, Bool.and_false _⟩
  unclosed := by
    intro closed batch log written state' h hclosed
    cases h with
    | write h =>
      cases h
      rw [hclosed, Bool.false_and]
  intoInner := by
    intro closed log h
    cases h
    exact ⟨nofun, nofun⟩

theorem failed_write_poisons_refused :
    (Staging.machine syncedHost).Along (Staging.Poisoned syncedHost) ⟨tornFiles, syncedWriter⟩
        [(.write [1, 2], .only .writeAll .other 1), (.abort, .never), (.publish, .never)] ∧
      ∀ calls s, StagedParquet.openOutput byteLibrary tornFiles syncedWriter [] 1 (fun _ => (.never, false)) = ([], some s) →
        (StagedParquet.machine syncedHost).Along (StagedParquet.Poisoned syncedHost []) s calls := by
  have h := failed_write_poisons syncedHost tornFiles syncedWriter syncedWriter_staged
    ⟨⟨rfl, rfl, rfl⟩, by decide⟩
  refine ⟨h.1 _ ?_, fun calls s hs => h.2 byteLibrary (· = false) byteLibrary_rules [] 1 _ [] s hs calls⟩
  intro before event after he hpublish _ hopen
  -- the publish comes after the abort
  have hlength := congrArg List.length he
  simp only [List.length_cons, List.length_append, List.length_nil] at hlength
  match before, he with
  | [], he => cases he; cases hpublish
  | [_], he => cases he; cases hpublish
  | [_, _], he =>
    cases he
    exact absurd hopen.2.1 (by decide)
  | _ :: _ :: _ :: _, he =>
    simp only [List.length_cons] at hlength
    omega

end Parquex
