import Parquex.FileWrite
import Parquex.StorePutSound

/-!
# What a written file is

A write that is answered has put the whole file of its batches under its key, and
one that fails has put nothing there. The file is what the Parquet library makes of
the batches when each of its chunks is written.
-/

namespace Parquex

/-! ## Outputs whose chunks are written -/

namespace Output

variable {α : Type}

/-- The bytes and the result of an output all of whose chunks are written. -/
def complete : Output α → Bytes × α
  | .done result => ([], result)
  | .write chunk next => (chunk ++ (next true).complete.1, (next true).complete.2)

theorem Answers.complete {o : Output α} {log : List (Bytes × Bool)} {result : α} (h : o.Answers log result)
    (hclean : Clean log) : o.complete = (bytes log, result) := by
  induction h with
  | done => rfl
  | @write chunk next written log result _ ih =>
    obtain rfl : written = true := hclean _ List.mem_cons_self
    rw [Output.complete, ih fun entry he => hclean entry (List.mem_cons_of_mem _ he)]
    rfl

end Output

namespace LocalHost

variable {host : LocalHost} {w : LocalWriter} {mid files : FileSystem} {bytes : Bytes}

/-- The staging file of an open writer gets what is written of an output, and all of it when no chunk fails. -/
theorem run_stages {α : Type} (hopen : ∀ operation, w.ensureOpen operation = .ok ()) (faults : CallFaults)
    (o : Output α) (n : Nat) (h : host.Stages w mid files bytes) :
    (o.run faults.chunks n files w).sink = w ∧
      (∃ written, host.Stages w mid (o.run faults.chunks n files w).files written ∧
        (Output.Clean (o.run faults.chunks n files w).log → written = bytes ++ o.complete.1)) ∧
      (faults = .never → Output.Clean (o.run faults.chunks n files w).log) := by
  induction o generalizing n files bytes with
  | done result =>
    refine ⟨rfl, ⟨bytes, h, fun _ => ?_⟩, fun _ entry he => by cases he⟩
    rw [Output.complete, List.append_nil]
  | write chunk next ih =>
    have hrun : (Output.write chunk next).run faults.chunks n files w =
        let result := w.write (faults.chunk n) files chunk
        let rest := (next result.1.isOk).run faults.chunks (n + 1) result.2 w
        { rest with log := (chunk, result.1.isOk) :: rest.log } := rfl
    rw [hrun]
    rcases write_cases (faults.chunk n) h hopen chunk with ⟨hok, hstages⟩ | ⟨failure, part, herror, hstages, hfaults⟩
    · obtain ⟨hsink, ⟨written, hwritten, hwhole⟩, hnever⟩ := ih true (n + 1) hstages
      simp only [hok, Except.isOk, Except.toBool]
      refine ⟨hsink, ⟨written, hwritten, fun hclean => ?_⟩, fun hf entry he => ?_⟩
      · rw [hwhole fun entry he => hclean entry (List.mem_cons_of_mem _ he), Output.complete, List.append_assoc]
      · rcases List.mem_cons.mp he with rfl | he
        · rfl
        · exact hnever hf entry he
    · obtain ⟨hsink, ⟨written, hwritten, -⟩, -⟩ := ih false (n + 1) hstages
      simp only [herror, Except.isOk, Except.toBool]
      refine ⟨hsink, ⟨written, hwritten, fun hclean => ?_⟩, fun hf => absurd (by rw [hf]; rfl) hfaults⟩
      cases hclean _ List.mem_cons_self

end LocalHost

/-! ## The file of some batches -/

namespace ArrowLibrary

variable (library : ArrowLibrary)

/-- What an Arrow writer has come to: the bytes that are written, and its state. -/
abbrev Progress : Type := Bytes × library.State

def begun : Option library.Progress :=
  library.tryNew.complete.2.map fun state => (library.tryNew.complete.1, state)

def take (progress : library.Progress) (batch : RecordBatch) : Option library.Progress :=
  let written := (library.write progress.2 batch).complete
  if written.2.1 then some (progress.1 ++ written.1, written.2.2) else none

def ended (progress : library.Progress) : Option Bytes :=
  let ending := (library.intoInner progress.2).complete
  if ending.2 then some (progress.1 ++ ending.1) else none

/-- The file of some batches, unless the library refuses one. -/
def file (batches : List RecordBatch) : Option Bytes := do
  let begun ← library.begun
  let progress ← batches.foldlM library.take begun
  library.ended progress

end ArrowLibrary

namespace FileWriter

/-- What the library refuses fails under the operation. -/
def accepted {α : Type} (operation : Operation) (result : Option α) : Except NativeFailure α :=
  result.elim (.error (encodeFailure operation)) .ok

section
variable (library : ArrowLibrary) (fields : List Field) (maxBatchRows : Nat)

/-- One more batch term. -/
def takeTerm (progress : library.Progress) (term : Term) : Except NativeFailure library.Progress := do
  let record ← decodeBatch term fields maxBatchRows
  accepted .parquetWriterWrite (library.take progress record)

/-- One more batch of a file with the schema. -/
def takeBatch (schema : Schema) (progress : library.Progress) (batch : Batch) :
    Except (Stop Error) library.Progress :=
  if !batch.schema.beq schema then .error (.error (invalid "batch schema does not match writer schema"))
  else if maxBatchRows < batch.rowCount then .error (.error (invalid "batch exceeds max_batch_rows"))
  else TimePartition.nativeResult (takeTerm library fields maxBatchRows progress batch.toNative)

end

variable (arrow : ArrowWriters)

/-- What a file with these settings is to be, as long as the writer gets its batches. -/
def fileContent (settings : Settings) (native : List NativeField) (schema : Schema) (batches : List Batch) :
    Except (Stop Error) Bytes := do
  let fields ← TimePartition.nativeResult (arrowChildren native)
  let library := arrow settings.properties fields
  let begun ← TimePartition.nativeResult (accepted .parquetWriterOpen library.begun)
  let progress ← batches.foldlM (takeBatch library fields settings.maxBatchRows schema) begun
  TimePartition.nativeResult (accepted .parquetWriterClose (library.ended progress))

theorem fileContent_eq {native : List NativeField} {fields : List Field} (h : arrowChildren native = .ok fields)
    (settings : Settings) (schema : Schema) (batches : List Batch) :
    fileContent arrow settings native schema batches =
      ((TimePartition.nativeResult (accepted .parquetWriterOpen (arrow settings.properties fields).begun) >>=
          fun begun => batches.foldlM
            (takeBatch (arrow settings.properties fields) fields settings.maxBatchRows schema) begun) >>=
        fun progress => TimePartition.nativeResult
          (accepted .parquetWriterClose ((arrow settings.properties fields).ended progress))) := by
  unfold fileContent
  rw [h, bind_assoc]
  rfl

end FileWriter

/-! ## The native writer -/

namespace StagedParquet

open FileWriter LocalHost

variable {library : ArrowLibrary}

section
variable (host : LocalHost) (w : LocalWriter) (mid : FileSystem)

/-- An open writer over its staging file. -/
structure Stands (staged : StagedParquet library) : Prop where
  output : staged.output = w
  active : staged.active = true
  writer : staged.writer.isSome = true
  stages : ∃ bytes, host.Stages w mid staged.files bytes

/-- An open writer has written what it has come to, unless a fault has left a row group that is not closed. -/
structure Writes (Unclosed : library.State → Prop) (faultless : Prop)
    (progress : Except (Stop Error) library.Progress) (staged : StagedParquet library) : Prop where
  output : staged.output = w
  active : staged.active = true
  written : ∃ state bytes, staged.writer = some state ∧ host.Stages w mid staged.files bytes ∧
    (progress = .ok (bytes, state) ∨ Unclosed state ∧ ¬ faultless)

end

variable {host : LocalHost} {w : LocalWriter} {mid : FileSystem} {Unclosed : library.State → Prop} {faultless : Prop}
  {progress : Except (Stop Error) library.Progress} {staged : StagedParquet library} {faults : CallFaults}

theorem Writes.stands (h : Writes host w mid Unclosed faultless progress staged) : Stands host w mid staged := by
  obtain ⟨state, bytes, hw, hstages, -⟩ := h.written
  exact ⟨h.output, h.active, by rw [hw]; rfl, bytes, hstages⟩

theorem Writes.progress_ok (h : Writes host w mid Unclosed faultless progress staged) (hf : faultless) :
    ∃ reached, progress = .ok reached := by
  obtain ⟨state, bytes, -, -, hprogress | ⟨-, hnot⟩⟩ := h.written
  · exact ⟨_, hprogress⟩
  · exact absurd hf hnot

/-- What a call leaves of the schema that batches are held against. -/
def SameShape (staged staged' : StagedParquet library) : Prop :=
  staged'.schema = staged.schema ∧ staged'.maxBatchRows = staged.maxBatchRows

theorem writeBatch_shape (term : Term) : SameShape staged (staged.writeBatch term faults.chunks).2 := by
  unfold StagedParquet.writeBatch
  split
  · exact ⟨rfl, rfl⟩
  · split
    · exact ⟨rfl, rfl⟩
    · split
      · exact ⟨rfl, rfl⟩
      · split <;> exact ⟨rfl, rfl⟩

/-- A batch that is written is in the file, or the file is never closed. -/
theorem writeBatch_writes (hlib : library.Rules Unclosed) (hopen : ∀ operation, w.ensureOpen operation = .ok ())
    (hfaults : faultless → faults = .never) (h : Writes host w mid Unclosed faultless progress staged) (term : Term) :
    let written := staged.writeBatch term faults.chunks
    let progress' := progress >>= fun progress =>
      TimePartition.nativeResult (takeTerm library staged.schema staged.maxBatchRows progress term)
    (written.1.reply.failure? = none ∧ Writes host w mid Unclosed faultless progress' written.2) ∨
      ∃ failure, written.1.reply.failure? = some failure ∧ Stands host w mid written.2 ∧
        (faultless → progress' = .error (.error (.fromNative failure))) := by
  obtain ⟨state, bytes, hw, hstages, hprogress⟩ := h.written
  have hcancelled : staged.output.cancelled = false := by
    rw [h.output]
    exact (LocalWriter.ensureOpen_eq_ok.mp (hopen .writerWrite)).1
  unfold StagedParquet.writeBatch
  simp only [hcancelled, h.active, Bool.not_true, Bool.false_eq_true, if_false]
  cases hdecode : decodeBatch term staged.schema staged.maxBatchRows with
  | error failure =>
    refine Or.inr ⟨failure, rfl, h.stands, fun hf => ?_⟩
    rcases hprogress with rfl | ⟨-, hnot⟩
    · simp [takeTerm, hdecode, bind, Except.bind, TimePartition.nativeResult]
    · exact absurd hf hnot
  | ok batch =>
    simp only [hw, h.output]
    obtain ⟨hsink, ⟨part, hpart, hwhole⟩, hnever⟩ := run_stages hopen faults (library.write state batch) 0 hstages
    have hanswers := (Output.run_spec faults.chunks (library.write state batch) 0 staged.files w).answers
    generalize (library.write state batch).run faults.chunks 0 staged.files w = r at *
    have hstands : ∀ state' : library.State, Stands host w mid
        { staged with files := r.files, output := r.sink, writer := some state', active := true } := fun _ =>
      ⟨hsink, rfl, rfl, part, hpart⟩
    by_cases hclean : Output.Clean r.log
    · have hcomplete := hanswers.complete hclean
      have htake : library.take (bytes, state) batch = if r.result.1 then some (part, r.result.2) else none := by
        unfold ArrowLibrary.take
        rw [hwhole hclean]
        simp only [hcomplete]
      cases hresult : r.result.1 with
      | false =>
        refine Or.inr ⟨encodeFailure .parquetWriterWrite, rfl, hstands _, fun hf => ?_⟩
        rcases hprogress with rfl | ⟨-, hnot⟩
        · rw [hresult] at htake
          simp [takeTerm, hdecode, htake, accepted, bind, Except.bind, TimePartition.nativeResult]
        · exact absurd hf hnot
      | true =>
        refine Or.inl ⟨rfl, hsink, rfl, r.result.2, part, rfl, hpart, ?_⟩
        rcases hprogress with rfl | ⟨hunclosed, hnot⟩
        · rw [hresult] at htake
          exact Or.inl (by simp [takeTerm, hdecode, htake, accepted, bind, Except.bind, TimePartition.nativeResult])
        · exact Or.inr ⟨hlib.unclosed _ _ _ _ _ hanswers hunclosed, hnot⟩
    · -- The library answers for the chunk that is missing.
      obtain ⟨hresult, -⟩ := hlib.write _ _ _ _ _ hanswers hclean
      rw [hresult]
      exact Or.inr ⟨encodeFailure .parquetWriterWrite, rfl, hstands _, fun hf => absurd (hnever (hfaults hf)) hclean⟩

/-- The failure of a publish over a directory. -/
def directoryFailure : NativeFailure :=
  { NativeFailure.fromIo .writerPublish .isADirectory with operation := .parquetWriterClose }

theorem drop_leaves {files : FileSystem} {bytes : Bytes} (h : host.Stages w mid files bytes) (ha : w.active = true)
    (drop : Faults) : host.Leaves w mid (w.drop drop files) ∧
      (drop = .never → (w.drop drop files).get w.stagePath = none) := by
  unfold LocalWriter.drop
  rw [if_pos ha]
  exact h.leaves.removeStage drop (by simp [h.own])

/-- A close publishes the whole file, or nothing. -/
theorem close_ends (hlib : library.Rules Unclosed) (hopen : ∀ operation, w.ensureOpen operation = .ok ())
    (hfaults : faultless → faults = .never) (h : Writes host w mid Unclosed faultless progress staged)
    (hstaged : w.Staged host) {key k : String} (hk : AcceptedKey key) (hdest : w.destination = host.location key)
    (hk' : AcceptedKey k) (hstage : w.stagePath = host.location k) (hsync : w.sync ≠ .all)
    (hf : host.windows = false ∨ faults = .never) :
    let closed := staged.close host faults.chunks false faults.call faults.drop
    let content := progress >>= fun progress =>
      TimePartition.nativeResult (accepted .parquetWriterClose (library.ended progress))
    closed.2.active = false ∧
      ((∃ bytes, content = .ok bytes ∧ closed.1.reply = .closed bytes.length ∧
          host.Publishes w mid bytes closed.2.files) ∨
        ∃ failure, closed.1.reply = .failed failure ∧ host.Leaves w mid closed.2.files ∧
          (faultless → closed.2.files.get w.stagePath = none ∧
            (content = .error (.error (.fromNative failure)) ∨
              ∃ bytes, content = .ok bytes ∧ mid.get w.destination = some .directory ∧
                failure = directoryFailure))) := by
  obtain ⟨state, bytes, hw, hstages, hprogress⟩ := h.written
  have hlocal := LocalWriter.ensureOpen_eq_ok.mp (hopen .writerPublish)
  unfold StagedParquet.close
  simp only [h.output, hlocal.1, hw, Bool.false_eq_true, if_false]
  obtain ⟨hsink, ⟨part, hpart, hwhole⟩, hnever⟩ := run_stages hopen faults (library.intoInner state) 0 hstages
  have hanswers := (Output.run_spec faults.chunks (library.intoInner state) 0 staged.files w).answers
  generalize (library.intoInner state).run faults.chunks 0 staged.files w = r at *
  cases hresult : r.result with
  | false =>
    simp only [Bool.false_eq_true, if_false]
    obtain ⟨hleaves, hgone⟩ := drop_leaves hpart hlocal.2.1 faults.drop
    rw [hsink]
    refine ⟨trivial, Or.inr ⟨_, rfl, hleaves, fun hfaultless => ⟨hgone (by rw [hfaults hfaultless]; rfl), Or.inl ?_⟩⟩⟩
    rcases hprogress with rfl | ⟨-, hnot⟩
    · have hcomplete := hanswers.complete (hnever (hfaults hfaultless))
      simp [ArrowLibrary.ended, hcomplete, hresult, accepted, bind, Except.bind, TimePartition.nativeResult]
    · exact absurd hfaultless hnot
  | true =>
    simp only [if_true]
    rw [hresult] at hanswers
    obtain ⟨hclean, hclosed⟩ := hlib.intoInner _ _ hanswers
    have hcontent : (progress >>= fun progress =>
        TimePartition.nativeResult (accepted .parquetWriterClose (library.ended progress))) = .ok part := by
      rcases hprogress with rfl | ⟨hunclosed, -⟩
      · rw [hwhole hclean]
        simp [ArrowLibrary.ended, hanswers.complete hclean, accepted, bind, Except.bind, TimePartition.nativeResult]
      · exact absurd hunclosed hclosed
    have hcall : host.windows = false ∨ faults.call = .never := hf.imp id fun hf => by rw [hf]; rfl
    obtain ⟨hinactive, hend⟩ := publish_cases hpart (hopen .writerPublish) hstaged hk hdest hk' hstage hsync hcall
    have hdrop : ∀ files : FileSystem, (w.publish host faults.call r.files).2.2.drop faults.drop files = files := by
      intro files
      unfold LocalWriter.drop
      rw [hinactive]
      rfl
    rw [hsink, hdrop]
    refine ⟨trivial, ?_⟩
    rcases hend with ⟨hok, hpub⟩ | ⟨failure, herror, hleaves, hgone⟩
    · exact Or.inl ⟨part, hcontent, by rw [hok], hpub⟩
    · refine Or.inr ⟨_, by rw [herror], hleaves, fun hfaultless => ?_⟩
      obtain ⟨hnone, rfl, hd⟩ := hgone (by rw [hfaults hfaultless]; rfl)
      exact ⟨hnone, Or.inr ⟨part, hcontent, hd, rfl⟩⟩

/-- An abort leaves no more of an open writer than its staging file. -/
theorem Stands.abort (h : Stands host w mid staged) (ha : w.active = true) (drop : Faults) :
    host.Leaves w mid (staged.abort drop).2.files ∧
      (drop = .never → (staged.abort drop).2.files.get w.stagePath = none) := by
  obtain ⟨bytes, hstages⟩ := h.stages
  unfold StagedParquet.abort
  simp only [h.active, h.writer, Bool.not_true, Bool.false_eq_true, if_false, if_true, h.output]
  exact drop_leaves hstages ha drop

theorem abort_inactive (ha : staged.active = false) (drop : Faults) :
    (staged.abort drop).2.files = staged.files := by
  unfold StagedParquet.abort
  rw [ha]
  rfl

end StagedParquet

/-! ## The writer of the library -/

namespace FileWriter

open LocalHost StagedParquet

variable {arrow : ArrowWriters} {Unclosed : ∀ properties fields, (arrow properties fields).State → Prop}
  {host : LocalHost} {w : LocalWriter} {mid : FileSystem} {properties : WriterProperties} {fields : List Field}

/-- No system call fails. -/
def Faultless (environment : Nat → CallFaults) : Prop := ∀ n, environment n = .never

/-- A writer of the library on its native writer. -/
abbrev writerOn (staged : StagedParquet (arrow properties fields)) (key : String) (schema : Schema)
    (maxBatchRows : Nat) : Writer arrow :=
  { resource := ⟨properties, fields, staged⟩, key, schema, maxBatchRows }

section
variable {environment : Nat → CallFaults} {key : String} {schema : Schema} {maxBatchRows : Nat}
  {progress : Except (Stop Error) (arrow properties fields).Progress}
  (hlib : (arrow properties fields).Rules (Unclosed properties fields))
  (hopen : ∀ operation, w.ensureOpen operation = .ok ())

/-- What is left of a writer after some batches: it has come to the rest, or it stands where it has stopped. -/
structure Continues (host : LocalHost) (w : LocalWriter) (mid : FileSystem)
    (Unclosed : (arrow properties fields).State → Prop) (faultless : Prop) (key : String) (schema : Schema)
    (maxBatchRows : Nat) (progress : Except (Stop Error) (arrow properties fields).Progress)
    (result : Except (Stop Error) Unit × StoreDisk × Writer arrow) : Prop where
  writer : ∃ staged : StagedParquet (arrow properties fields),
    result.2.2 = writerOn staged key schema maxBatchRows ∧ staged.schema = fields ∧
      staged.maxBatchRows = maxBatchRows ∧
      ((result.1 = .ok () ∧ Writes host w mid Unclosed faultless progress { staged with files := result.2.1.files }) ∨
        ∃ stop, result.1 = .error stop ∧ Stands host w mid { staged with files := result.2.1.files } ∧
          (faultless → progress = .error stop))

include hlib hopen

variable (key schema) in
theorem writeBatch_continues {s : StoreDisk} {staged : StagedParquet (arrow properties fields)}
    (hschema : staged.schema = fields) (hmax : staged.maxBatchRows = maxBatchRows)
    (h : Writes host w mid (Unclosed properties fields) (Faultless environment) progress
      { staged with files := s.files }) (batch : Batch) :
    Continues host w mid (Unclosed properties fields) (Faultless environment) key schema maxBatchRows
      (progress >>= fun progress => takeBatch (arrow properties fields) fields maxBatchRows schema progress batch)
      (writeBatch environment s (writerOn staged key schema maxBatchRows) batch) := by
  unfold FileWriter.writeBatch
  simp only [writerOn]
  by_cases hsame : (!batch.schema.beq schema) = true
  · rw [if_pos hsame]
    refine ⟨staged, rfl, hschema, hmax, Or.inr ⟨_, rfl, h.stands, fun hf => ?_⟩⟩
    obtain ⟨reached, rfl⟩ := h.progress_ok hf
    simp only [takeBatch, hsame, if_true, bind, Except.bind]
  · rw [if_neg hsame]
    by_cases hcount : maxBatchRows < batch.rowCount
    · rw [if_pos hcount]
      refine ⟨staged, rfl, hschema, hmax, Or.inr ⟨_, rfl, h.stands, fun hf => ?_⟩⟩
      obtain ⟨reached, rfl⟩ := h.progress_ok hf
      simp only [takeBatch, hsame, hcount, if_true, if_false, bind, Except.bind, Bool.false_eq_true]
    · rw [if_neg hcount]
      have hwrites := writeBatch_writes hlib hopen (fun hf : Faultless environment => hf s.calls) h batch.toNative
      have hshape := @writeBatch_shape _ { staged with files := s.files } (environment s.calls) batch.toNative
      simp only [nativeWrite, Resource.on]
      generalize StagedParquet.writeBatch { staged with files := s.files } batch.toNative
        (environment s.calls).chunks = written at hwrites hshape
      obtain ⟨hschema', hmax'⟩ := hshape
      simp only [hschema, hmax] at hwrites hschema' hmax'
      have htake : (progress >>= fun progress =>
          takeBatch (arrow properties fields) fields maxBatchRows schema progress batch) =
          progress >>= fun progress => TimePartition.nativeResult
            (takeTerm (arrow properties fields) fields maxBatchRows progress batch.toNative) := by
        simp only [takeBatch, hsame, hcount, if_false, Bool.false_eq_true]
      rw [htake]
      refine ⟨written.2, rfl, hschema', hmax', ?_⟩
      rcases hwrites with ⟨hnone, hrest⟩ | ⟨failure, hsome, hstands, hstop⟩
      · rw [hnone]
        exact Or.inl ⟨rfl, hrest⟩
      · rw [hsome]
        exact Or.inr ⟨_, rfl, hstands, hstop⟩

variable (key schema) in
/-- The batches are written until one is refused. -/
theorem writeBatches_continues (batches : List Batch) {s : StoreDisk} {staged : StagedParquet (arrow properties fields)}
    (hschema : staged.schema = fields) (hmax : staged.maxBatchRows = maxBatchRows)
    (h : Writes host w mid (Unclosed properties fields) (Faultless environment) progress
      { staged with files := s.files }) :
    Continues host w mid (Unclosed properties fields) (Faultless environment) key schema maxBatchRows
      (progress >>= fun progress =>
        batches.foldlM (takeBatch (arrow properties fields) fields maxBatchRows schema) progress)
      (writeBatches environment s (writerOn staged key schema maxBatchRows) batches) := by
  induction batches generalizing s staged progress with
  | nil =>
    refine ⟨staged, rfl, hschema, hmax, Or.inl ⟨rfl, ?_⟩⟩
    simp only [List.foldlM_nil, bind_pure]
    exact h
  | cons batch rest ih =>
    obtain ⟨staged', hwriter, hschema', hmax', hend⟩ :=
      writeBatch_continues key schema hlib hopen hschema hmax h batch
    rw [writeBatches]
    simp only [List.foldlM_cons, ← bind_assoc]
    generalize writeBatch environment s (writerOn staged key schema maxBatchRows) batch = written at hwriter hend
    obtain ⟨reply, s', writer⟩ := written
    simp only at hwriter hend
    subst hwriter
    rcases hend with ⟨rfl, hwrites⟩ | ⟨stop, rfl, hstands, hstop⟩
    · exact ih hschema' hmax' hwrites
    · refine ⟨staged', rfl, hschema', hmax', Or.inr ⟨stop, rfl, hstands, fun hf => ?_⟩⟩
      rw [hstop hf]
      rfl

omit hlib in
/-- A close with its cancel, once the batches are written or one of them was refused. -/
theorem finishFile_cases (hlib : (arrow properties fields).Rules (Unclosed properties fields))
    {written : Except (Stop Error) Unit × StoreDisk × Writer arrow}
    (h : Continues host w mid (Unclosed properties fields) (Faultless environment) key schema maxBatchRows progress
      written)
    (hstaged : w.Staged host) (hk : AcceptedKey key) (hdest : w.destination = host.location key) {k : String}
    (hk' : AcceptedKey k) (hstage : w.stagePath = host.location k) (hsync : w.sync ≠ .all)
    (hf : host.windows = false ∨ Faultless environment) :
    let finished := finishFile host environment written
    let files := (cancel environment finished.2.1 finished.2.2).files
    let content := progress >>= fun progress =>
      TimePartition.nativeResult (accepted .parquetWriterClose ((arrow properties fields).ended progress))
    (∃ bytes, content = .ok bytes ∧ finished.1 = .ok { key, size := bytes.length } ∧
        host.Publishes w mid bytes files) ∨
      ∃ stop, finished.1 = .error stop ∧ host.Leaves w mid files ∧ (Faultless environment →
        files.get w.stagePath = none ∧ (content = .error stop ∨ ∃ bytes, content = .ok bytes ∧
          mid.get w.destination = some .directory ∧ stop = .error (.fromNative directoryFailure))) := by
  obtain ⟨reply, s', writer⟩ := written
  obtain ⟨staged, hwriter, -, -, hend⟩ := h.writer
  simp only at hwriter hend
  subst hwriter
  have hactive : w.active = true := (LocalWriter.ensureOpen_eq_ok.mp (hopen .writerPublish)).2.1
  rcases hend with ⟨rfl, hwrites⟩ | ⟨stop, rfl, hstands, hstop⟩
  · obtain ⟨hinactive, hend⟩ := close_ends hlib hopen (fun hf : Faultless environment => hf s'.calls) hwrites hstaged hk
      hdest hk' hstage hsync (hf.imp id fun hf => hf s'.calls)
    have houtput : staged.output.destination = host.location key := by
      rw [← hdest, ← hwrites.output]
    simp only [finishFile, closeWriter, nativeClose, Resource.on, cancel, nativeAbort, writerOn]
    generalize StagedParquet.close host { staged with files := s'.files } (environment s'.calls).chunks false
      (environment s'.calls).call (environment s'.calls).drop = closed at hinactive hend
    rw [abort_inactive hinactive]
    rcases hend with ⟨bytes, hcontent, hreply, hpub⟩ | ⟨failure, hreply, hleaves, hwhy⟩
    · refine Or.inl ⟨bytes, hcontent, ?_, hpub⟩
      rw [hreply, houtput]
      simp only [StagedReply.failure?, StagedReply.size, localMetadata_location]
      rfl
    · refine Or.inr ⟨.error (.fromNative failure), ?_, hleaves, fun hf => ⟨(hwhy hf).1, ?_⟩⟩
      · rw [hreply]
        rfl
      · rcases (hwhy hf).2 with hcontent | ⟨bytes, hcontent, hd, rfl⟩
        · exact Or.inl hcontent
        · exact Or.inr ⟨bytes, hcontent, hd, rfl⟩
  · obtain ⟨hleaves, hgone⟩ := hstands.abort hactive (environment s'.calls).drop
    refine Or.inr ⟨stop, rfl, hleaves, fun hf => ⟨hgone (by rw [hf s'.calls]; rfl), Or.inl ?_⟩⟩
    rw [hstop hf]
    rfl

omit hlib in
variable (arrow) in
/-- A staged output gets its Arrow writer, or goes. -/
theorem openOutput_cases (hlib : ∀ properties fields, (arrow properties fields).Rules (Unclosed properties fields))
    {files : FileSystem} (hstages : host.Stages w mid files []) {faultless : Prop} {faults : CallFaults}
    (hfaults : faultless → faults = .never) (native : List NativeField) (settings : Settings) :
    let opened := openOutput arrow faults files w native settings
    (∃ fields, ∃ staged : StagedParquet (arrow settings.properties fields), arrowChildren native = .ok fields ∧
        opened = (.ok ⟨settings.properties, fields, staged⟩, staged.files) ∧ staged.schema = fields ∧
        staged.maxBatchRows = settings.maxBatchRows ∧
        Writes host w mid (Unclosed settings.properties fields) faultless
          (TimePartition.nativeResult (accepted .parquetWriterOpen (arrow settings.properties fields).begun)) staged) ∨
      ∃ failure files', opened = (.error failure, files') ∧ host.Leaves w mid files' ∧ (faultless →
        files'.get w.stagePath = none ∧ ∀ schema batches,
          fileContent arrow settings native schema batches = .error (.error (.fromNative failure))) := by
  intro opened
  have hactive : w.active = true := (LocalWriter.ensureOpen_eq_ok.mp (hopen .writerPublish)).2.1
  have hopened : opened = openOutput arrow faults files w native settings := rfl
  unfold openOutput at hopened
  cases hfields : arrowChildren native with
  | error failure =>
    rw [hfields] at hopened
    obtain ⟨hleaves, hgone⟩ := drop_leaves hstages hactive faults.drop
    refine Or.inr ⟨failure, _, hopened, hleaves, fun hf => ⟨hgone (by rw [hfaults hf]; rfl), fun schema batches => ?_⟩⟩
    unfold fileContent
    rw [hfields]
    rfl
  | ok fields =>
    rw [hfields] at hopened
    simp only at hopened
    obtain ⟨hsink, ⟨part, hpart, hwhole⟩, hnever⟩ :=
      run_stages hopen faults (arrow settings.properties fields).tryNew 0 hstages
    have hanswers := (Output.run_spec faults.chunks (arrow settings.properties fields).tryNew 0 files w).answers
    generalize (arrow settings.properties fields).tryNew.run faults.chunks 0 files w = r at *
    cases hresult : r.result with
    | none =>
      rw [hresult, hsink] at hopened
      obtain ⟨hleaves, hgone⟩ := drop_leaves hpart hactive faults.drop
      refine Or.inr ⟨_, _, hopened, hleaves, fun hf => ⟨hgone (by rw [hfaults hf]; rfl), fun schema batches => ?_⟩⟩
      have hbegun : (arrow settings.properties fields).begun = none := by
        unfold ArrowLibrary.begun
        rw [hanswers.complete (hnever (hfaults hf)), hresult]
        rfl
      rw [fileContent_eq arrow hfields, hbegun]
      rfl
    | some state =>
      rw [hresult] at hopened hanswers
      have hclean := (hlib settings.properties fields).tryNew _ _ hanswers
      refine Or.inl ⟨fields, _, rfl, hopened, rfl, rfl, hsink, rfl, state, part, rfl, hpart, Or.inl ?_⟩
      unfold ArrowLibrary.begun
      rw [hwhole hclean, hanswers.complete hclean]
      rfl

end

/-! ## The whole write -/

theorem settings_output {options : List (String × Term)} {settings : Settings}
    (h : FileWriter.settings options = .ok settings) : settings.output = putOptions := by
  unfold FileWriter.settings integerSettings at h
  split at h
  · cases h
  · split at h
    · cases h
    · split at h
      · cases h
        rfl
      · cases h

theorem openArguments_eq_ok {key key' : String} {schema : Schema} {options : List (String × Term)} {settings : Settings}
    {native : List NativeField} (h : openArguments key schema options = .ok (key', settings, native)) :
    key' = key ∧ AcceptedKey key ∧ settings.output = putOptions ∧ nativeSchema schema = .ok native := by
  unfold openArguments at h
  obtain ⟨-, -, h⟩ := except_bind_eq_ok.mp h
  obtain ⟨key₁, hkey, h⟩ := except_bind_eq_ok.mp h
  obtain ⟨settings₁, hsettings, h⟩ := except_bind_eq_ok.mp h
  obtain ⟨native₁, hnative, h⟩ := except_bind_eq_ok.mp h
  unfold decodeInput at h
  split at h
  · cases h
  · rename_i fields hfields
    cases h
    split at hfields
    · cases hfields
      obtain ⟨rfl, hk⟩ := normalizeKey_eq_ok (TimePartition.liftError_eq_ok.mp hkey)
      exact ⟨rfl, hk, settings_output (TimePartition.liftError_eq_ok.mp hsettings),
        TimePartition.liftError_eq_ok.mp hnative⟩
    · cases hfields

section
variable (arrow) (host) (environment : Nat → CallFaults)

/-- A write stores the whole file of its batches or leaves the objects as they are. -/
theorem writeFile_cases (hlib : ∀ properties fields, (arrow properties fields).Rules (Unclosed properties fields))
    {key : String} {schema : Schema} {options : List (String × Term)} {settings : Settings} {native : List NativeField}
    (hargs : openArguments key schema options = .ok (key, settings, native)) (batches : List Batch) (s : StoreDisk)
    (h : host.ObjectTree s.files) (hf : host.windows = false ∨ Faultless environment) :
    let result := writeFile arrow host environment s key schema batches options
    let content := fileContent arrow settings native schema batches
    (∃ bytes, content = .ok bytes ∧ result.1 = .ok { key, size := bytes.length } ∧
        host.PutDone s.files key bytes result.2.files) ∨
      ∃ stop, result.1 = .error stop ∧ host.PutFailed s.files key result.2.files ∧
        (Faultless environment → host.Unstaged s.files → host.Free key →
          host.Refused s.files key content directoryFailure result.2.files stop) := by
  intro result content
  obtain ⟨-, hk, houtput, -⟩ := openArguments_eq_ok hargs
  have hresult : result = writeFile arrow host environment s key schema batches options := rfl
  have hstore := storeOpenWriter_cases (environment s.calls).call putOptions s.stageSequence hk h
  unfold writeFile openWriter openStore at hresult
  simp only [hargs, houtput] at hresult
  generalize host.storeOpenWriter (environment s.calls).call s.stageSequence putOptions s.files key = opened
    at hstore hresult
  obtain ⟨reply, files, sequence⟩ := opened
  rcases hstore with ⟨mid, n, htree, hgrown, hdir, hcreate, hopened⟩ | ⟨failure, hfailed, htree, hgrown, hnever⟩
  · simp only at hcreate hopened
    subst hopened
    obtain ⟨k, hk', hstage⟩ := @exists_stageKey host key hk n
    have hopen : ∀ operation, (host.openedWriter key putOptions n).ensureOpen operation = .ok () := fun _ => rfl
    have hfree : mid.get (host.stagePath key n) = none := (FileSystem.create_eq_ok hcreate).2.1
    -- What a failed write leaves is the same whether it had its Arrow writer or not.
    have hfail : ∀ (stop : Stop Error) (files' : FileSystem), result.1 = .error stop → result.2.files = files' →
        host.Leaves (host.openedWriter key putOptions n) mid files' →
        (Faultless environment → files'.get (host.stagePath key n) = none ∧ (content = .error stop ∨
          ∃ bytes, content = .ok bytes ∧ mid.get (host.location key) = some .directory ∧
            stop = .error (.fromNative directoryFailure))) →
        ∃ stop, result.1 = .error stop ∧ host.PutFailed s.files key result.2.files ∧
          (Faultless environment → host.Unstaged s.files → host.Free key →
            host.Refused s.files key content directoryFailure result.2.files stop) := by
      rintro stop files' hstop rfl hleaves hwhy
      refine ⟨stop, hstop, ⟨hleaves.tree, mid, n, hgrown, hleaves.rest⟩, fun hf _ _ => ?_⟩
      obtain ⟨hgone, hwhy⟩ := hwhy hf
      have heq := hleaves.get_eq hgone hfree
      have hfiles : s.files.Grown result.2.files (host.Parent key) := by
        intro q
        rw [heq q]
        exact hgrown q
      have hdir' := (heq (host.root ++ (keyPath key).dropLast)).trans hdir
      rcases hwhy with hc | ⟨bytes, hc, hd, rfl⟩
      · exact .content stop hfiles hdir' hc
      · exact .directory bytes hfiles hdir' hc ((heq _).trans hd)
    simp only at hresult
    rcases openOutput_cases arrow hopen hlib (stages_of_createNew hk htree hcreate)
        (fun hf : Faultless environment => hf s.calls) native settings with
      ⟨fields, staged, hfields, hopened, hschema, hmax, hwrites⟩ | ⟨failure, files', hopened, hleaves, hwhy⟩
    · rw [hopened] at hresult
      have hcontinues := writeBatches_continues key schema (hlib settings.properties fields) hopen
        batches (s := ⟨staged.files, sequence, s.calls + 1⟩) hschema hmax hwrites
      have hend := finishFile_cases hopen (hlib settings.properties fields) hcontinues
        (openedWriter_staged n putOptions) hk rfl hk' hstage (by simp [openedWriter, putOptions]) hf
      have hcontent := fileContent_eq arrow hfields settings schema batches
      simp only [← hcontent] at hend
      have hfinished : result =
          let finished := finishFile host environment (writeBatches environment ⟨staged.files, sequence, s.calls + 1⟩
            (writerOn staged key schema settings.maxBatchRows) batches)
          (finished.1, cancel environment finished.2.1 finished.2.2) := hresult
      generalize finishFile host environment (writeBatches environment ⟨staged.files, sequence, s.calls + 1⟩
        (writerOn staged key schema settings.maxBatchRows) batches) = finished at hend hfinished
      rcases hend with ⟨bytes, hcontent, hok, hpub⟩ | ⟨stop, hstop, hleaves, hwhy⟩
      · refine Or.inl ⟨bytes, hcontent, by rw [hfinished]; exact hok, ?_⟩
        rw [hfinished]
        exact ⟨hpub.tree, mid, n, htree, hgrown, hdir, hfree, hpub.free, hpub.get⟩
      · exact Or.inr (hfail stop _ (by rw [hfinished]; exact hstop) (by rw [hfinished]) hleaves hwhy)
    · rw [hopened] at hresult
      exact Or.inr (hfail (.error (.fromNative failure)) files' (by rw [hresult]) (by rw [hresult]) hleaves fun hf =>
        ⟨(hwhy hf).1, Or.inl ((hwhy hf).2 schema batches)⟩)
  · simp only at hfailed htree hgrown hnever
    subst hfailed
    simp only at hresult
    rw [hresult]
    refine Or.inr ⟨_, rfl, ⟨htree, files, 0, hgrown, fun _ _ => rfl⟩, fun hf hun hfree => ?_⟩
    obtain ⟨rfl, hsame, p, above, hp, hfile⟩ := hnever (by rw [hf s.calls]; rfl) hun hfree
    exact .beneath p above hp hfile hsame

end

end FileWriter

end Parquex
