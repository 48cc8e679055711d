import Parquex.ParquetWriter

/-!
# The life of a Parquet writer

Rejected batches leave a writer as it was, accepted ones are counted, the
destination changes only when a close succeeds, and a writer that was closed or
aborted stays so.
-/

namespace Parquex

namespace ArrowEncoder

theorem written_concat (encoder : ArrowEncoder) (before batches : List RecordBatch) (batch : RecordBatch) :
    encoder.written before (batches ++ [batch]) =
      encoder.written before batches ++ (encoder.onWrite (before ++ batches) batch).flatten := by
  induction batches generalizing before with
  | nil => simp [written]
  | cons b batches ih => simp [written, ih]

theorem staged_concat (encoder : ArrowEncoder) (batches : List RecordBatch) (batch : RecordBatch) :
    encoder.staged (batches ++ [batch]) = encoder.staged batches ++ (encoder.onWrite batches batch).flatten := by
  simp [staged, written_concat]

end ArrowEncoder

theorem writeChunks_eq_some {cancelAfter : Option Nat} {staged out : Bytes} {chunks : List Bytes}
    (h : writeChunks cancelAfter staged chunks = some out) : out = staged ++ chunks.flatten := by
  unfold writeChunks at h
  split at h
  · cases h
  · exact (Option.some.inj h).symm

namespace ParquetWriter

/-! ## What a call can do -/

variable {encoder : ArrowEncoder} {w : ParquetWriter} {cancelAfter : Option Nat}

theorem writeBatch_cases (encoder : ArrowEncoder) (w : ParquetWriter) (cancelAfter : Option Nat) (term : Term) :
    (∃ failure, w.writeBatch encoder term cancelAfter = (.failed failure, w)) ∨
      ∃ batch a batchBytes encoderBytes, w.cancelled = false ∧
        decodeBatch term w.schema w.maxBatchRows = .ok batch ∧ w.writer = some a ∧ w.stats.active = true ∧
        w.writeBatch encoder term cancelAfter =
          (.written (w.stats.add batch.numRows batchBytes encoderBytes),
            { w with
              writer := some {
                batches := a.batches ++ [batch], staged := a.staged ++ (encoder.onWrite a.batches batch).flatten }
              stats := w.stats.add batch.numRows batchBytes encoderBytes }) := by
  unfold writeBatch
  by_cases hc : w.cancelled = true
  · exact Or.inl ⟨_, by rw [if_pos hc]⟩
  · rw [if_neg hc]
    by_cases ha : (!w.stats.active) = true
    · exact Or.inl ⟨_, by rw [if_pos ha]⟩
    · rw [if_neg ha]
      cases hd : decodeBatch term w.schema w.maxBatchRows with
      | error failure => exact Or.inl ⟨failure, rfl⟩
      | ok batch =>
        cases hw : w.writer with
        | none => exact Or.inl ⟨_, rfl⟩
        | some a =>
          simp only
          cases hs : writeChunks cancelAfter a.staged (encoder.onWrite a.batches batch) with
          | none => exact Or.inl ⟨_, rfl⟩
          | some staged =>
            rw [writeChunks_eq_some hs]
            exact Or.inr ⟨batch, a, _, _, by simpa using hc, rfl, rfl, by simpa using ha, rfl⟩

theorem close_cases (encoder : ArrowEncoder) (w : ParquetWriter) (cancelAfter : Option Nat) :
    (∃ failure, w.close encoder cancelAfter = (.failed failure, w)) ∨
      ∃ a, w.cancelled = false ∧ w.writer = some a ∧
        ((∃ failure, w.close encoder cancelAfter =
          (.failed failure, { w with writer := none, stats := { w.stats with active := false } })) ∨
        ∃ content, content = a.staged ++ (encoder.onClose a.batches).flatten ∧
          w.close encoder cancelAfter =
            (.closed { path := w.key, size := content.length },
              { w with
                writer := none, stats := { w.stats with active := false }, destination := some content })) := by
  unfold close
  by_cases hc : w.cancelled = true
  · exact Or.inl ⟨_, by rw [if_pos hc]⟩
  · rw [if_neg hc]
    cases hw : w.writer with
    | none => exact Or.inl ⟨_, rfl⟩
    | some a =>
      refine Or.inr ⟨a, by simpa using hc, rfl, ?_⟩
      simp only
      cases hs : writeChunks cancelAfter a.staged (encoder.onClose a.batches) with
      | none => exact Or.inl ⟨_, rfl⟩
      | some content =>
        simp only
        split
        · exact Or.inl ⟨_, rfl⟩
        · exact Or.inr ⟨content, writeChunks_eq_some hs, rfl⟩

theorem writeBatch_rejected {term : Term} {failure : NativeFailure}
    (h : decodeBatch term w.schema w.maxBatchRows = .error failure) :
    (w.writeBatch encoder term cancelAfter).2 = w := by
  rcases writeBatch_cases encoder w cancelAfter term with
    ⟨_, hw⟩ | ⟨_, _, _, _, -, hd, -⟩
  · rw [hw]
  · rw [h] at hd; cases hd

/-! ## Histories -/

/-- The batch of a call that was answered with new statistics. -/
def acceptedBatch (schema : List Field) (maxBatchRows : Nat) : WriterCall × WriterReply → Option RecordBatch
  | (.writeBatch term _, .written _) => (decodeBatch term schema maxBatchRows).toOption
  | _ => none

def accepted (schema : List Field) (maxBatchRows : Nat) (history : List (WriterCall × WriterReply)) : List RecordBatch :=
  history.filterMap (acceptedBatch schema maxBatchRows)

def isClosed : WriterCall × WriterReply → Bool
  | (_, .closed _) => true
  | _ => false

/-- A close that succeeded, or an abort. -/
def isFinal : WriterCall × WriterReply → Bool
  | (_, .closed _) => true
  | (.abort, _) => true
  | _ => false

structure Inv (encoder : ArrowEncoder) (first : ParquetWriter) (history : List (WriterCall × WriterReply))
    (w : ParquetWriter) : Prop where
  schema : w.schema = first.schema
  maxBatchRows : w.maxBatchRows = first.maxBatchRows
  batches : w.stats.batches = (accepted first.schema first.maxBatchRows history).length
  rows : w.stats.rows = ((accepted first.schema first.maxBatchRows history).map RecordBatch.numRows).sum
  writer : ∀ a, w.writer = some a → w.stats.active = true ∧ history.any isClosed = false ∧
    a.batches = accepted first.schema first.maxBatchRows history ∧
    (w.cancelled = false → a.staged = encoder.staged (accepted first.schema first.maxBatchRows history))
  inactive : w.writer = none → w.stats.active = false
  destination : w.destination =
    if history.any isClosed then some (encoder.file (accepted first.schema first.maxBatchRows history))
    else first.destination
  final : history.any isFinal = true → w.stats.active = false

theorem inv_opened (schema : List Field) (maxBatchRows limit : Nat) (key : String) (destination : Option Bytes) :
    Inv encoder (opened encoder schema maxBatchRows limit key destination) []
      (opened encoder schema maxBatchRows limit key destination) where
  schema := rfl
  maxBatchRows := rfl
  batches := rfl
  rows := rfl
  writer := by
    intro a ha
    cases ha
    exact ⟨rfl, rfl, rfl, fun _ => by simp [ArrowEncoder.staged, ArrowEncoder.written, accepted]⟩
  inactive := nofun
  destination := rfl
  final := nofun

/-! ## Each call keeps the invariant -/

section
variable {first : ParquetWriter} {history : List (WriterCall × WriterReply)} {call : WriterCall} {reply : WriterReply}

theorem accepted_concat (schema : List Field) (maxBatchRows : Nat) (entry : WriterCall × WriterReply) :
    accepted schema maxBatchRows (history ++ [entry]) =
      accepted schema maxBatchRows history ++ (acceptedBatch schema maxBatchRows entry).toList := by
  unfold accepted
  rw [List.filterMap_append]
  cases he : acceptedBatch schema maxBatchRows entry <;> simp [he]

theorem any_concat {α : Type} (p : α → Bool) (l : List α) (a : α) : (l ++ [a]).any p = (l.any p || p a) := by
  simp

/-- An entry that neither accepts a batch nor closes nor aborts. -/
def Silent (entry : WriterCall × WriterReply) : Prop :=
  (∀ schema maxBatchRows, acceptedBatch schema maxBatchRows entry = none) ∧ isClosed entry = false ∧
    isFinal entry = false

theorem silent_failed (call : WriterCall) (failure : NativeFailure) (h : call ≠ .abort) :
    Silent (call, .failed failure) := by
  cases call with
  | abort => exact absurd rfl h
  | _ => exact ⟨fun _ _ => rfl, rfl, rfl⟩

/-- The token may be set at any time. -/
theorem Inv.silent (h : Inv encoder first history w) (hs : Silent (call, reply)) (seen : Bool) :
    Inv encoder first (history ++ [(call, reply)]) { w with cancelled := w.cancelled || seen } where
  schema := h.schema
  maxBatchRows := h.maxBatchRows
  batches := by rw [accepted_concat, hs.1]; simpa using h.batches
  rows := by rw [accepted_concat, hs.1]; simpa using h.rows
  writer := by
    intro a ha
    obtain ⟨h₁, h₂, h₃, h₄⟩ := h.writer a ha
    rw [accepted_concat, hs.1]
    refine ⟨h₁, by simpa [hs.2.1] using h₂, by simpa using h₃, fun hc => ?_⟩
    simpa using h₄ (Bool.or_eq_false_iff.mp hc).1
  inactive := h.inactive
  destination := by
    rw [accepted_concat, hs.1, any_concat, hs.2.1, Bool.or_false]
    simpa using h.destination
  final := by
    intro hf
    exact h.final (by simpa [hs.2.2] using hf)

/-- The writer is dropped without a publish. -/
theorem Inv.dropped (h : Inv encoder first history w)
    (hb : ∀ schema maxBatchRows, acceptedBatch schema maxBatchRows (call, reply) = none)
    (hc : isClosed (call, reply) = false) (cancelled : Bool) :
    Inv encoder first (history ++ [(call, reply)])
      { w with writer := none, stats := { w.stats with active := false }, cancelled } where
  schema := h.schema
  maxBatchRows := h.maxBatchRows
  batches := by rw [accepted_concat, hb]; simpa using h.batches
  rows := by rw [accepted_concat, hb]; simpa using h.rows
  writer := nofun
  inactive := fun _ => rfl
  destination := by
    rw [accepted_concat, hb, any_concat, hc, Bool.or_false]
    simpa using h.destination
  final := fun _ => rfl

theorem Inv.published (h : Inv encoder first history w) {a : ArrowWriter} (ha : w.writer = some a)
    (hcancel : w.cancelled = false) {metadata : ObjectMetadata} (cancelled : Bool) :
    Inv encoder first (history ++ [(.close cancelAfter, .closed metadata)])
      { w with
        writer := none, stats := { w.stats with active := false }, cancelled,
        destination := some (a.staged ++ (encoder.onClose a.batches).flatten) } where
  schema := h.schema
  maxBatchRows := h.maxBatchRows
  batches := by rw [accepted_concat]; simpa [acceptedBatch] using h.batches
  rows := by rw [accepted_concat]; simpa [acceptedBatch] using h.rows
  writer := nofun
  inactive := fun _ => rfl
  destination := by
    obtain ⟨-, -, hb, hst⟩ := h.writer a ha
    rw [accepted_concat]
    simp [isClosed, acceptedBatch, ArrowEncoder.file, hb, hst hcancel]
  final := fun _ => rfl

theorem Inv.accepts (h : Inv encoder first history w) {a : ArrowWriter} (ha : w.writer = some a)
    (hcancel : w.cancelled = false) {term : Term} {batch : RecordBatch}
    (hd : decodeBatch term w.schema w.maxBatchRows = .ok batch) (batchBytes encoderBytes : Nat) (cancelled : Bool) :
    Inv encoder first
      (history ++ [(.writeBatch term cancelAfter, .written (w.stats.add batch.numRows batchBytes encoderBytes))])
      { w with
        writer := some {
          batches := a.batches ++ [batch], staged := a.staged ++ (encoder.onWrite a.batches batch).flatten }
        stats := w.stats.add batch.numRows batchBytes encoderBytes, cancelled } := by
  have hacc : acceptedBatch first.schema first.maxBatchRows
      (.writeBatch term cancelAfter, .written (w.stats.add batch.numRows batchBytes encoderBytes)) = some batch := by
    rw [h.schema, h.maxBatchRows] at hd
    simp [acceptedBatch, hd, Except.toOption]
  obtain ⟨h₁, h₂, h₃, h₄⟩ := h.writer a ha
  refine ⟨h.schema, h.maxBatchRows, ?_, ?_, ?_, nofun, ?_, ?_⟩
  · rw [accepted_concat, hacc]
    simp [WriterStats.add, h.batches]
  · rw [accepted_concat, hacc]
    simp [WriterStats.add, h.rows]
  · intro b hb
    cases hb
    rw [accepted_concat, hacc, any_concat, h₂]
    refine ⟨h₁, rfl, by rw [h₃]; rfl, fun _ => ?_⟩
    rw [h₃, h₄ hcancel, Option.toList_some, encoder.staged_concat]
  · rw [accepted_concat, hacc, any_concat, h₂]
    have hdest := h.destination
    rw [h₂] at hdest
    exact hdest
  · intro hf
    have := h.final (by simpa [isFinal] using hf)
    rw [h₁] at this
    cases this

theorem Inv.aborted (h : Inv encoder first history w) (hi : w.stats.active = false) :
    Inv encoder first (history ++ [(.abort, .aborted false)]) w where
  schema := h.schema
  maxBatchRows := h.maxBatchRows
  batches := by rw [accepted_concat]; simpa [acceptedBatch] using h.batches
  rows := by rw [accepted_concat]; simpa [acceptedBatch] using h.rows
  writer := by
    intro a ha
    have := (h.writer a ha).1
    rw [hi] at this
    cases this
  inactive := fun _ => hi
  destination := by
    rw [accepted_concat, any_concat, show isClosed (.abort, .aborted false) = false from rfl, Bool.or_false]
    simpa [acceptedBatch] using h.destination
  final := fun _ => hi

theorem step_inv (h : Inv encoder first history w) (call : WriterCall) :
    Inv encoder first (history ++ [(call, (w.step encoder call).1)]) (w.step encoder call).2 := by
  cases call with
  | writeBatch term cancelAfter =>
    simp only [step]
    rcases writeBatch_cases encoder w cancelAfter term with
      ⟨failure, hw⟩ | ⟨batch, a, batchBytes, encoderBytes, hc, hd, ha, -, hw⟩
    · rw [hw]
      exact h.silent (silent_failed (.writeBatch term cancelAfter) failure nofun) _
    · rw [hw]
      exact h.accepts ha hc hd batchBytes encoderBytes _
  | close cancelAfter =>
    simp only [step]
    rcases close_cases encoder w cancelAfter with
      ⟨failure, hw⟩ | ⟨a, hc, ha, ⟨failure, hw⟩ | ⟨content, hcontent, hw⟩⟩
    · rw [hw]
      exact h.silent (silent_failed (.close cancelAfter) failure nofun) _
    · rw [hw]
      exact h.dropped (fun _ _ => rfl) rfl _
    · rw [hw, hcontent]
      exact h.published ha hc _
  | cancel =>
    have hs : Silent (.cancel, .none) := ⟨fun _ _ => rfl, rfl, rfl⟩
    have := h.silent hs true
    rw [Bool.or_true] at this
    exact this
  | abort =>
    simp only [step, abort]
    cases ha : w.stats.active with
    | false => exact h.aborted ha
    | true => exact h.dropped (fun _ _ => rfl) rfl true

end

/-! ## Runs -/

/-- A writer that is not active refuses every call, and an abort reports it closed. -/
theorem step_inactive (hi : w.stats.active = false) (hw : w.writer = none) (call : WriterCall) :
    match call with
    | .writeBatch _ _ | .close _ => ∃ failure, (w.step encoder call).1 = .failed failure
    | .abort => (w.step encoder call).1 = .aborted false
    | .cancel => True := by
  cases call with
  | writeBatch term cancelAfter =>
    rcases writeBatch_cases encoder w cancelAfter term with
      ⟨failure, h⟩ | ⟨_, _, _, _, -, -, -, ha, -⟩
    · exact ⟨failure, by simp only [step, h]⟩
    · rw [hi] at ha; cases ha
  | close cancelAfter =>
    rcases close_cases encoder w cancelAfter with ⟨failure, h⟩ | ⟨a, -, ha, -⟩
    · exact ⟨failure, by simp only [step, h]⟩
    · rw [hw] at ha; cases ha
  | cancel => trivial
  | abort => simp only [step, abort, hi, Bool.not_false, if_true]

theorem run_keeps_inv (schema : List Field) (maxBatchRows limit : Nat) (key : String) (destination : Option Bytes)
    (calls : List WriterCall) :
    Inv encoder (opened encoder schema maxBatchRows limit key destination)
      ((machine encoder).trace (opened encoder schema maxBatchRows limit key destination) calls)
      ((machine encoder).run (opened encoder schema maxBatchRows limit key destination) calls) :=
  (machine encoder).trace_inv (inv_opened schema maxBatchRows limit key destination)
    (fun _ _ call h => step_inv h call) calls

theorem step_destination (encoder : ArrowEncoder) (w : ParquetWriter) (call : WriterCall) :
    (w.step encoder call).2.destination = w.destination ∨ isClosed (call, (w.step encoder call).1) = true := by
  cases call with
  | writeBatch term cancelAfter =>
    rcases writeBatch_cases encoder w cancelAfter term with
      ⟨_, h⟩ | ⟨_, _, _, _, -, -, -, -, h⟩
    · exact Or.inl (by simp only [step, h, sees])
    · exact Or.inl (by simp only [step, h, sees])
  | close cancelAfter =>
    rcases close_cases encoder w cancelAfter with
      ⟨_, h⟩ | ⟨a, -, -, ⟨_, h⟩ | ⟨_, -, h⟩⟩
    · exact Or.inl (by simp only [step, h, sees])
    · exact Or.inl (by simp only [step, h, sees])
    · exact Or.inr (by simp only [step, h, isClosed])
  | cancel => exact Or.inl rfl
  | abort =>
    unfold step abort
    cases w.stats.active <;> exact Or.inl rfl

/-- A close succeeds on the one writer that is still there, and publishes what it accepted. -/
theorem step_closed {first : ParquetWriter} {history : List (WriterCall × WriterReply)}
    (h : Inv encoder first history w) {call : WriterCall} {metadata : ObjectMetadata}
    (hr : (w.step encoder call).1 = .closed metadata) :
    history.any isClosed = false ∧ (w.step encoder call).2.destination =
      some (encoder.file (accepted first.schema first.maxBatchRows history)) := by
  cases call with
  | writeBatch term cancelAfter =>
    rcases writeBatch_cases encoder w cancelAfter term with
      ⟨_, hw⟩ | ⟨_, _, _, _, -, -, -, -, hw⟩
    · simp only [step, hw] at hr; cases hr
    · simp only [step, hw] at hr; cases hr
  | close cancelAfter =>
    rcases close_cases encoder w cancelAfter with
      ⟨_, hw⟩ | ⟨a, hc, ha, ⟨_, hw⟩ | ⟨content, hcontent, hw⟩⟩
    · simp only [step, hw] at hr; cases hr
    · simp only [step, hw] at hr; cases hr
    · obtain ⟨-, hnone, hb, hst⟩ := h.writer a ha
      refine ⟨hnone, ?_⟩
      simp only [step, hw, sees, hcontent, ArrowEncoder.file, hb, hst hc]
  | cancel => cases hr
  | abort =>
    unfold step abort at hr
    cases ha : w.stats.active <;> simp [ha] at hr

theorem Inv.writer_of_inactive {first : ParquetWriter} {history : List (WriterCall × WriterReply)}
    (h : Inv encoder first history w) (hi : w.stats.active = false) : w.writer = none := by
  cases ha : w.writer with
  | none => rfl
  | some a =>
    have := (h.writer a ha).1
    rw [hi] at this
    cases this

/-- The lifecycle of a Parquet writer, over every run of calls. -/
theorem parquet_writer_lifecycle (encoder : ArrowEncoder) (schema : List Field) (maxBatchRows limit : Nat)
    (key : String) (destination : Option Bytes) (calls : List WriterCall) :
    let first := opened encoder schema maxBatchRows limit key destination
    let history := (machine encoder).trace first calls
    let w := (machine encoder).run first calls
    (∀ term failure, decodeBatch term schema maxBatchRows = .error failure →
      (∀ cancelAfter, (∃ refusal, (w.step encoder (.writeBatch term cancelAfter)).1 = .failed refusal) ∧
        (w.step encoder (.writeBatch term cancelAfter)).2 =
          { w with cancelled := w.cancelled || cancelAfter.isSome }) ∧
      ∀ later, (machine encoder).run first (calls ++ .writeBatch term none :: later) =
        (machine encoder).run first (calls ++ later)) ∧
    w.stats.batches = (accepted schema maxBatchRows history).length ∧
    w.stats.rows = ((accepted schema maxBatchRows history).map RecordBatch.numRows).sum ∧
    w.destination =
      (if history.any isClosed then some (encoder.file (accepted schema maxBatchRows history)) else destination) ∧
    (∀ call, (w.step encoder call).2.destination ≠ w.destination →
      ∃ metadata, (w.step encoder call).1 = .closed metadata) ∧
    (∀ call metadata, (w.step encoder call).1 = .closed metadata → history.any isClosed = false ∧
      (w.step encoder call).2.destination = some (encoder.file (accepted schema maxBatchRows history))) ∧
    (history.any isFinal = true →
      (∀ term cancelAfter, ∃ failure, (w.step encoder (.writeBatch term cancelAfter)).1 = .failed failure) ∧
      (∀ cancelAfter, ∃ failure, (w.step encoder (.close cancelAfter)).1 = .failed failure) ∧
      (w.step encoder .abort).1 = .aborted false) := by
  intro first history w
  have h : Inv encoder first history w := run_keeps_inv schema maxBatchRows limit key destination calls
  refine ⟨?_, h.batches, h.rows, h.destination, ?_, fun call metadata hr => step_closed h hr, ?_⟩
  · intro term failure hd
    have hd' : decodeBatch term w.schema w.maxBatchRows = .error failure := by
      rw [h.schema, h.maxBatchRows]; exact hd
    have hstep : ∀ cancelAfter, (w.step encoder (.writeBatch term cancelAfter)).2 =
        { w with cancelled := w.cancelled || cancelAfter.isSome } := by
      intro cancelAfter
      simp only [step, sees, writeBatch_rejected hd']
    refine ⟨fun cancelAfter => ⟨?_, hstep cancelAfter⟩, fun later => (machine encoder).run_skip ?_ later⟩
    · rcases writeBatch_cases encoder w cancelAfter term with
        ⟨refusal, hw⟩ | ⟨_, _, _, _, -, hd, -⟩
      · exact ⟨refusal, by simp only [step, hw]⟩
      · rw [hd'] at hd; cases hd
    · change (w.step encoder (.writeBatch term none)).2 = w
      rw [hstep none]
      simp
  · intro call hne
    rcases step_destination encoder w call with he | hc
    · exact absurd he hne
    · cases hr : (w.step encoder call).1 with
      | closed metadata => exact ⟨metadata, rfl⟩
      | _ => rw [hr] at hc; cases hc
  · intro hf
    have hi := h.final hf
    have hw := h.writer_of_inactive hi
    exact ⟨fun term cancelAfter => step_inactive hi hw (.writeBatch term cancelAfter),
      fun cancelAfter => step_inactive hi hw (.close cancelAfter), step_inactive hi hw .abort⟩

/-- A file that holds the magic bytes and the row count of each batch. -/
def countingEncoder : ArrowEncoder where
  opening := [[80, 65, 82, 49]]
  onWrite := fun _ batch => [[UInt8.ofNat batch.numRows]]
  onClose := fun _ => [[80, 65, 82, 49]]
  memorySize := RecordBatch.numRows
  inProgressSize := List.length

def idSchema : List Field := [.mk "id" (.scalar (.integer .int64)) false]

def idBatch (values : List Term) : Term :=
  .tuple [.atom "batch", .int values.length, .list [.tuple [.text "id", .list values]]]

/-- A batch with a null that its field forbids, between an accepted batch and the close. -/
theorem parquet_writer_lifecycle_null_rejected :
    (machine countingEncoder).run (opened countingEncoder idSchema 10 0 "key" none)
        ([.writeBatch (idBatch [.int 1, .int 2]) none] ++ .writeBatch (idBatch [.int 3, .nil]) none :: [.close none]) =
      (machine countingEncoder).run (opened countingEncoder idSchema 10 0 "key" none)
        ([.writeBatch (idBatch [.int 1, .int 2]) none] ++ [.close none]) ∧
    ((machine countingEncoder).run (opened countingEncoder idSchema 10 0 "key" none)
      [.writeBatch (idBatch [.int 1, .int 2]) none, .close none]).destination =
        some [80, 65, 82, 49, 2, 80, 65, 82, 49] ∧
    (((machine countingEncoder).run (opened countingEncoder idSchema 10 0 "key" none)
      [.writeBatch (idBatch [.int 1, .int 2]) none, .close none]).step countingEncoder .abort).1 = .aborted false := by
  refine ⟨?_, rfl, ?_⟩
  · exact ((parquet_writer_lifecycle countingEncoder idSchema 10 0 "key" none
      [.writeBatch (idBatch [.int 1, .int 2]) none]).1 (idBatch [.int 3, .nil])
      (invalidBatch "null value violates a non-nullable field") rfl).2 [.close none]
  · exact ((parquet_writer_lifecycle countingEncoder idSchema 10 0 "key" none
      [.writeBatch (idBatch [.int 1, .int 2]) none, .close none]).2.2.2.2.2.2 rfl).2.2

end ParquetWriter

end Parquex
