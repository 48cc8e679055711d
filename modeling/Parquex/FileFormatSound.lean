import Parquex.ChunkReaderSound
import Parquex.FileFormat
import Parquex.FileWriteSound
import Parquex.Pushdown

/-!
# A written file is read back

A range reader over an object answers the Parquet library as the object itself
would, within its bound. So what the library documents of the files that it writes
holds of those under the keys of a store.
-/

namespace Parquex

/-! ## Ranges of an object -/

section
variable (content : Bytes) (bound : Nat)

/-- What a range is answered with: whole ranges within the bound, and pieces of what lies before a cursor. -/
def RangeAllows (positions : List Nat) : RangeCall → ObjectChunkReader.Reply → Prop
  | .getRead start, reply =>
    if start ≤ content.length then reply = .opened (.ok start) else ∃ error, reply = .opened (.error error)
  | .getBytes start length, reply =>
    if length ≤ bound ∧ start + length ≤ content.length then reply = .bytes (.ok ((content.drop start).take length))
    else ∃ error, reply = .bytes (.error error)
  | .read cursor bufferLength, reply =>
    match positions[cursor]? with
    | none => reply = .nothing
    | some position => ∃ piece, reply = .read (.ok piece) ∧ piece <+: content.drop position ∧
        piece.length ≤ bufferLength ∧ (piece = [] → bufferLength = 0 ∨ position = content.length)

def rangeNext (positions : List Nat) : RangeCall → ObjectChunkReader.Reply → List Nat
  | .getRead start, .opened (.ok _) => positions ++ [start]
  | .read cursor _, .read (.ok piece) => positions.set cursor (positions.getD cursor 0 + piece.length)
  | _, _ => positions

/-- The object in memory, with the positions of its cursors. -/
def objectRanges : Specification (List Nat) RangeCall ObjectChunkReader.Reply where
  Allows := RangeAllows content bound
  next := rangeNext

end

namespace ObjectChunkReader

variable {σ : Type} {reader : ObjectChunkReader σ} {state : σ} {content : Bytes}

/-- A reader that is not cancelled, with its cursors in the object. -/
structure At (content : Bytes) (session : Session) (positions : List Nat) : Prop where
  cursors : session.cursors = positions
  cancelled : session.use.cancelled = false
  within : ∀ position ∈ positions, position ≤ content.length

theorem At.start (content : Bytes) : At content {} [] := ⟨rfl, rfl, by simp⟩

theorem Over.ranges_follow (h : reader.Over state content) {usizeMax : Nat} (hmax : 1 ≤ reader.maxRangeBytes)
    (husize : reader.maxRangeBytes ≤ usizeMax) :
    (reader.ranges state usizeMax).Follows (objectRanges content reader.maxRangeBytes) (At content) fun _ => True := by
  have hstep : ∀ session positions range, At content session positions →
      RangeAllows content reader.maxRangeBytes positions range (reader.serve state usizeMax session range.call).1 ∧
        At content (reader.serve state usizeMax session range.call).2
          (rangeNext positions range (reader.serve state usizeMax session range.call).1) := by
    rintro session positions range ⟨rfl, hcancelled, hwithin⟩
    cases range with
    | getRead start =>
      simp only [RangeCall.call, serve, getRead, RangeAllows, h.size]
      by_cases hstart : content.length < start
      · rw [if_neg (by omega)]
        simp only [hstart, if_true]
        exact ⟨⟨_, rfl⟩, rfl, hcancelled, hwithin⟩
      · rw [if_pos (by omega)]
        simp only [hstart, if_false]
        refine ⟨trivial, rfl, hcancelled, fun position hp => ?_⟩
        rcases List.mem_append.mp hp with hp | hp
        · exact hwithin position hp
        · rw [List.mem_singleton.mp hp]
          omega
    | getBytes start length =>
      simp only [RangeCall.call, serve, RangeAllows]
      by_cases hrange : length ≤ reader.maxRangeBytes ∧ start + length ≤ content.length
      · rw [if_pos hrange, h.getBytes_eq_ok hcancelled hrange.1 hrange.2]
        exact ⟨rfl, rfl, hcancelled, hwithin⟩
      · obtain ⟨error, herror⟩ := @getBytes_refused σ reader state session.use start length fun hr =>
          hrange ⟨hr.1, h.size ▸ hr.2.1⟩
        rw [if_neg hrange, herror]
        exact ⟨⟨error, rfl⟩, rfl, hcancelled, hwithin⟩
    | read cursor bufferLength =>
      simp only [RangeCall.call, serve, RangeAllows]
      cases hc : session.cursors[cursor]? with
      | none => exact ⟨rfl, rfl, hcancelled, hwithin⟩
      | some position =>
        have hposition := hwithin position (List.mem_of_getElem? hc)
        have hget : session.cursors.getD cursor 0 = position := by
          rw [List.getD_eq_getElem?_getD, hc, Option.getD_some]
        have hset : ∀ p ≤ content.length, ∀ q ∈ session.cursors.set cursor p, q ≤ content.length :=
          fun p hp => mem_set hwithin hp
        by_cases hend : bufferLength = 0 ∨ position = content.length
        · have hread : reader.read state usizeMax position bufferLength session.use = (.ok [], position, session.use) :=
            if_pos (h.size ▸ hend)
          simp only [hread]
          refine ⟨⟨[], rfl, List.nil_prefix, Nat.zero_le _, fun _ => hend⟩, ?_, hcancelled, ?_⟩
          · simp only [rangeNext, List.length_nil, hget, Nat.add_zero]
          · simp only [rangeNext, List.length_nil, hget, Nat.add_zero]
            exact hset position hposition
        · rw [not_or] at hend
          have hread := h.read_eq hcancelled usizeMax (Nat.pos_of_ne_zero hend.1)
            (Nat.lt_of_le_of_ne hposition hend.2)
          have hlength : readLength reader content usizeMax position bufferLength ≤ bufferLength ∧
              readLength reader content usizeMax position bufferLength ≤ content.length - position ∧
                0 < readLength reader content usizeMax position bufferLength := by
            unfold readLength
            omega
          generalize readLength reader content usizeMax position bufferLength = length at hread hlength
          have htaken : ((content.drop position).take length).length = length := by
            rw [List.length_take, List.length_drop]
            omega
          simp only [hread]
          refine ⟨⟨_, rfl, List.take_prefix _ _, by omega, fun hnil => ?_⟩, ?_, hcancelled, ?_⟩
          · rw [hnil] at htaken
            rw [List.length_nil] at htaken
            omega
          · simp only [rangeNext, hget, htaken]
          · simp only [rangeNext, hget, htaken]
            exact hset _ (by omega)
  exact ⟨fun session positions range hat _ => (hstep session positions range hat).1,
    fun session positions range hat _ => (hstep session positions range hat).2⟩

end ObjectChunkReader

/-! ## Files that are read back -/

namespace ParquetReaders

open FileStream FileWriter

/-- A file that the Parquet library has written, of records with the fields and the rows. -/
structure FileOf (arrow : ArrowWriters) (fields : List Field) (rows : List Row) (bytes : Bytes) : Prop where
  native : ∃ native, arrowChildren native = .ok fields
  nonempty : fields ≠ []
  nodup : (fields.map Field.name).Nodup
  records : ∃ properties records parts, (arrow properties fields).file records = some bytes ∧
    (∀ record ∈ records, record.Holds fields) ∧ List.Forall₂ HoldsRows records parts ∧ parts.flatten = rows

/-- What the Parquet library documents of its files: one that it has written, whose pages and metadata are no larger
than the ranges, is opened with its fields, and its row groups have its rows. -/
def ReadsBack (readers : ParquetReaders) (arrow : ArrowWriters) (largestPart : Bytes → Nat) : Prop :=
  ∀ fields rows bytes bound, FileOf arrow fields rows bytes → largestPart bytes ≤ bound →
    ∀ opened, (readers.tryNew bytes.length).Yields (objectRanges bytes bound) [] opened →
      ∃ builder groups, opened = some builder ∧ readers.schema builder = fields ∧ groups.flatten = rows ∧
        ∀ batchSize decoded, 1 ≤ batchSize →
          (∀ rowGroups, (readers.decode builder batchSize rowGroups).Yields (objectRanges bytes bound) []
            (decoded rowGroups)) → InGroups (readers.file builder decoded) groups

section
variable {readers : ParquetReaders} {arrow : ArrowWriters} {largestPart : Bytes → Nat}

/-- A written file under a key of a store is found with its fields and its rows. -/
theorem ReadsBack.openStore (h : readers.ReadsBack arrow largestPart) {fields : List Field} {rows : List Row}
    {bytes : Bytes} (hfile : FileOf arrow fields rows bytes) {σ : Type} {resource : NativeStore σ} {state : σ}
    {key : String} (hstored : StoredAt σ resource state key bytes) {metadata : ObjectMetadata}
    (hhead : resource.head state key = .ok metadata) (hsize : metadata.size = bytes.length)
    (hword : bytes.length < 2 ^ 64) {maxRangeBytes : Nat} (hmax : 1 ≤ maxRangeBytes) (husize : maxRangeBytes < 2 ^ 64)
    (hpart : largestPart bytes ≤ maxRangeBytes) :
    ∃ file groups, readers.openStore resource state maxRangeBytes key = .ok file ∧
      (∀ batchSize, (file batchSize).schema = fields) ∧ groups.flatten = rows ∧
      HasRows file (fields.map Field.name) groups := by
  have hover : ObjectChunkReader.Over { resource, key, size := metadata.size, maxRangeBytes } state bytes :=
    ⟨hstored, hsize, hword⟩
  have husize : maxRangeBytes ≤ usizeMax := by
    unfold usizeMax
    omega
  have hfollows := hover.ranges_follow hmax husize
  have hyields : ∀ {α : Type} (program : RangeProgram α), program.Yields (objectRanges bytes maxRangeBytes) []
      (program.run (ObjectChunkReader.ranges { resource, key, size := metadata.size, maxRangeBytes } state usizeMax)
        {}) := fun program => Program.run_yields hfollows program (.start bytes)
  obtain ⟨builder, groups, hopened, hschema, hflat, hgroups⟩ :=
    h fields rows bytes maxRangeBytes hfile hpart _ (hyields (readers.tryNew bytes.length))
  refine ⟨_, groups, ?_, fun _ => hschema, hflat, fun batchSize hpos =>
    ⟨?_, hgroups batchSize _ hpos fun _ => hyields _⟩⟩
  · unfold ParquetReaders.openStore
    simp only [hhead, hsize]
    rw [hsize] at hopened
    rw [hopened]
  · exact congrArg (List.map Field.name) hschema

end

end ParquetReaders

end Parquex
