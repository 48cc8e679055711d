import Parquex.DatasetWriterSound
import Parquex.Regroup
import Mathlib.Data.Set.Finite.Lemmas
import Mathlib.Order.Bounds.Basic

/-!
# Reports of the dataset writer

The report of a close describes the published files part by part: their keys,
rows and the bounds of their timestamps. The files of a partition hold its input
rows in order.
-/

namespace Parquex

/-! ## Encoded timestamps -/

namespace Dataset

variable (dataset : Dataset)

/-- The encoded timestamp of a row. -/
def timestampOf (row : Row) : Option Int := (row.get dataset.column).int?

/-- The path of the partition of a row's timestamp. -/
def pathOf (row : Row) : Option String :=
  match dataset.timestampOf row with
  | none => none
  | some timestamp =>
    match dataset.partitionOf timestamp with
    | .ok partition => some partition.path
    | .error _ => none

def timestamps (rows : List Row) : Set Int := { t | ∃ row ∈ rows, dataset.timestampOf row = some t }

end Dataset

namespace DateTime

theorem fromUnix_eq_some {value : Int} {unit : TimeUnit} {d : DateTime} (h : fromUnix value unit = some d) :
    d = { microseconds := value * unit.factor / 1000, precision := precisionForUnit unit } := by
  unfold fromUnix at h
  simp only at h
  split at h
  · exact (Option.some.inj h).symm
  · cases h

theorem fromUnix_mono {v w : Int} {unit : TimeUnit} {d e : DateTime} (hv : fromUnix v unit = some d)
    (hw : fromUnix w unit = some e) (h : v ≤ w) : d.microseconds ≤ e.microseconds := by
  rw [fromUnix_eq_some hv, fromUnix_eq_some hw]
  exact Int.ediv_le_ediv (by omega) (Int.mul_le_mul_of_nonneg_right h (Int.le_of_lt unit.factor_pos))

theorem fromUnix_ext {v w : Int} {unit : TimeUnit} {d e : DateTime} (hv : fromUnix v unit = some d)
    (hw : fromUnix w unit = some e) (h : d.microseconds = e.microseconds) : d = e := by
  rw [fromUnix_eq_some hv, fromUnix_eq_some hw] at h ⊢
  simp only at h
  rw [h]

/-- Only nanoseconds are too fine to come back. -/
theorem toUnix_fromUnix {value : Int} {unit : TimeUnit} {d : DateTime} (h : fromUnix value unit = some d)
    (hunit : unit ≠ .nanosecond) : d.toUnix unit = value := by
  rw [fromUnix_eq_some h]
  unfold toUnix
  cases unit with
  | nanosecond => exact absurd rfl hunit
  | _ => simp only [TimeUnit.factor]; omega

end DateTime

namespace DatasetWriter

variable {dataset : Dataset}

theorem Stored.timestampOf {r : Routed} {row : Row} (h : Stored dataset r row) :
    ∃ t, dataset.timestampOf row = some t ∧ DateTime.fromUnix t dataset.unit = some r.datetime := by
  obtain ⟨t, native, hget, -, -, -, hunix⟩ := h.timestamp
  refine ⟨t, ?_, hunix⟩
  unfold Dataset.timestampOf
  rw [hget]
  rfl

theorem Stored.pathOf {r : Routed} {row : Row} (h : Stored dataset r row) : dataset.pathOf row = some r.path := by
  obtain ⟨t, native, hget, -, hpartition, hpath, -⟩ := h.timestamp
  unfold Dataset.pathOf Dataset.timestampOf
  rw [hget]
  simp only [Term.int?, hpartition, hpath]

theorem Stored.unique {r : Routed} {row row' : Row} (h : Stored dataset r row) (h' : Stored dataset r row') :
    row = row' := by
  have := h.encodes.symm.trans h'.encodes
  exact Except.ok.inj this

/-! ## What a report describes -/

section
variable (dataset)

/-- A time reported for an extreme timestamp, exact unless it is in nanoseconds. -/
structure Reports (datetime : DateTime) (timestamp : Int) : Prop where
  unix : DateTime.fromUnix timestamp dataset.unit = some datetime
  exact : dataset.unit ≠ .nanosecond → datetime.toUnix dataset.unit = timestamp

/-- A reported part describes a published file. -/
structure Describes (part : Part) (file : PublishedPart) : Prop where
  key : part.key = file.key
  size : part.size = file.size
  below : ∃ name, file.key = dataset.prefix' ++ part.partition ++ "/" ++ name
  placed : ∀ row ∈ file.rows, dataset.pathOf row = some part.partition
  rows : part.rows = file.rows.length
  minimum : ∃ t, IsLeast (dataset.timestamps file.rows) t ∧ Reports dataset part.minTimestamp t
  maximum : ∃ t, IsGreatest (dataset.timestamps file.rows) t ∧ Reports dataset part.maxTimestamp t

/-- The files of a partition, in the order of the report. -/
def filesOf (report : WriteReport) (files : List PublishedPart) (path : String) : List PublishedPart :=
  ((report.parts.zip files).filter fun entry => entry.1.partition = path).map Prod.snd

/-- A report and the published files account for every row. -/
structure Accounts (rows : List Row) (report : WriteReport) (files : List PublishedPart) : Prop where
  described : List.Forall₂ (Describes dataset) report.parts files
  ordered : ∀ path, (filesOf report files path).flatMap PublishedPart.rows =
    rows.filter fun row => dataset.pathOf row = some path
  once : (files.flatMap PublishedPart.rows).Perm rows
  count : report.rows = rows.length

end

theorem Reports.of_fromUnix {datetime : DateTime} {t : Int} (h : DateTime.fromUnix t dataset.unit = some datetime) :
    Reports dataset datetime t :=
  ⟨h, fun hunit => DateTime.toUnix_fromUnix h hunit⟩

theorem Done.Ok.exists_stored {d : Done} (h : d.Ok dataset) {t : Int} (ht : t ∈ dataset.timestamps d.file.rows) :
    ∃ r ∈ d.rows, DateTime.fromUnix t dataset.unit = some r.datetime := by
  obtain ⟨row, hrow, hget⟩ := ht
  obtain ⟨r, hr, hs⟩ := exists_of_forall₂_right h.stored hrow
  obtain ⟨t', ht', hunix⟩ := hs.timestampOf
  rw [hget] at ht'
  cases ht'
  exact ⟨r, hr, hunix⟩

theorem Done.Ok.exists_timestamp {d : Done} (h : d.Ok dataset) {r : Routed} (hr : r ∈ d.rows) :
    ∃ t ∈ dataset.timestamps d.file.rows, DateTime.fromUnix t dataset.unit = some r.datetime := by
  obtain ⟨row, hrow, hs⟩ := exists_of_forall₂_left h.stored hr
  obtain ⟨t, ht, hunix⟩ := hs.timestampOf
  exact ⟨t, ⟨row, hrow, ht⟩, hunix⟩

theorem Dataset.timestamps_finite (dataset : Dataset) (rows : List Row) : (dataset.timestamps rows).Finite := by
  refine (rows.filterMap dataset.timestampOf).finite_toSet.subset ?_
  intro t ht
  exact List.mem_filterMap.mpr ht

theorem Done.Ok.minimum {d : Done} (h : d.Ok dataset) :
    ∃ t, IsLeast (dataset.timestamps d.file.rows) t ∧ Reports dataset d.part.minTimestamp t := by
  obtain ⟨r, hr, hmin⟩ := h.bounds.lowerMem
  obtain ⟨t₀, ht₀, hunix₀⟩ := h.exists_timestamp hr
  obtain ⟨t, ht, hle⟩ := Set.exists_min_image _ id (Dataset.timestamps_finite dataset d.file.rows) ⟨t₀, ht₀⟩
  obtain ⟨r', hr', hunix⟩ := h.exists_stored ht
  refine ⟨t, ⟨ht, fun t' ht' => hle t' ht'⟩, Reports.of_fromUnix ?_⟩
  have h₁ := DateTime.fromUnix_mono hunix hunix₀ (hle t₀ ht₀)
  have h₂ := h.bounds.le r' hr'
  rw [hunix, ← hmin, DateTime.fromUnix_ext hunix hunix₀ (by rw [hmin] at h₁ ⊢; omega)]

theorem Done.Ok.maximum {d : Done} (h : d.Ok dataset) :
    ∃ t, IsGreatest (dataset.timestamps d.file.rows) t ∧ Reports dataset d.part.maxTimestamp t := by
  obtain ⟨r, hr, hmax⟩ := h.bounds.upperMem
  obtain ⟨t₀, ht₀, hunix₀⟩ := h.exists_timestamp hr
  obtain ⟨t, ht, hle⟩ := Set.exists_max_image _ id (Dataset.timestamps_finite dataset d.file.rows) ⟨t₀, ht₀⟩
  obtain ⟨r', hr', hunix⟩ := h.exists_stored ht
  refine ⟨t, ⟨ht, fun t' ht' => hle t' ht'⟩, Reports.of_fromUnix ?_⟩
  have h₁ := DateTime.fromUnix_mono hunix₀ hunix (hle t₀ ht₀)
  have h₂ := h.bounds.ge r' hr'
  rw [hunix, ← hmax, DateTime.fromUnix_ext hunix hunix₀ (by rw [hmax] at h₁ ⊢; omega)]

theorem Done.Ok.describes {d : Done} (h : d.Ok dataset) : Describes dataset d.part d.file where
  key := h.key_eq
  size := h.size_eq
  below := by
    obtain ⟨name, hname⟩ := h.key
    exact ⟨name, h.key_eq.symm.trans hname⟩
  placed := by
    intro row hrow
    obtain ⟨r, hr, hs⟩ := exists_of_forall₂_right h.stored hrow
    rw [hs.pathOf, h.paths r hr]
  rows := by rw [h.count, h.stored.length_eq]
  minimum := h.minimum
  maximum := h.maximum

/-! ## A whole run -/

section
variable {done : List Done} {routed : List Routed} {encoded : List Row}

theorem forall₂_doneRows (hok : ∀ d ∈ done, d.Ok dataset) (path : String) :
    List.Forall₂ (Stored dataset) (doneRows done path)
      ((done.filter fun d => d.part.partition = path).flatMap fun d => d.file.rows) :=
  forall₂_flatMap fun d hd => (hok d (List.mem_of_mem_filter hd)).stored

theorem exists_encoded (hok : ∀ d ∈ done, d.Ok dataset)
    (hsplit : ∀ path, routed.filter (fun r => r.path = path) = doneRows done path) :
    ∃ encoded, List.Forall₂ (Stored dataset) routed encoded := by
  refine exists_forall₂ fun r hr => ?_
  have hmem : r ∈ doneRows done r.path := by
    rw [← hsplit r.path]
    exact List.mem_filter.mpr ⟨hr, by simp⟩
  obtain ⟨row, -, hs⟩ := exists_of_forall₂_left (forall₂_doneRows hok r.path) hmem
  exact ⟨row, hs⟩

theorem files_ordered (hok : ∀ d ∈ done, d.Ok dataset)
    (hsplit : ∀ path, routed.filter (fun r => r.path = path) = doneRows done path)
    (hencoded : List.Forall₂ (Stored dataset) routed encoded) (path : String) :
    ((done.filter fun d => d.part.partition = path).flatMap fun d => d.file.rows) =
      encoded.filter fun row => dataset.pathOf row = some path := by
  refine forall₂_unique (fun _ _ _ h h' => h.unique h') (forall₂_doneRows hok path) ?_
  rw [← hsplit path]
  refine forall₂_filter hencoded fun r row hs => ?_
  simp only [hs.pathOf, Option.some.injEq]

theorem accounts_of_done {reports : List Part} {files : List PublishedPart}
    (hreports : reports.reverse = done.map Done.part) (hfiles : files = done.map Done.file)
    (hok : ∀ d ∈ done, d.Ok dataset)
    (hsplit : ∀ path, routed.filter (fun r => r.path = path) = doneRows done path)
    (hencoded : List.Forall₂ (Stored dataset) routed encoded) : Accounts dataset encoded (report reports) files := by
  have hordered := files_ordered hok hsplit hencoded
  have honce : (files.flatMap PublishedPart.rows).Perm encoded := by
    apply perm_of_filter_eq dataset.pathOf
    intro path
    have hblock := filter_flatMap_block (fun d : Done => d.file.rows) dataset.pathOf
      (fun d => some d.part.partition) (fun d hd => (hok d hd).describes.placed) path
    rw [hfiles, List.flatMap_map, hblock]
    cases path with
    | some path =>
      rw [← hordered path]
      simp only [Option.some.injEq]
    | none =>
      have hnone : encoded.filter (fun row => dataset.pathOf row = none) = [] := by
        rw [List.filter_eq_nil_iff]
        intro row hrow
        obtain ⟨r, -, hs⟩ := exists_of_forall₂_right hencoded hrow
        simp [hs.pathOf]
      rw [hnone]
      simp
  refine ⟨?_, ?_, honce, ?_⟩
  · show List.Forall₂ (Describes dataset) reports.reverse files
    rw [hreports, hfiles, List.forall₂_map_left_iff, List.forall₂_map_right_iff]
    exact List.forall₂_same.mpr fun d hd => (hok d hd).describes
  · intro path
    rw [← hordered path]
    unfold filesOf report
    simp only
    rw [hreports, hfiles, List.zip_map', List.filter_map, List.map_map, List.flatMap_map]
    rfl
  · rw [← honce.length_eq, hfiles]
    show (reports.reverse.map Part.rows).sum = _
    rw [hreports, List.map_map, List.length_flatMap, List.map_map]
    congr 1
    apply List.map_congr_left
    intro d hd
    exact (hok d hd).describes.rows

end

variable {settings : Settings} {runtime : Runtime}

theorem handleWrite_ok {input : WriteInput} {st : State} {n : Native} {s : Server × Native}
    (h : handleWrite dataset settings runtime input st n = (.ok, s)) :
    ∃ st' n', writeRows dataset settings runtime input st n = (.ok st', n') ∧ s = (.running st', n') := by
  unfold handleWrite at h
  split at h
  · cases h
    exact ⟨_, _, ‹_›, rfl⟩
  · cases h
  · cases h

theorem handleClose_closed {st : State} {n : Native} {r : WriteReport} {s : Server × Native}
    (h : handleClose dataset settings runtime st n = (.closed r, s)) :
    ∃ st' n', closeAll dataset settings runtime st n = (.ok st', n') ∧ r = report st'.reports ∧
      s = (.stopped, cancelAll st' n') := by
  unfold handleClose at h
  split at h
  · cases h
    exact ⟨_, _, ‹_›, rfl, rfl⟩
  · cases h
  · cases h

theorem cancel_published (n : Native) (handle : Nat) : (n.cancel handle).published = n.published := by
  unfold Native.cancel
  split
  · split <;> rfl
  · rfl

theorem cancelAll_published (st : State) (n : Native) : (cancelAll st n).published = n.published := by
  unfold cancelAll
  induction st.active.entries generalizing n with
  | nil => rfl
  | cons entry entries ih => rw [List.foldl_cons, ih, cancel_published]

/-- Successful writes route their rows in order, and the invariant holds after them. -/
theorem Conserves.writes {inputs : List WriteInput} :
    ∀ {routed : List Routed} {st : State} {n : Native} {calls : List Call} {replies : List Reply},
      Conserves dataset none routed st n →
      (machine dataset settings runtime).replies (.running st, n) (inputs.map Call.write ++ calls) =
        inputs.map (fun _ => Reply.ok) ++ replies →
      ∃ rows, ∃ more : List Routed, ∃ st' n', inputs.mapM inputRows = .ok rows ∧ more.map Routed.row = rows.flatten ∧
        (∀ r ∈ more, RoutedBy dataset r) ∧ Conserves dataset none (routed ++ more) st' n' ∧
        (machine dataset settings runtime).run (.running st, n) (inputs.map Call.write) = (.running st', n') ∧
        (machine dataset settings runtime).replies (.running st', n') calls = replies := by
  induction inputs with
  | nil =>
    intro routed st n calls replies h hx
    exact ⟨[], [], st, n, rfl, rfl, by simp, by simpa using h, rfl, hx⟩
  | cons input inputs ih =>
    intro routed st n calls replies h hx
    simp only [List.map_cons, List.cons_append, Machine.replies_cons, List.cons.injEq] at hx
    obtain ⟨hok, hrest⟩ := hx
    change (handleWrite dataset settings runtime input st n).1 = .ok at hok
    obtain ⟨st₁, n₁, hwrite, hs⟩ := handleWrite_ok (Prod.ext hok rfl)
    obtain ⟨rows, more, hrows, hmore, hall, h₁⟩ := h.writeRows hwrite
    change (machine dataset settings runtime).replies (handleWrite dataset settings runtime input st n).2 _ = _ at hrest
    simp only [hs] at hrest
    obtain ⟨rows', more', st', n', hrows', hmore', hall', h', hrun, hreplies⟩ := ih h₁ hrest
    refine ⟨rows :: rows', more ++ more', st', n', ?_, ?_, ?_, ?_, ?_, hreplies⟩
    · rw [mapM_eq_ok] at hrows' ⊢
      exact .cons hrows hrows'
    · rw [List.map_append, hmore, hmore', List.flatten_cons]
    · intro r hr
      rcases List.mem_append.mp hr with hr | hr
      · exact hall r hr
      · exact hall' r hr
    · rw [← List.append_assoc]
      exact h'
    · show (machine dataset settings runtime).run (handleWrite dataset settings runtime input st n).2 _ = _
      simp only [hs]
      exact hrun

/-- A run of writes and a close that succeed accounts for the rows of its inputs. -/
theorem accounts_of_replies {inputs : List WriteInput} {report : WriteReport}
    (h : (machine dataset settings runtime).replies start (inputs.map Call.write ++ [.close]) =
      inputs.map (fun _ => Reply.ok) ++ [.closed report]) :
    ∃ rows encoded, inputs.mapM inputRows = .ok rows ∧
      rows.flatten.mapM (Input.encodedRow dataset.schema) = .ok encoded ∧
      Accounts dataset encoded report
        ((machine dataset settings runtime).run start (inputs.map Call.write ++ [.close])).2.published := by
  obtain ⟨rows, routed, st, n, hrows, hmore, hall, hconserves, hrun, hclose⟩ :=
    Conserves.writes (init_conserves dataset) h
  simp only [Machine.replies_cons, List.cons.injEq] at hclose
  have hreply : (handleClose dataset settings runtime st n).1 = .closed report := hclose.1
  obtain ⟨st', n', hcloseAll, hreport, hs⟩ := handleClose_closed (Prod.ext hreply rfl)
  obtain ⟨-, done, hreports, hpublished, hok, hsplit⟩ := hconserves.closeAll hcloseAll
  rw [List.nil_append] at hsplit
  obtain ⟨encoded, hencoded⟩ := exists_encoded hok hsplit
  refine ⟨rows, encoded, hrows, ?_, ?_⟩
  · rw [mapM_eq_ok, ← hmore, List.forall₂_map_left_iff]
    exact hencoded.imp fun _ _ hs => hs.encodes
  · have hfiles : ((machine dataset settings runtime).run start (inputs.map Call.write ++ [.close])).2.published =
        n'.published := by
      rw [Machine.run_append]
      change ((machine dataset settings runtime).run ((machine dataset settings runtime).run (.running init, .fresh)
        (inputs.map Call.write)) [.close]).2.published = _
      rw [hrun]
      change (handleClose dataset settings runtime st n).2.2.published = _
      simp only [hs]
      exact cancelAll_published st' n'
    rw [hfiles, hreport]
    exact accounts_of_done hreports hpublished hok hsplit hencoded

/-- Writes that succeed before a close that succeeds put every row into one published part. -/
theorem dataset_writer_accounts (dataset : Dataset) (settings : Settings) (runtime : Runtime)
    (inputs : List WriteInput) (report : WriteReport)
    (h : (machine dataset settings runtime).replies start (inputs.map Call.write ++ [.close]) =
      inputs.map (fun _ => Reply.ok) ++ [.closed report]) :
    ∃ rows encoded, inputs.mapM inputRows = .ok rows ∧
      rows.flatten.mapM (Input.encodedRow dataset.schema) = .ok encoded ∧
      Accounts dataset encoded report
        ((machine dataset settings runtime).run start (inputs.map Call.write ++ [.close])).2.published :=
  accounts_of_replies h

/-! ## Two runs -/

/-- One open partition, two rows a file. -/
def smallSettings : Settings where
  maxOpenPartitions := 1
  maxRowsPerFile := 2
  maxBytesPerFile := 1000
  batchRows := 1
  maxBatchRows := 10
  partitionsPos := by decide
  rowsPos := by decide
  bytesPos := by decide
  batchRowsPos := by decide
  batchRowsLe := by decide

/-- Every native call succeeds. -/
def smoothRuntime : Runtime where
  answer := fun _ => .done 100
  partName := fun n => "part-" ++ toString n ++ ".parquet"
  externalSize := fun _ => 20

def clockRow (timestamp : Int) : Term := .map [(.atom "at", .int timestamp)]

def clockInput (timestamps : List Int) : WriteInput := .term (.list (timestamps.map clockRow))

def clockPart (path name : String) (rows : Nat) (minTimestamp maxTimestamp : Int) : Part where
  key := "events/" ++ path ++ "/" ++ name
  partition := path
  rows := rows
  size := 100
  minTimestamp := { microseconds := 1000000 * minTimestamp, precision := 0 }
  maxTimestamp := { microseconds := 1000000 * maxTimestamp, precision := 0 }

/-- A row of another hour evicts the only open part, and a third row rotates its file. -/
def evictionReport : WriteReport where
  parts := [
    clockPart "year=1970/month=1/day=1/hour=0" "part-0.parquet" 1 0 0,
    clockPart "year=1970/month=1/day=1/hour=1" "part-3.parquet" 1 3600 3600,
    clockPart "year=1970/month=1/day=1/hour=0" "part-6.parquet" 2 1 2,
    clockPart "year=1970/month=1/day=1/hour=0" "part-10.parquet" 1 3 3]
  rows := 5
  bytes := 400

theorem dataset_writer_accounts_eviction :
    ∃ rows encoded, [clockInput [0, 3600, 1], clockInput [2, 3]].mapM inputRows = .ok rows ∧
      rows.flatten.mapM (Input.encodedRow (clockDataset .second).schema) = .ok encoded ∧
      Accounts (clockDataset .second) encoded evictionReport
        ((machine (clockDataset .second) smallSettings smoothRuntime).run start
          ([clockInput [0, 3600, 1], clockInput [2, 3]].map Call.write ++ [.close])).2.published :=
  dataset_writer_accounts (clockDataset .second) smallSettings smoothRuntime [clockInput [0, 3600, 1], clockInput [2, 3]]
    evictionReport (by decide +kernel)

/-- Two timestamps in nanoseconds are reported as one microsecond. -/
theorem nanosecond_bounds_rounded :
    ∃ part, (machine (clockDataset .nanosecond) smallSettings smoothRuntime).replies start
        [.write (clockInput [1500, 1700]), .close] = [.ok, .closed { parts := [part], rows := 2, bytes := 100 }] ∧
      ((machine (clockDataset .nanosecond) smallSettings smoothRuntime).run start
        [.write (clockInput [1500, 1700]), .close]).2.published.map (fun file =>
          (file.key, file.rows.map (clockDataset .nanosecond).timestampOf)) = [(part.key, [some 1500, some 1700])] ∧
      part.minTimestamp.toUnix .nanosecond ≠ 1500 ∧ part.maxTimestamp.toUnix .nanosecond ≠ 1700 := by
  refine ⟨?part, ?_, ?_, ?_, ?_⟩
  case part => exact {
    key := "events/year=1970/month=1/day=1/hour=0/part-0.parquet"
    partition := "year=1970/month=1/day=1/hour=0"
    rows := 2
    size := 100
    minTimestamp := { microseconds := 1, precision := 6 }
    maxTimestamp := { microseconds := 1, precision := 6 } }
  · decide +kernel
  · decide +kernel
  · decide
  · decide

end DatasetWriter

end Parquex
