import Parquex.DatasetAnswers

/-!
# Reading back a dataset of a remote store

A bucket lists whole segments, so a planned partition lists its own files and no
others. What is written to a dataset comes back from a range of its time in the order
of the partitions and of the keys, unless the store refuses the path of a partition.
-/

namespace Parquex

open DatasetStream

theorem pathOf_append (base key rest : String) : pathOf base (key ++ rest) = pathOf base key ++ rest := by
  unfold pathOf
  split
  · rfl
  · simp only [String.append_assoc]

theorem Dataset.IsPath.hasControl_eq {dataset : Dataset} {path : String} (h : dataset.IsPath path) :
    hasControl (dataset.prefix' ++ path) = hasControl dataset.prefix' := by
  obtain ⟨k, rfl⟩ := h
  rw [hasControl_append, hasControl_tilePath, Bool.or_false]

namespace RemoteStore

section
variable {σ : Type} (remote : RemoteStore σ) (contents : σ → String → Option Bytes) (state : σ) (dataset : Dataset)
  (parts : List PublishedPart)

/-- The objects of the bucket beneath the prefix of a dataset are its parts. -/
def HoldsParts : Prop :=
  ∀ location, hasPrefix location (pathOf remote.base dataset.prefix') = true →
    (contents state location ≠ none ↔ ∃ part ∈ parts, location = pathOf remote.base part.key)

/-- The library takes the range and the columns, and the store the paths of the planned partitions. -/
structure Readable (columns : Option (List String)) (from' until' : Int) (paths : List String) : Prop where
  bounds : Held dataset from' ∧ Held dataset until'
  columns : Offers dataset.schema columns
  drive : paths ≠ [] → drivePrefix dataset.prefix' = false
  control : paths ≠ [] → hasControl (pathOf remote.base dataset.prefix') = false

end

variable {σ : Type} {remote : RemoteStore σ} {contents : σ → String → Option Bytes} {choices : ServiceChoices}
  {state : σ} {dataset : Dataset} {parts : List PublishedPart} {path : String} {maxRangeBytes : Nat}
  {file : String → FileReading}

/-! ## Listing a partition -/

theorem resource_list (pre : String) :
    (remote.store maxRangeBytes).resource.list state pre = remote.storeList state pre := rfl

section
variable (hr : remote.service.Rules contents choices) (hb : remote.base = "" ∨ AcceptedKey remote.base)
  (hpath : dataset.IsPath path)
include hr hb hpath

/-- A partition whose path the library or the service does not take is not listed. -/
theorem list_refused
    (hnot : ¬ (drivePrefix dataset.prefix' = false ∧ hasControl (pathOf remote.base dataset.prefix') = false)) :
    ∃ error, ((remote.store maxRangeBytes).shelf state file).list (dataset.prefix' ++ path ++ "/") = .error error := by
  cases hdrive : drivePrefix dataset.prefix' with
  | true =>
    obtain ⟨error, herror⟩ := hpath.shelf_list_drive hdrive
    exact ⟨error, herror state⟩
  | false =>
    have hk : AcceptedKey (dataset.prefix' ++ path) := hpath.accepted_iff.mpr hdrive
    have hcontrol : hasControl (pathOf remote.base (dataset.prefix' ++ path)) = true := by
      rw [hasControl_pathOf, hpath.hasControl_eq, ← hasControl_pathOf]
      exact Bool.eq_true_of_not_eq_false fun hc => hnot ⟨hdrive, hc⟩
    obtain ⟨failure, hfailure, -⟩ := storeList_control hr hb (Or.inr hk) hcontrol
    refine ⟨.fromNative failure, ?_⟩
    rw [hpath.shelf_list hdrive, resource_list, hfailure]
    rfl

variable (hplaced : ∀ part ∈ parts, dataset.Placed part) (hstored : remote.HoldsParts contents state dataset parts)
include hplaced hstored

omit hr hb in
/-- What lies within the path of a partition are its parts. -/
theorem inPrefix_partition {location : String} (hobject : contents state location ≠ none) :
    InPrefix choices.listsSelf location (some (pathOf remote.base (dataset.prefix' ++ path))) ↔
      ∃ part ∈ parts, dataset.beneath path part = true ∧ location = pathOf remote.base part.key := by
  have hbelow :
      hasPrefix (pathOf remote.base (dataset.prefix' ++ path)) (pathOf remote.base dataset.prefix') = true := by
    rw [pathOf_append]
    exact hasPrefix_iff_append.mpr ⟨path, rfl⟩
  constructor
  · intro hin
    have hdataset : hasPrefix location (pathOf remote.base dataset.prefix') = true := by
      rcases hin with hin | ⟨-, rfl⟩
      · exact hasPrefix_trans (hasPrefix_trans hin (hasPrefix_iff_append.mpr ⟨"/", rfl⟩)) hbelow
      · exact hbelow
    obtain ⟨part, hpart, rfl⟩ := (hstored location hdataset).mp hobject
    rcases (inPrefix_pathOf part.key).mp hin with hbeneath | ⟨-, hsame⟩
    · exact ⟨part, hpart, hbeneath, rfl⟩
    · exact absurd hsame ((hplaced part hpart).key_ne hpath)
  · rintro ⟨part, -, hbeneath, rfl⟩
    exact (inPrefix_pathOf part.key).mpr (Or.inl hbeneath)

theorem lists_partition (hdrive : drivePrefix dataset.prefix' = false)
    (hc : hasControl (pathOf remote.base dataset.prefix') = false) :
    ListsParts (dataset.beneath path) parts
      (((remote.store maxRangeBytes).shelf state file).list (dataset.prefix' ++ path ++ "/")) := by
  have hk : AcceptedKey (dataset.prefix' ++ path) := hpath.accepted_iff.mpr hdrive
  have hcontrol : hasControl (pathOf remote.base (dataset.prefix' ++ path)) = false := by
    rw [hasControl_pathOf, hpath.hasControl_eq, ← hasControl_pathOf, hc]
  have hscope : remote.listPrefix (joinKey remote.base (dataset.prefix' ++ path)) =
      .ok (some (pathOf remote.base (dataset.prefix' ++ path))) := by
    rw [joinKey_accepted hb hk]
    exact listPrefix_path hr (pathOf_ne hk) (pathOf_segments hb hk) hcontrol
  obtain ⟨found, hfound, hascending, hmem⟩ := storeList_scope hr hb (Or.inr hk) hcontrol hscope
  have hparts : ∀ {location size}, (location, size) ∈ found →
      ∃ part ∈ parts, dataset.beneath path part = true ∧ location = pathOf remote.base part.key := by
    intro location size he
    obtain ⟨hin, hsize⟩ := (hmem location size).mp he
    refine (inPrefix_partition hpath hplaced hstored fun hnone => ?_).mp hin
    rw [hnone] at hsize
    cases hsize
  rw [hpath.shelf_list hdrive, resource_list, hfound]
  refine ⟨found.map fun entry => remote.stripMarker entry.1, ?_, ?_, fun key => ?_⟩
  · exact congrArg Except.ok List.map_map
  · rw [List.Nodup, List.pairwise_map]
    refine hascending.imp_of_mem fun {a b} ha hb' hab heq => ?_
    obtain ⟨part, -, -, hpart⟩ := hparts ha
    obtain ⟨part', -, -, hpart'⟩ := hparts hb'
    rw [hpart, hpart', stripMarker_path hb, stripMarker_path hb] at heq
    rw [hpart, hpart', heq] at hab
    exact lt_irrefl _ hab
  · rw [List.mem_map]
    constructor
    · rintro ⟨⟨location, size⟩, he, rfl⟩
      obtain ⟨part, hpart, hbeneath, rfl⟩ := hparts he
      exact ⟨part, hpart, hbeneath, (stripMarker_path hb part.key).symm⟩
    · rintro ⟨part, hpart, hbeneath, rfl⟩
      have hlocation : hasPrefix (pathOf remote.base part.key) (pathOf remote.base dataset.prefix') = true := by
        obtain ⟨rest, hrest⟩ := hasPrefix_iff_append.mp (hplaced part hpart).beneath
        rw [hrest, pathOf_append]
        exact hasPrefix_iff_append.mpr ⟨rest, rfl⟩
      have hobject := (hstored _ hlocation).mpr ⟨part, hpart, rfl⟩
      obtain ⟨content, hcontent⟩ := Option.ne_none_iff_exists'.mp hobject
      refine ⟨(pathOf remote.base part.key, content.length), ?_, stripMarker_path hb part.key⟩
      rw [hmem, hcontent]
      exact ⟨(inPrefix_partition hpath hplaced hstored hobject).mpr ⟨part, hpart, hbeneath, rfl⟩, rfl⟩

end

/-! ## Reading the range -/

section
variable {options : Options} {columns : Option (List String)} {from' until' : Int} {plans : List Partition}
  {source : Source}
  (hr : remote.service.Rules contents choices) (hb : remote.base = "" ∨ AcceptedKey remote.base)
  (hrange : Ranges options from' until') (hcolumns : Requests options columns)
  (hplan : dataset.partition.planWith (.int from') (.int until')
    [("max_partitions", (options.lookup "max_partitions").getD (.int 10000))] = .ok plans)
  (ha : Answers (rangeSettings dataset columns from' until') source ((remote.store maxRangeBytes).shelf state file)
    (plans.map Partition.path))
include hr hb hrange hcolumns hplan ha

/-- The parts beneath the planned partitions are read one after another. -/
theorem reads_parts (hschema : dataset.schema.names.Nodup) (hplaced : ∀ part ∈ parts, dataset.Placed part)
    (hunique : (parts.map PublishedPart.key).Nodup) (hstored : remote.HoldsParts contents state dataset parts)
    (hreads : ∀ part ∈ parts, (file part.key).Returns
      (internalNames dataset (requestedSchema dataset.schema columns).names none) part.rows)
    (h : remote.Readable dataset columns from' until' (plans.map Partition.path)) :
    dataset.ReadsAs options source (.ok ((rangeRows (rangeSettings dataset columns from' until') parts dataset.beneath
      (plans.map Partition.path)).map (Finite.decodeRow (requestedSchema dataset.schema columns)))) := by
  refine Dataset.reads_parts hrange hcolumns hplan h.bounds.1 h.bounds.2 h.columns ha hschema hunique hplaced hreads ?_
  intro path hpath
  have hne := List.ne_nil_of_mem hpath
  exact lists_partition hr hb (Dataset.plan_isPath hplan path hpath) hplaced hstored (h.drive hne) (h.control hne)

theorem reads_refused (hnot : ¬ remote.Readable dataset columns from' until' (plans.map Partition.path)) :
    ∃ stop, dataset.ReadsAs options source (.error stop) := by
  by_cases hopen : (Held dataset from' ∧ Held dataset until') ∧ Offers dataset.schema columns
  · have hne : plans.map Partition.path ≠ [] := fun hnil =>
      hnot ⟨hopen.1, hopen.2, fun hne => absurd hnil hne, fun hne => absurd hnil hne⟩
    obtain ⟨path, hpath⟩ := List.exists_mem_of_ne_nil _ hne
    obtain ⟨error, herror⟩ := list_refused hr hb (Dataset.plan_isPath hplan path hpath) fun htakes =>
      hnot ⟨hopen.1, hopen.2, fun _ => htakes.1, fun _ => htakes.2⟩
    exact Dataset.reads_error hrange hcolumns hplan hopen.1.1 hopen.1.2 hopen.2 ha hpath herror
  · exact Dataset.reads_refused hrange hcolumns hopen

end

/-- A history of writes is read back from a range in the order of the partitions and of the keys, every row once, and
projected. Where the library or the store refuses the range, the columns or a path, the read is an error. -/
theorem s3_dataset_round_trip {text : String} {history : List DatasetWrite}
    (hbase : Store.nativeS3Key text = .ok remote.base) (hr : remote.service.Rules contents choices)
    (hschema : dataset.schema.names.Nodup)
    (hwrites : ∀ write ∈ history, write.Succeeds dataset)
    (hnames : ∀ write ∈ history, DatasetWriter.NamesParts write.runtime)
    (hunique : ((DatasetWrite.publishedBy dataset history).map PublishedPart.key).Nodup)
    (hstored : remote.HoldsParts contents state dataset (DatasetWrite.publishedBy dataset history))
    {columns : Option (List String)} (hreads : ∀ part ∈ DatasetWrite.publishedBy dataset history,
      (file part.key).Returns (internalNames dataset (requestedSchema dataset.schema columns).names none) part.rows)
    {options : Options} {from' until' : Int} (hrange : Ranges options from' until') (hcolumns : Requests options columns)
    {plans : List Partition} (hplan : dataset.partition.planWith (.int from') (.int until')
      [("max_partitions", (options.lookup "max_partitions").getD (.int 10000))] = .ok plans)
    {source : Source} (ha : Answers (rangeSettings dataset columns from' until') source
      ((remote.store maxRangeBytes).shelf state file) (plans.map Partition.path)) :
    ∃ encoded, history.mapM (DatasetWrite.encodedRows dataset) = .ok encoded ∧
      plans.Pairwise (fun p q => p.start.microseconds < q.start.microseconds) ∧
      (rangeRows (rangeSettings dataset columns from' until') (DatasetWrite.publishedBy dataset history) dataset.beneath
          (plans.map Partition.path)).Perm
        (encoded.flatten.filter fun row => inRange (row.get dataset.column) from' until') ∧
      (remote.Readable dataset columns from' until' (plans.map Partition.path) → dataset.ReadsAs options source
        (.ok ((rangeRows (rangeSettings dataset columns from' until') (DatasetWrite.publishedBy dataset history)
          dataset.beneath (plans.map Partition.path)).map
            (Finite.decodeRow (requestedSchema dataset.schema columns))))) ∧
      (¬ remote.Readable dataset columns from' until' (plans.map Partition.path) →
        ∃ stop, dataset.ReadsAs options source (.error stop)) := by
  have hb := Store.nativeS3Key_eq_ok hbase
  obtain ⟨encoded, hencoded, hperm, hplaced⟩ := Dataset.parts_of_history hwrites hnames
  refine ⟨encoded, hencoded, Dataset.plan_ascending hplan, ?_, ?_, ?_⟩
  · exact (Dataset.rangeRows_beneath hplaced hplan).trans (hperm.filter _)
  · exact reads_parts hr hb hrange hcolumns hplan ha hschema hplaced hunique hstored hreads
  · exact reads_refused hr hb hrange hcolumns hplan ha

/-! ## The tenth hour -/

def tenthState : Memory := AList.insert ("prod/" ++ tenthKey) [1] ∅

theorem tenthState_holdsParts : prodRemote.HoldsParts (fun state : Memory => fun path => state.lookup path) tenthState
    (clockDataset .second) (DatasetWrite.publishedBy (clockDataset .second) [tenthWrite]) := by
  obtain ⟨part, hparts, hkey, -⟩ := tenthWrite_published
  intro location _
  rw [hparts]
  simp only [List.mem_singleton, exists_eq_left, hkey]
  unfold tenthState
  by_cases hlocation : location = "prod/" ++ tenthKey
  · rw [hlocation, AList.lookup_insert]
    exact iff_of_true (by simp) rfl
  · rw [AList.lookup_insert_ne hlocation]
    exact iff_of_false (fun hne => hne rfl) hlocation

/-- The source of a bucket for a range of the hourly dataset. -/
def clockSource (dataset : Dataset) (state : Memory) (from' until' : Int) (plans : List Partition) : Source :=
  ((prodRemote.store 8388608).shelf state tenthFile).source (rangeSettings dataset none from' until')
    (plans.map Partition.path)

/-- The row of the tenth hour comes back once from the first to the eleventh. -/
theorem s3_dataset_round_trip_tenth : (clockDataset .second).ReadsAs (clockRange 3600 39600)
    (clockSource (clockDataset .second) tenthState 3600 39600 ((List.range' 1 10).map clockHour)) (.ok [tenthRow]) := by
  have hbase : Store.nativeS3Key "prod//" = .ok prodRemote.base := by decide
  have hcolumns : Requests (clockRange 3600 39600) none := rfl
  obtain ⟨encoded, hencoded, -, hrows, hreads, -⟩ := s3_dataset_round_trip hbase memoryService_rules (by decide)
    tenthWrite_succeeds tenthWrite_named tenthWrite_unique tenthState_holdsParts tenthFile_returns
    (ranges_clockRange 3600 39600) hcolumns plan_morning (answers_source _ _ _)
  rw [tenthWrite_encoded] at hencoded
  cases hencoded
  have hrow := List.perm_singleton.mp hrows
  have hread := hreads ⟨by decide, trivial, fun _ => by decide, fun _ => by decide⟩
  rw [hrow] at hread
  exact hread

/-- A dataset whose prefix reads like a drive before the path of a partition. -/
def driveDataset : Dataset where
  prefix' := "a:/"
  schema := (clockDataset .second).schema
  partition := (clockDataset .second).partition
  field := (clockDataset .second).field
  prefixAccepted := ⟨"a:", by decide, rfl⟩
  fieldFound := rfl
  fieldValid := rfl

/-- Nothing is written to it, and reading its first hour is an error. -/
theorem drive_dataset_not_read :
    prodRemote.HoldsParts (fun state : Memory => fun path => state.lookup path) ∅ driveDataset
        (DatasetWrite.publishedBy driveDataset []) ∧
      driveDataset.partition.planWith (.int 0) (.int 3600) [("max_partitions", .int 10000)] = .ok [clockHour 0] ∧
      Answers (rangeSettings driveDataset none 0 3600) (clockSource driveDataset ∅ 0 3600 [clockHour 0])
        ((prodRemote.store 8388608).shelf ∅ tenthFile) [(clockHour 0).path] ∧
      ∃ stop, driveDataset.ReadsAs (clockRange 0 3600) (clockSource driveDataset ∅ 0 3600 [clockHour 0])
        (.error stop) := by
  have hplan : driveDataset.partition.planWith (.int 0) (.int 3600) [("max_partitions", .int 10000)] =
      .ok [clockHour 0] := by decide +kernel
  refine ⟨?_, hplan, answers_source _ _ _, ?_⟩
  · intro location _
    simp [DatasetWrite.publishedBy]
  · have hcolumns : Requests (clockRange 0 3600) none := rfl
    refine reads_refused memoryService_rules (Or.inr (by decide)) (ranges_clockRange 0 3600) hcolumns hplan
      (answers_source _ _ _) fun hreadable => ?_
    exact absurd (hreadable.drive (by simp)) (by decide)

end RemoteStore

end Parquex
