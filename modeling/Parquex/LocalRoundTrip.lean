import Parquex.DatasetAnswers
import Parquex.ListingWithin
import Parquex.LocalListExact

/-!
# Reading back a dataset of a local store

What is written to a dataset comes back from a range of its time, unless the listing
of a planned partition returns something else: an error, or, where the partition has
no directory, the files of another whose name begins alike.
-/

namespace Parquex

open DatasetStream

namespace LocalHost

variable (host : LocalHost) (files : FileSystem) (dataset : Dataset) (parts : List PublishedPart)

/-- The objects beneath the prefix of a dataset are its parts. -/
def HoldsParts : Prop :=
  ∀ key, hasPrefix key dataset.prefix' = true → (host.HasObject files key ↔ ∃ part ∈ parts, part.key = key)

/-- Nothing is at the path of a partition, and the key begins with its text. -/
def astray (path : String) (part : PublishedPart) : Bool :=
  (files.get (host.location (dataset.prefix' ++ path))).isNone && hasPrefix part.key (dataset.prefix' ++ path)

/-- The store keeps the planned partitions of a range apart. -/
structure Separates (from' until' : Int) (paths : List String) : Prop where
  bounds : Held dataset from' ∧ Held dataset until'
  drive : paths ≠ [] → drivePrefix dataset.prefix' = false
  above : paths ≠ [] → ∀ key, host.HasObject files key → hasPrefix dataset.prefix' (key ++ "/") = false
  siblings : ∀ path ∈ paths, ∀ part ∈ parts, astray host files dataset path part = true →
    ∀ row ∈ part.rows, inRange (row.get dataset.column) from' until' = false

variable {host files dataset parts} {path : String} {maxRangeBytes : Nat} {file : String → FileReading}

/-! ## Listing a partition -/

theorem resource_list (pre : String) :
    (host.store maxRangeBytes).resource.list files pre = host.storeList files pre := rfl

section
variable (hpath : dataset.IsPath path)
include hpath

section
variable (hplaced : ∀ part ∈ parts, dataset.Placed part) (hstored : host.HoldsParts files dataset parts)
include hplaced hstored

/-- An object lies above the path of a partition when it lies above the prefix of the dataset. -/
theorem underObject_iff : host.UnderObject files (dataset.prefix' ++ path) ↔
    ∃ key, host.HasObject files key ∧ hasPrefix dataset.prefix' (key ++ "/") = true := by
  constructor
  · rintro ⟨key, hobject, habove⟩
    refine ⟨key, hobject, ?_⟩
    obtain ⟨base, -, hslash⟩ := dataset.prefixAccepted
    have hbase : hasPrefix (dataset.prefix' ++ path) (base ++ "/") = true := by
      rw [hslash]
      exact hasPrefix_iff_append.mpr ⟨path, rfl⟩
    rcases hasPrefix_of_common habove hbase with rfl | hbeneath | habove'
    · rw [hslash]
      exact hasPrefix_iff.mpr (List.prefix_refl _)
    · rw [← hslash] at hbeneath
      obtain ⟨part, hpart, rfl⟩ := (hstored key hbeneath).mp hobject
      obtain ⟨name, hkey⟩ := (hplaced part hpart).key
      rw [hkey] at habove
      exact absurd habove ((hplaced part hpart).isPath.not_above hpath name)
    · rw [hslash]
      exact hasPrefix_trans (hasPrefix_iff_append.mpr ⟨"/", rfl⟩) habove'
  · rintro ⟨key, hobject, habove⟩
    exact ⟨key, hobject, hasPrefix_trans (hasPrefix_iff_append.mpr ⟨path, rfl⟩) habove⟩

theorem lists_partition (h : host.ObjectTree files) (hdrive : drivePrefix dataset.prefix' = false)
    (habove : ∀ key, host.HasObject files key → hasPrefix dataset.prefix' (key ++ "/") = false) :
    ListsParts (fun part => dataset.beneath path part || astray host files dataset path part) parts
      (((host.store maxRangeBytes).shelf files file).list (dataset.prefix' ++ path ++ "/")) := by
  have hk : AcceptedKey (dataset.prefix' ++ path) := hpath.accepted_iff.mpr hdrive
  rw [hpath.shelf_list hdrive, resource_list]
  rcases h.storeList_cases hk with ⟨hunder, -⟩ | ⟨-, entries, hentries, hlists⟩
  · obtain ⟨key, hobject, hunder⟩ := (underObject_iff hpath hplaced hstored).mp hunder
    rw [habove key hobject] at hunder
    cases hunder
  · rw [hentries]
    refine ⟨entries.map ObjectMetadata.path, rfl, ?_, fun key => ?_⟩
    · exact hlists.ascending.imp fun hlt => ne_of_lt hlt
    · have hslash : hasPrefix (dataset.prefix' ++ path) dataset.prefix' = true := hasPrefix_iff_append.mpr ⟨path, rfl⟩
      rw [hlists.keys]
      constructor
      · rintro ⟨hobject, hempty | rfl | hbeneath | ⟨hnone, htext⟩⟩
        · exact absurd hempty (acceptedKey_iff.mp hk).1
        · obtain ⟨part, hpart, hkey⟩ := (hstored _ hslash).mp hobject
          exact absurd hkey ((hplaced part hpart).key_ne hpath)
        · obtain ⟨part, hpart, rfl⟩ := (hstored key (hasPrefix_trans (hasPrefix_of_beneath hbeneath) hslash)).mp hobject
          exact ⟨part, hpart, (Bool.or_eq_true _ _).mpr (Or.inl hbeneath), rfl⟩
        · obtain ⟨part, hpart, rfl⟩ := (hstored key (hasPrefix_trans htext hslash)).mp hobject
          have hastray : astray host files dataset path part = true := by
            unfold astray
            rw [hnone, htext]
            rfl
          exact ⟨part, hpart, (Bool.or_eq_true _ _).mpr (Or.inr hastray), rfl⟩
      · rintro ⟨part, hpart, hlisted, rfl⟩
        have hobject := (hstored part.key (hplaced part hpart).beneath).mpr ⟨part, hpart, rfl⟩
        rw [Bool.or_eq_true, astray, Bool.and_eq_true, Option.isNone_iff_eq_none] at hlisted
        exact ⟨hobject, Or.inr (Or.inr hlisted)⟩

/-- Where nothing is at the path of a partition, no part lies beneath it. -/
theorem not_astray_of_beneath (h : host.ObjectTree files) (hdrive : drivePrefix dataset.prefix' = false)
    {part : PublishedPart} (hpart : part ∈ parts) (hbeneath : dataset.beneath path part = true) :
    astray host files dataset path part = false := by
  obtain ⟨hkey, content, hget⟩ := (hstored part.key (hplaced part hpart).beneath).mpr ⟨part, hpart, rfl⟩
  obtain ⟨q, hq, hsplit⟩ := hasPrefix_slash_iff.mp hbeneath
  have hk : AcceptedKey (dataset.prefix' ++ path) := hpath.accepted_iff.mpr hdrive
  unfold location at hget
  rw [hkey.keyPath_eq, hsplit] at hget
  have hdirectory := h.tree.above hget (List.prefix_append _ _) (by simpa using hq.symm)
  unfold astray location
  rw [hk.keyPath_eq, hdirectory]
  rfl

end

end

/-! ## The place of a dataset -/

variable (host files dataset) in
/-- The entries above and beneath the prefix of a dataset. -/
def scope : FileSystem := files.within (host.location dataset.prefix')

section
variable {key : String}

theorem keyPath_prefix (dataset : Dataset) :
    ∃ key, dataset.prefix' = key ++ "/" ∧ AcceptedKey key ∧ keyPath dataset.prefix' = splitSlash key := by
  obtain ⟨key, hk, hslash⟩ := dataset.prefixAccepted
  refine ⟨key, hslash, hk, ?_⟩
  have hsplit : splitSlash (key ++ "/") = splitSlash key ++ [""] := by
    have := splitSlash_append key ""
    rwa [String.append_empty] at this
  have hroot : hasPrefix (key ++ "/") "/" = false := by
    have hne : key.toList ≠ [] := fun hnil => (acceptedKey_iff.mp hk).1 (String.toList_inj.mp hnil)
    have hhead := not_hasPrefix_slash_iff.mp hk.relative.not_hasPrefix_slash
    rw [not_hasPrefix_slash_iff, String.toList_append, List.head?_append_of_ne_nil _ hne]
    exact hhead
  have hdot : (splitSlash key).head? ≠ some "." := fun hd => (hk.segment_ne (List.mem_of_mem_head? hd)).2.1 rfl
  rw [hslash, ← hk.keyPath_eq]
  unfold keyPath
  rw [hk.relative.components_eq]
  unfold components
  rw [hroot, hsplit, List.head?_append_of_ne_nil _ (splitSlash_ne_nil key), if_neg (by simp), if_neg hdot]
  simp [segmentComponent]

/-- Keys above the prefix and beneath it are in line with it. -/
theorem inLine_of_key (hk : AcceptedKey key)
    (h : hasPrefix key dataset.prefix' = true ∨ hasPrefix dataset.prefix' (key ++ "/") = true) :
    FileSystem.InLine (host.location dataset.prefix') (host.location key) := by
  obtain ⟨base, hslash, hbase, hpath⟩ := keyPath_prefix dataset
  unfold location FileSystem.InLine
  rw [hpath, hk.keyPath_eq]
  rcases h with h | h
  · rw [hslash] at h
    obtain ⟨q, -, hq⟩ := hasPrefix_slash_iff.mp h
    exact Or.inr ((List.prefix_append_right_inj _).mpr ⟨q, hq.symm⟩)
  · rw [hslash] at h
    obtain ⟨q, hne, hq⟩ := hasPrefix_slash_iff.mp h
    have hsplit := splitSlash_append base ""
    rw [String.append_empty, hq] at hsplit
    refine Or.inl ((List.prefix_append_right_inj _).mpr ?_)
    rcases List.eq_nil_or_concat q with rfl | ⟨q, last, rfl⟩
    · exact absurd rfl hne
    · rw [List.concat_eq_append, ← List.append_assoc] at hsplit
      exact ⟨q, (List.append_inj' hsplit rfl).1⟩

theorem hasObject_scope
    (h : hasPrefix key dataset.prefix' = true ∨ hasPrefix dataset.prefix' (key ++ "/") = true) :
    host.HasObject (scope host files dataset) key ↔ host.HasObject files key := by
  refine and_congr_right fun hk => ?_
  unfold scope
  rw [FileSystem.get_within (inLine_of_key hk h)]

theorem list_scope (hpath : dataset.IsPath path) (h : host.ObjectTree (scope host files dataset)) :
    ((host.store maxRangeBytes).shelf files file).list (dataset.prefix' ++ path ++ "/") =
      ((host.store maxRangeBytes).shelf (scope host files dataset) file).list (dataset.prefix' ++ path ++ "/") := by
  cases hdrive : drivePrefix dataset.prefix' with
  | true =>
    obtain ⟨error, herror⟩ := hpath.shelf_list_drive hdrive
    rw [herror, herror]
  | false =>
    have hk : AcceptedKey (dataset.prefix' ++ path) := hpath.accepted_iff.mpr hdrive
    obtain ⟨base, hslash, -, hbase⟩ := keyPath_prefix dataset
    have hplace : host.location dataset.prefix' <+: (host.location (dataset.prefix' ++ path)).dropLast := by
      unfold location
      rw [hbase, hk.keyPath_eq, hslash, splitSlash_append, List.dropLast_append_of_ne_nil (by simp [splitSlash_ne_nil]),
        List.dropLast_append_of_ne_nil (splitSlash_ne_nil path), ← List.append_assoc]
      exact List.prefix_append _ _
    rw [hpath.shelf_list hdrive, hpath.shelf_list hdrive, resource_list, resource_list]
    unfold scope
    rw [storeList_within h (List.prefix_append _ _) hk hplace]

end

theorem astray_scope (hpath : dataset.IsPath path) (hdrive : drivePrefix dataset.prefix' = false) :
    astray host (scope host files dataset) dataset path = astray host files dataset path := by
  have hbelow : hasPrefix (dataset.prefix' ++ path) dataset.prefix' = true := hasPrefix_iff_append.mpr ⟨path, rfl⟩
  have hline : FileSystem.InLine (host.location dataset.prefix') (host.location (dataset.prefix' ++ path)) :=
    inLine_of_key (hpath.accepted_iff.mpr hdrive) (Or.inl hbelow)
  funext part
  unfold astray scope
  rw [FileSystem.get_within hline]

/-! ## Reading the range -/

section
variable {options : Options} {from' until' : Int} {plans : List Partition} {source : Source}
  (hschema : dataset.schema.names.Nodup) (hplaced : ∀ part ∈ parts, dataset.Placed part)
  (hunique : (parts.map PublishedPart.key).Nodup) (h : host.ObjectTree (scope host files dataset))
  (hstored : host.HoldsParts files dataset parts)
  (hreads : ∀ part ∈ parts, (file part.key).Returns (internalNames dataset dataset.schema.names none) part.rows)
  (hrange : Ranges options from' until') (hcolumns : (options.lookup "columns").getD .nil = .nil)
  (hplan : dataset.partition.planWith (.int from') (.int until')
    [("max_partitions", (options.lookup "max_partitions").getD (.int 10000))] = .ok plans)
  (ha : Answers (rangeSettings dataset none from' until') source ((host.store maxRangeBytes).shelf files file)
    (plans.map Partition.path))

section
include hstored

theorem holdsParts_scope : host.HoldsParts (scope host files dataset) dataset parts := fun key hkey =>
  (hasObject_scope (Or.inl hkey)).trans (hstored key hkey)

omit hstored in
theorem not_above_scope (habove : ∀ key, host.HasObject files key → hasPrefix dataset.prefix' (key ++ "/") = false)
    (key : String) (hobject : host.HasObject (scope host files dataset) key) :
    hasPrefix dataset.prefix' (key ++ "/") = false := by
  rw [← Bool.not_eq_true]
  intro hunder
  rw [habove key ((hasObject_scope (Or.inr hunder)).mp hobject)] at hunder
  cases hunder

end

section
include hschema hplaced hunique h hstored hreads hrange hcolumns hplan ha

/-- A read that no listing stops returns the rows of the range, and those of the parts that are listed astray. -/
theorem reads_local (hbounds : Held dataset from' ∧ Held dataset until')
    (hdrive : plans.map Partition.path ≠ [] → drivePrefix dataset.prefix' = false)
    (habove : plans.map Partition.path ≠ [] →
      ∀ key, host.HasObject files key → hasPrefix dataset.prefix' (key ++ "/") = false) :
    ∃ rows : List Row, dataset.ReadsAs options source (.ok (rows.map (Finite.decodeRow dataset.schema))) ∧
      rows.Perm (((parts.flatMap PublishedPart.rows).filter fun row => inRange (row.get dataset.column) from' until') ++
        rangeRows (rangeSettings dataset none from' until') parts (astray host files dataset)
          (plans.map Partition.path)) := by
  have hstored' := holdsParts_scope hstored
  have hlist : ∀ path ∈ plans.map Partition.path,
      ListsParts (fun part => dataset.beneath path part || astray host files dataset path part) parts
        (((host.store maxRangeBytes).shelf files file).list (dataset.prefix' ++ path ++ "/")) := by
    intro path hpath
    have hisPath := Dataset.plan_isPath hplan path hpath
    have hdrive := hdrive (List.ne_nil_of_mem hpath)
    rw [list_scope hisPath h, ← astray_scope hisPath hdrive]
    exact lists_partition hisPath hplaced hstored' h hdrive (not_above_scope (habove (List.ne_nil_of_mem hpath)))
  have hdisjoint : ∀ path ∈ plans.map Partition.path, ∀ part ∈ parts, dataset.beneath path part = true →
      astray host files dataset path part = false := by
    intro path hpath part hpart
    have hisPath := Dataset.plan_isPath hplan path hpath
    have hdrive := hdrive (List.ne_nil_of_mem hpath)
    rw [← astray_scope hisPath hdrive]
    exact not_astray_of_beneath hisPath hplaced hstored' h hdrive hpart
  have hcolumns : Requests options none := hcolumns
  refine ⟨_, Dataset.reads_parts hrange hcolumns hplan hbounds.1 hbounds.2 trivial ha hschema hunique hplaced hreads
    hlist, ?_⟩
  exact (rangeRows_or hdisjoint).trans ((Dataset.rangeRows_beneath hplaced hplan).append_right _)

omit hschema hunique hreads in
/-- A read that returns rows has listed every partition. -/
theorem listings_of_reads {rows : List Row} (hread : dataset.ReadsAs options source (.ok rows)) :
    (Held dataset from' ∧ Held dataset until') ∧
      ∀ path ∈ plans.map Partition.path, drivePrefix dataset.prefix' = false ∧
        ∀ key, host.HasObject files key → hasPrefix dataset.prefix' (key ++ "/") = false := by
  have hcolumns : Requests options none := hcolumns
  have hbounds : Held dataset from' ∧ Held dataset until' := by
    by_contra hnot
    obtain ⟨stop, hstop⟩ := Dataset.reads_refused hrange hcolumns fun h => hnot h.1
    cases hread.unique hstop
  have hno : ∀ path ∈ plans.map Partition.path, ∀ error,
      ((host.store maxRangeBytes).shelf files file).list (dataset.prefix' ++ path ++ "/") ≠ .error error := by
    intro path hpath error herror
    obtain ⟨stop, hstop⟩ := Dataset.reads_error hrange hcolumns hplan hbounds.1 hbounds.2 trivial ha hpath herror
    cases hread.unique hstop
  refine ⟨hbounds, fun path hpath => ?_⟩
  have hisPath := Dataset.plan_isPath hplan path hpath
  have hdrive : drivePrefix dataset.prefix' = false := by
    rw [← Bool.not_eq_true]
    intro hdrive
    obtain ⟨error, herror⟩ := hisPath.shelf_list_drive hdrive
    exact hno path hpath error (herror files)
  refine ⟨hdrive, fun key hobject => ?_⟩
  rw [← Bool.not_eq_true]
  intro habove
  have hobject' := (hasObject_scope (Or.inr habove)).mpr hobject
  have hunder := (underObject_iff hisPath hplaced (holdsParts_scope hstored)).mpr ⟨key, hobject', habove⟩
  rcases h.storeList_cases (hisPath.accepted_iff.mpr hdrive) with ⟨-, herror⟩ | ⟨hnot, -⟩
  · refine hno path hpath (.fromNative (.fromIo .storeList .notADirectory)) ?_
    rw [list_scope hisPath h, hisPath.shelf_list hdrive, resource_list, herror]
    rfl
  · exact hnot hunder

/-- The rows of the range come back, each once, exactly when the planned partitions are kept apart. -/
theorem reads_range_iff : (∃ rows, dataset.ReadsAs options source (.ok rows) ∧
      rows.Perm (((parts.flatMap PublishedPart.rows).filter fun row =>
        inRange (row.get dataset.column) from' until').map (Finite.decodeRow dataset.schema))) ↔
    host.Separates files dataset parts from' until' (plans.map Partition.path) := by
  constructor
  · rintro ⟨rows, hread, hrows⟩
    obtain ⟨hbounds, hall⟩ := listings_of_reads hplaced h hstored hrange hcolumns hplan ha hread
    have hany : plans.map Partition.path ≠ [] → drivePrefix dataset.prefix' = false ∧
        ∀ key, host.HasObject files key → hasPrefix dataset.prefix' (key ++ "/") = false := by
      intro hne
      obtain ⟨path, hpath⟩ := List.exists_mem_of_ne_nil _ hne
      exact hall path hpath
    obtain ⟨found, hfound, hperm⟩ := reads_local hschema hplaced hunique h hstored hreads hrange hcolumns hplan ha
      hbounds (fun hne => (hany hne).1) fun hne => (hany hne).2
    cases hread.unique hfound
    have hlength := hrows.length_eq
    rw [List.length_map, List.length_map, hperm.length_eq, List.length_append] at hlength
    have hnone := List.length_eq_zero_iff.mp (Nat.add_eq_left.mp hlength)
    rw [rangeRows_eq_nil_iff, Dataset.selected_range] at hnone
    exact ⟨hbounds, fun hne => (hany hne).1, fun hne => (hany hne).2, hnone⟩
  · rintro ⟨hbounds, hdrive, habove, hsiblings⟩
    obtain ⟨found, hfound, hperm⟩ :=
      reads_local hschema hplaced hunique h hstored hreads hrange hcolumns hplan ha hbounds hdrive habove
    refine ⟨_, hfound, hperm.map _ |>.trans ?_⟩
    have hnone : rangeRows (rangeSettings dataset none from' until') parts (astray host files dataset)
        (plans.map Partition.path) = [] := by
      rw [rangeRows_eq_nil_iff, Dataset.selected_range]
      exact hsiblings
    rw [hnone, List.append_nil]

end

end

/-- A history of writes is read back from a range exactly when the store keeps the planned partitions apart. -/
theorem local_dataset_round_trip_iff {history : List DatasetWrite} (hschema : dataset.schema.names.Nodup)
    (hwrites : ∀ write ∈ history, write.Succeeds dataset)
    (hnames : ∀ write ∈ history, DatasetWriter.NamesParts write.runtime)
    (hunique : ((DatasetWrite.publishedBy dataset history).map PublishedPart.key).Nodup)
    (h : host.ObjectTree (scope host files dataset))
    (hstored : host.HoldsParts files dataset (DatasetWrite.publishedBy dataset history))
    (hreads : ∀ part ∈ DatasetWrite.publishedBy dataset history,
      (file part.key).Returns (internalNames dataset dataset.schema.names none) part.rows)
    {options : Options} {from' until' : Int} (hrange : Ranges options from' until')
    (hcolumns : (options.lookup "columns").getD .nil = .nil) {plans : List Partition}
    (hplan : dataset.partition.planWith (.int from') (.int until')
      [("max_partitions", (options.lookup "max_partitions").getD (.int 10000))] = .ok plans)
    {source : Source} (ha : Answers (rangeSettings dataset none from' until') source
      ((host.store maxRangeBytes).shelf files file) (plans.map Partition.path)) :
    ∃ encoded, history.mapM (DatasetWrite.encodedRows dataset) = .ok encoded ∧
      ((∃ rows, dataset.ReadsAs options source (.ok rows) ∧
          rows.Perm ((encoded.flatten.filter fun row => inRange (row.get dataset.column) from' until').map
            (Finite.decodeRow dataset.schema))) ↔
        host.Separates files dataset (DatasetWrite.publishedBy dataset history) from' until'
          (plans.map Partition.path)) := by
  obtain ⟨encoded, hencoded, hperm, hplaced⟩ := Dataset.parts_of_history hwrites hnames
  refine ⟨encoded, hencoded, ?_⟩
  rw [← reads_range_iff hschema hplaced hunique h hstored hreads hrange hcolumns hplan ha]
  have hsame := (hperm.filter fun row => inRange (row.get dataset.column) from' until').map
    (Finite.decodeRow dataset.schema)
  exact exists_congr fun rows => and_congr_right fun _ =>
    ⟨fun hrows => hrows.trans hsame.symm, fun hrows => hrows.trans hsame⟩

end LocalHost

/-! ## The tenth hour -/

namespace FileSystem

/-- One file and the directories above it. -/
def single (p : Path) (content : Bytes) : FileSystem where
  entries :=
    { entries := (List.range p.length).map fun n =>
        ⟨p.take (n + 1), if n + 1 = p.length then .file content else .directory⟩
      nodupKeys := by
        unfold List.NodupKeys List.keys
        rw [List.map_map]
        refine List.nodup_range.map_on fun n hn m hm heq => ?_
        have hlength := congrArg List.length heq
        simp only [Function.comp_apply, List.length_take, List.mem_range] at hlength hn hm
        omega }

variable {p q : Path} {content : Bytes} {entry : Entry}

theorem get_single (hq : q ≠ []) :
    (single p content).get q = some entry ↔ q <+: p ∧ entry = if q = p then .file content else .directory := by
  rw [get_eq_some_of_ne hq]
  unfold single
  simp only [List.mem_map, List.mem_range, Sigma.mk.injEq, heq_eq_eq]
  constructor
  · rintro ⟨n, hn, rfl, rfl⟩
    refine ⟨List.take_prefix _ _, if_congr ?_ rfl rfl⟩
    rw [List.take_eq_self_iff]
    omega
  · rintro ⟨hstarts, rfl⟩
    have hlength := hstarts.length_le
    have hpos := List.length_pos_of_ne_nil hq
    have htake := List.prefix_iff_eq_take.mp hstarts
    refine ⟨q.length - 1, by omega, by rw [Nat.sub_add_cancel hpos, ← htake], if_congr ?_ rfl rfl⟩
    rw [Nat.sub_add_cancel hpos]
    exact ⟨fun heq => hstarts.eq_of_length heq, fun heq => congrArg List.length heq⟩

end FileSystem

namespace LocalHost

/-- The part of the tenth hour and its directories. -/
def tenthFiles : FileSystem := FileSystem.single (keyPath tenthKey) [1]

theorem plan_tenth : (clockDataset .second).partition.planWith (.int 36000) (.int 39600)
    [("max_partitions", .int 10000)] = .ok [clockHour 10] := by decide +kernel

theorem tenthHour_isPath : (clockDataset .second).IsPath (clockHour 10).path :=
  Dataset.plan_isPath plan_tenth _ List.mem_cons_self

theorem tenthKey_accepted : AcceptedKey tenthKey := by
  have hname : AcceptedKey "part-0-0-a.parquet" := by decide
  have hdrive : drivePrefix (clockDataset .second).prefix' = false := by decide
  have hkey := tenthHour_isPath.relative.join hname.relative
  refine acceptedKey_iff_relative.mpr ⟨hkey, ?_⟩
  rw [← hdrive, ← Dataset.drivePrefix_append _ ((clockHour 10).path ++ "/" ++ "part-0-0-a.parquet")]
  simp only [String.append_assoc]
  rfl

theorem tenthFiles_tree : hourHost.ObjectTree (scope hourHost tenthFiles (clockDataset .second)) := by
  have hget : ∀ {q entry}, q ≠ [] → (scope hourHost tenthFiles (clockDataset .second)).get q = some entry →
      (q <+: keyPath tenthKey ∧ entry = if q = keyPath tenthKey then .file [1] else .directory) ∧
        FileSystem.InLine (hourHost.location (clockDataset .second).prefix') q := fun hq hg => by
    rw [scope, FileSystem.get_within_of_ne hq, tenthFiles, FileSystem.get_single hq] at hg
    exact hg
  refine ⟨⟨FileSystem.walked_nil, fun q absolute target hg => ?_, fun q name entry hg => ?_⟩, fun q content hg => ?_⟩
  · change (scope hourHost tenthFiles (clockDataset .second)).get q = _ at hg
    have hentry := (hget (FileSystem.ne_nil_of_get (by rw [hg]; simp)) hg).1.2
    split at hentry <;> cases hentry
  · change (scope hourHost tenthFiles (clockDataset .second)).get (q ++ [name]) = _ at hg
    change (scope hourHost tenthFiles (clockDataset .second)).get q = _
    obtain ⟨⟨hstarts, -⟩, hline⟩ := hget (by simp) hg
    have habove : q <+: q ++ [name] := List.prefix_append _ _
    by_cases hq : q = []
    · rw [hq]
      rfl
    · have hne : q ≠ keyPath tenthKey := by
        intro heq
        have hlength := hstarts.length_le
        simp [heq] at hlength
      rw [scope, FileSystem.get_within_of_ne hq, tenthFiles, FileSystem.get_single hq, if_neg hne]
      exact ⟨⟨habove.trans hstarts, rfl⟩, hline.of_prefix habove⟩
  · change (scope hourHost tenthFiles (clockDataset .second)).get q = _ at hg
    have hentry := (hget (FileSystem.ne_nil_of_get (by rw [hg]; simp)) hg).1.2
    split at hentry
    · next hq => exact ⟨tenthKey, tenthKey_accepted, hq⟩
    · cases hentry

theorem tenthFiles_object (key : String) : hourHost.HasObject tenthFiles key ↔ key = tenthKey := by
  unfold HasObject tenthFiles
  constructor
  · rintro ⟨hk, content, hget⟩
    have hentry := ((FileSystem.get_single (FileSystem.ne_nil_of_get (by rw [hget]; simp))).mp hget).2
    split at hentry
    · next hpath => exact hk.keyPath_inj tenthKey_accepted hpath
    · cases hentry
  · rintro rfl
    refine ⟨tenthKey_accepted, [1], (FileSystem.get_single tenthKey_accepted.keyPath_ne_nil).mpr ?_⟩
    exact ⟨List.prefix_refl _, (if_pos rfl).symm⟩

theorem tenthFiles_holdsParts : hourHost.HoldsParts tenthFiles (clockDataset .second)
    (DatasetWrite.publishedBy (clockDataset .second) [tenthWrite]) := by
  obtain ⟨part, hparts, hkey, -⟩ := tenthWrite_published
  intro key _
  rw [hparts, tenthFiles_object, ← hkey, eq_comm]
  simp only [List.mem_singleton, exists_eq_left]

def tenthShelf : Shelf := (hourHost.store 8388608).shelf tenthFiles tenthFile

def tenthSource (from' until' : Int) (plans : List Partition) : Source :=
  tenthShelf.source (rangeSettings (clockDataset .second) none from' until') (plans.map Partition.path)

theorem local_dataset_round_trip_iff_tenth : ∃ encoded,
    [tenthWrite].mapM (DatasetWrite.encodedRows (clockDataset .second)) = .ok encoded ∧
      ((∃ rows, (clockDataset .second).ReadsAs (clockRange 36000 39600) (tenthSource 36000 39600 [clockHour 10])
            (.ok rows) ∧
          rows.Perm ((encoded.flatten.filter fun row => inRange (row.get (clockDataset .second).column) 36000 39600).map
            (Finite.decodeRow (clockDataset .second).schema))) ↔
        hourHost.Separates tenthFiles (clockDataset .second)
          (DatasetWrite.publishedBy (clockDataset .second) [tenthWrite]) 36000 39600 [(clockHour 10).path]) :=
  local_dataset_round_trip_iff (by decide) tenthWrite_succeeds tenthWrite_named tenthWrite_unique tenthFiles_tree
    tenthFiles_holdsParts tenthFile_returns (ranges_clockRange _ _) rfl plan_tenth (answers_source _ _ _)

theorem tenthFiles_missing {path : String} (hpath : (clockDataset .second).IsPath path) :
    tenthFiles.get (hourHost.location ((clockDataset .second).prefix' ++ path)) = none ↔
      path ≠ (clockHour 10).path := by
  have hk : AcceptedKey ((clockDataset .second).prefix' ++ path) := hpath.accepted_iff.mpr (by decide)
  have hbeneath : splitSlash ((clockDataset .second).prefix' ++ path) <+: splitSlash tenthKey ↔
      path = (clockHour 10).path := by
    constructor
    · rintro ⟨rest, hrest⟩
      have hne : rest ≠ [] := by
        rintro rfl
        have hlt := tenthHour_isPath.length_lt hpath "part-0-0-a.parquet"
        rw [List.append_nil] at hrest
        exact absurd hlt (by rw [hrest]; exact lt_irrefl _)
      exact ((tenthHour_isPath.hasPrefix_iff hpath _).mp (hasPrefix_slash_iff.mpr ⟨rest, hne, hrest.symm⟩)).symm
    · rintro rfl
      exact ⟨_, (splitSlash_append _ _).symm⟩
  have hget := fun entry => @FileSystem.get_single (keyPath tenthKey)
    (hourHost.location ((clockDataset .second).prefix' ++ path)) [1] entry hk.keyPath_ne_nil
  rw [Option.eq_none_iff_forall_ne_some, ne_eq, ← hbeneath, ← hk.keyPath_eq, ← tenthKey_accepted.keyPath_eq]
  constructor
  · exact fun hnone hstarts => hnone _ ((hget _).mpr ⟨hstarts, rfl⟩)
  · exact fun hnot entry hentry => hnot ((hget entry).mp hentry).1

/-- The key of the tenth hour begins with the path of the first. -/
theorem tenth_astray {part : PublishedPart} (hkey : part.key = tenthKey) :
    ∀ hour ∈ List.range' 1 10, astray hourHost tenthFiles (clockDataset .second) (clockHour hour).path part =
      decide (hour = 1) := by
  have hstarts : ∀ hour ∈ List.range' 1 10, hasPrefix (toString 10 ++ ("/" ++ "part-0-0-a.parquet")) (toString hour) =
      decide (hour = 1 ∨ hour = 10) := by decide
  have hother : (clockHour 1).path ≠ (clockHour 10).path := by decide
  intro hour hhour
  have hpath : (clockDataset .second).IsPath (clockHour hour).path :=
    Dataset.plan_isPath plan_morning _ (List.mem_map_of_mem (List.mem_map_of_mem hhour))
  have htext : hasPrefix tenthKey ((clockDataset .second).prefix' ++ (clockHour hour).path) =
      decide (hour = 1 ∨ hour = 10) := by
    rw [← hstarts hour hhour]
    change hasPrefix ("events/" ++ ("year=1970/month=1/day=1/hour=" ++ toString 10) ++ "/" ++ "part-0-0-a.parquet")
      ("events/" ++ ("year=1970/month=1/day=1/hour=" ++ toString hour)) = _
    simp only [String.append_assoc]
    rw [hasPrefix_append_left, hasPrefix_append_left]
  unfold astray
  rw [hkey, htext, Bool.eq_iff_iff, Bool.and_eq_true, Option.isNone_iff_eq_none, tenthFiles_missing hpath,
    decide_eq_true_eq, decide_eq_true_eq]
  constructor
  · rintro ⟨hne, hfirst | htenth⟩
    · exact hfirst
    · exact absurd (congrArg (fun hour => (clockHour hour).path) htenth) hne
  · rintro rfl
    exact ⟨hother, Or.inl rfl⟩

/-- One row is written at ten o'clock. From one to eleven it comes back twice: the listing of the first hour, which
has no directory, returns the files of the tenth. -/
theorem tenth_hour_read_twice :
    (∀ write ∈ [tenthWrite], write.Succeeds (clockDataset .second)) ∧
      [tenthWrite].mapM (DatasetWrite.encodedRows (clockDataset .second)) = .ok [[tenthRow]] ∧
      hourHost.ObjectTree (scope hourHost tenthFiles (clockDataset .second)) ∧
      hourHost.HoldsParts tenthFiles (clockDataset .second)
        (DatasetWrite.publishedBy (clockDataset .second) [tenthWrite]) ∧
      (∀ part ∈ DatasetWrite.publishedBy (clockDataset .second) [tenthWrite], (tenthFile part.key).Returns
        (internalNames (clockDataset .second) (clockDataset .second).schema.names none) part.rows) ∧
      (clockDataset .second).partition.planWith (.int 3600) (.int 39600) [("max_partitions", .int 10000)] =
        .ok ((List.range' 1 10).map clockHour) ∧
      Answers (rangeSettings (clockDataset .second) none 3600 39600)
        (tenthSource 3600 39600 ((List.range' 1 10).map clockHour)) tenthShelf
        (((List.range' 1 10).map clockHour).map Partition.path) ∧
      (clockDataset .second).ReadsAs (clockRange 3600 39600) (tenthSource 3600 39600 ((List.range' 1 10).map clockHour))
        (.ok [tenthRow, tenthRow]) := by
  refine ⟨tenthWrite_succeeds, tenthWrite_encoded, tenthFiles_tree, tenthFiles_holdsParts, tenthFile_returns,
    plan_morning, answers_source _ _ _, ?_⟩
  obtain ⟨encoded, hencoded, -, hplaced⟩ := Dataset.parts_of_history tenthWrite_succeeds tenthWrite_named
  have habove : ∀ key, hourHost.HasObject tenthFiles key →
      hasPrefix (clockDataset .second).prefix' (key ++ "/") = false := by
    intro key hobject
    rw [(tenthFiles_object key).mp hobject, ← Bool.not_eq_true]
    intro habove
    have hlength := (hasPrefix_iff.mp habove).length_le
    simp [tenthKey, tenthPart, DatasetWriter.clockPart, clockDataset] at hlength
    omega
  obtain ⟨rows, hread, hrows⟩ := reads_local (by decide) hplaced tenthWrite_unique tenthFiles_tree tenthFiles_holdsParts
    tenthFile_returns (ranges_clockRange 3600 39600) rfl plan_morning (answers_source _ _ _) (by decide)
    (fun _ => by decide) fun _ => habove
  obtain ⟨part, hparts, hkey, hrow⟩ := tenthWrite_published
  have hastray : (((List.range' 1 10).map clockHour).map Partition.path).filter (fun path =>
      astray hourHost tenthFiles (clockDataset .second) path part) = [(clockHour 1).path] := by
    rw [List.filter_map, List.filter_map]
    simp only [Function.comp_def, List.filter_congr (tenth_astray hkey)]
    rfl
  rw [hparts, rangeRows_singleton, hastray, List.flatMap_singleton, hrow, List.flatMap_singleton] at hrows
  have hrows : rows = [tenthRow, tenthRow] := List.perm_replicate (n := 2) |>.mp hrows
  have hdecode : [tenthRow, tenthRow].map (Finite.decodeRow (clockDataset .second).schema) = [tenthRow, tenthRow] := rfl
  rw [hrows, hdecode] at hread
  exact hread

end LocalHost

end Parquex
