import Parquex.DatasetPlaces
import Parquex.HalfOpen

/-!
# Reading a range of a dataset

A listing that returns the keys of some parts makes the stream read these parts in
the order of their keys. The settings of a stream without a condition are its range
and the columns that it asks for.
-/

namespace Parquex

/-! ## Parts in the order of their keys -/

namespace PublishedPart

def KeyLe (left right : PublishedPart) : Prop := left.key ≤ right.key

instance : DecidableRel KeyLe := fun left right => inferInstanceAs (Decidable (left.key ≤ right.key))

instance : Std.Total KeyLe := ⟨fun _ _ => le_total _ _⟩

instance : IsTrans PublishedPart KeyLe := ⟨fun _ _ _ => le_trans⟩

end PublishedPart

def byKey (parts : List PublishedPart) : List PublishedPart := parts.insertionSort PublishedPart.KeyLe

section
variable {parts : List PublishedPart}

theorem mem_byKey {part : PublishedPart} : part ∈ byKey parts ↔ part ∈ parts := List.mem_insertionSort _

/-- The rows of the part with a key. -/
def rowsAt (parts : List PublishedPart) (key : String) : List Row :=
  ((parts.find? fun part => part.key = key).map PublishedPart.rows).getD []

theorem rowsAt_key (hnodup : (parts.map PublishedPart.key).Nodup) {part : PublishedPart} (hpart : part ∈ parts) :
    rowsAt parts part.key = part.rows := by
  have hfound : parts.find? (fun other => other.key = part.key) = some part := by
    induction parts with
    | nil => cases hpart
    | cons first parts ih =>
      rw [List.map_cons, List.nodup_cons] at hnodup
      by_cases hkey : first.key = part.key
      · rw [List.find?_cons_of_pos (by simpa using hkey)]
        rcases List.mem_cons.mp hpart with rfl | hmem
        · rfl
        · exact absurd (hkey ▸ List.mem_map_of_mem hmem) hnodup.1
      · rw [List.find?_cons_of_neg (by simpa using hkey)]
        rcases List.mem_cons.mp hpart with rfl | hmem
        · exact absurd rfl hkey
        · exact ih hnodup.2 hmem
  unfold rowsAt
  rw [hfound]
  rfl

namespace DatasetStream

/-- A listing of the keys of some parts is read in the order of the keys. -/
theorem parquetFiles_eq {keys : List String} (hkeys : keys.Nodup) (hnodup : (parts.map PublishedPart.key).Nodup)
    (hmem : ∀ key, key ∈ keys ↔ ∃ part ∈ parts, part.key = key)
    (hsuffix : ∀ part ∈ parts, hasSuffix part.key ".parquet" = true) :
    parquetFiles keys = (byKey parts).map PublishedPart.key := by
  have hall : keys.filter (fun key => hasSuffix key ".parquet") = keys := by
    rw [List.filter_eq_self]
    intro key hkey
    obtain ⟨part, hpart, rfl⟩ := (hmem key).mp hkey
    exact hsuffix part hpart
  have hperm : (keys.insertionSort (· ≤ ·)).Perm ((byKey parts).map PublishedPart.key) := by
    have hsame : keys.Perm (parts.map PublishedPart.key) := by
      rw [List.perm_ext_iff_of_nodup hkeys hnodup]
      intro key
      rw [hmem, List.mem_map]
    exact ((List.perm_insertionSort _ _).trans hsame).trans ((List.perm_insertionSort _ _).symm.map _)
  have hsorted : ((byKey parts).map PublishedPart.key).Pairwise (· ≤ ·) :=
    List.pairwise_map.mpr (List.pairwise_insertionSort PublishedPart.KeyLe parts)
  unfold parquetFiles
  rw [hall]
  exact hperm.eq_of_pairwise (fun _ _ _ _ => le_antisymm) (List.pairwise_insertionSort _ _) hsorted

/-! ## The rows of the listed parts -/

section
variable {settings : Settings} {names : List String} {shelf : Shelf} {plans : List String}
  {listed : String → PublishedPart → Bool}

/-- The rows that a stream returns of the parts that it lists for each partition. -/
def rangeRows (settings : Settings) (parts : List PublishedPart) (listed : String → PublishedPart → Bool)
    (plans : List String) : List Row :=
  plans.flatMap fun path => (byKey (parts.filter (listed path))).flatMap fun part => part.rows.filter (selected settings)

theorem rangeRows_eq_nil_iff : rangeRows settings parts listed plans = [] ↔ ∀ path ∈ plans, ∀ part ∈ parts,
    listed path part = true → ∀ row ∈ part.rows, selected settings row = false := by
  unfold rangeRows
  simp only [List.flatMap_eq_nil_iff, mem_byKey, List.mem_filter, and_imp, List.filter_eq_nil_iff, Bool.not_eq_true]

theorem rangeRows_singleton {part : PublishedPart} : rangeRows settings [part] listed plans =
      (plans.filter fun path => listed path part).flatMap fun _ => part.rows.filter (selected settings) := by
  unfold rangeRows
  induction plans with
  | nil => rfl
  | cons path plans ih =>
    rw [List.flatMap_cons, ih, List.filter_cons]
    cases hlisted : listed path part <;> simp [hlisted, byKey]

/-- Two kinds of parts are listed, none of both kinds. -/
theorem rangeRows_or {first second : String → PublishedPart → Bool}
    (h : ∀ path ∈ plans, ∀ part ∈ parts, first path part = true → second path part = false) :
    (rangeRows settings parts (fun path part => first path part || second path part) plans).Perm
      (rangeRows settings parts first plans ++ rangeRows settings parts second plans) := by
  have hbyKey : ∀ found : List PublishedPart,
      ((byKey found).flatMap fun part => part.rows.filter (selected settings)).Perm
        (found.flatMap fun part => part.rows.filter (selected settings)) := fun found =>
    (List.perm_insertionSort _ _).flatMap_right _
  unfold rangeRows
  refine List.Perm.trans (List.Perm.flatMap_left plans fun path hpath => ?_) (List.flatMap_append_perm plans _ _).symm
  refine (hbyKey _).trans (List.Perm.trans ?_ ((hbyKey _).append (hbyKey _)).symm)
  rw [← List.flatMap_append]
  refine List.Perm.flatMap_right _ ?_
  have hsplit :=
    (List.filter_append_perm (first path) (parts.filter fun part => first path part || second path part)).symm
  rw [List.filter_filter, List.filter_filter] at hsplit
  refine hsplit.trans (List.Perm.of_eq (congrArg₂ _ ?_ ?_))
  · refine List.filter_congr fun part _ => ?_
    cases first path part <;> simp
  · refine List.filter_congr fun part hpart => ?_
    cases hfirst : first path part with
    | false => simp
    | true => simp [h path hpath part hpart hfirst]

/-- A store lists the keys of some of the parts. -/
def ListsParts (listed : PublishedPart → Bool) (parts : List PublishedPart) (found : Except Error (List String)) :
    Prop :=
  ∃ keys, found = .ok keys ∧ keys.Nodup ∧ ∀ key, key ∈ keys ↔ ∃ part ∈ parts, listed part = true ∧ part.key = key

theorem traverse_parts (hcovers : Covers settings names) (hschema : settings.outputSchema.names.Nodup)
    (hne : settings.outputSchema.names ≠ []) (hnodup : (parts.map PublishedPart.key).Nodup)
    (hsuffix : ∀ part ∈ parts, hasSuffix part.key ".parquet" = true)
    (hreads : ∀ part ∈ parts, (shelf.file part.key).Returns names part.rows)
    (hlist : ∀ path ∈ plans, ListsParts (listed path) parts (shelf.list (partitionPrefix settings path))) :
    ∃ batches, traverse settings shelf plans = .ok batches ∧ Finite.decodeRows batches =
      (rangeRows settings parts listed plans).map (Finite.decodeRow settings.outputSchema) := by
  unfold ListsParts at hlist
  choose! keys hfound hdistinct hmem using hlist
  have hfiles : ∀ path ∈ plans, parquetFiles (keys path) =
      (byKey (parts.filter (listed path))).map PublishedPart.key := by
    intro path hpath
    refine parquetFiles_eq (hdistinct path hpath) ?_ (fun key => ?_) fun part hpart => ?_
    · exact (List.filter_sublist.map PublishedPart.key).nodup hnodup
    · rw [hmem path hpath]
      simp only [List.mem_filter, and_assoc]
    · exact hsuffix part (List.mem_filter.mp hpart).1
  have hpart : ∀ path, ∀ part ∈ byKey (parts.filter (listed path)), part ∈ parts := fun path part hmem =>
    (List.mem_filter.mp (mem_byKey.mp hmem)).1
  obtain ⟨batches, htraverse, hrows⟩ := traverse_returns hcovers hschema hne hfound fun path hpath key hkey => by
      rw [hfiles path hpath] at hkey
      obtain ⟨part, hmem, rfl⟩ := List.mem_map.mp hkey
      have hrows : rowsAt parts part.key = part.rows := rowsAt_key hnodup (hpart path part hmem)
      exact hrows ▸ hreads part (hpart path part hmem)
  refine ⟨batches, htraverse, ?_⟩
  rw [hrows]
  unfold rangeRows
  refine congrArg _ (List.flatMap_congr fun path hpath => ?_)
  rw [hfiles path hpath, List.flatMap_map]
  exact List.flatMap_congr fun part hmem => by rw [rowsAt_key hnodup (hpart path part hmem)]

end

end DatasetStream

end

/-! ## The options of a range -/

namespace DatasetStream

/-- The options of a stream over a range of integers, without a condition. -/
structure Ranges (options : Options) (from' until' : Int) : Prop where
  valid : validateOptions options = .ok ()
  lower : options.lookup "from" = some (.int from')
  upper : options.lookup "until" = some (.int until')
  unconditional : (options.lookup "where").getD .nil = .nil

/-- The options ask for some columns, each once, or for all. -/
def Requests (options : Options) : Option (List String) → Prop
  | none => (options.lookup "columns").getD .nil = .nil
  | some names => names.Nodup ∧ ∃ columns, options.lookup "columns" = some (.list columns) ∧
      columns.map Input.normalizeName = names.map fun name => some (.text name)

/-- The requested columns are some of a schema. -/
def Offers (schema : Schema) : Option (List String) → Prop
  | none => True
  | some names => names ≠ [] ∧ ∀ name ∈ names, name ∈ schema.names

/-- The fields of the requested columns, all without a request. -/
def requestedSchema (schema : Schema) : Option (List String) → Schema
  | none => schema
  | some names => { fields := schema.fields.filter fun field => names.contains field.name }

/-- A bound that a date and time can be of. -/
def Held (dataset : Dataset) (bound : Int) : Prop := (DateTime.fromUnix bound dataset.unit).isSome = true

instance (dataset : Dataset) (bound : Int) : Decidable (Held dataset bound) :=
  inferInstanceAs (Decidable (_ = true))

/-- The settings of a stream over a range. -/
def rangeSettings (dataset : Dataset) (columns : Option (List String)) (from' until' : Int) : Settings where
  dataset
  outputSchema := requestedSchema dataset.schema columns
  from'
  until'
  predicate := none

section
variable {dataset : Dataset} {options : Options} {columns : Option (List String)} {from' until' : Int}
  {plans : List Partition}

theorem textName_injective : Function.Injective fun name : String => some (Binary.text name) := fun a b hab => by
  cases hab
  rfl

/-- The columns that are asked for are projected on exactly when they are offered. -/
theorem projection_requested (h : Requests options columns) (h' : Offers dataset.schema columns) :
    projection dataset.schema ((options.lookup "columns").getD .nil) = .ok (requestedSchema dataset.schema columns) := by
  cases columns with
  | none =>
    rw [show (options.lookup "columns").getD .nil = .nil from h]
    rfl
  | some names =>
    obtain ⟨hnodup, columns, hlookup, hnames⟩ := h
    obtain ⟨hne, hmem⟩ := h'
    rw [hlookup, Option.getD_some]
    cases columns with
    | nil => exact absurd (List.map_eq_nil_iff.mp hnames.symm) hne
    | cons column columns =>
      unfold projection
      simp only [hnames]
      rw [if_pos]
      · simp only [requestedSchema]
        congr 2
        refine List.filter_congr fun field _ => ?_
        rw [Bool.eq_iff_iff, List.contains_iff_mem, List.contains_iff_mem]
        exact List.mem_map_of_injective textName_injective
      · refine ⟨fun name hname => ?_, hnodup.map textName_injective⟩
        obtain ⟨text, htext, rfl⟩ := List.mem_map.mp hname
        exact List.mem_map_of_mem (hmem text htext)

theorem offers_of_projection (h : Requests options columns) {schema projected : Schema}
    (hp : projection schema ((options.lookup "columns").getD .nil) = .ok projected) : Offers schema columns := by
  cases columns with
  | none => trivial
  | some names =>
    obtain ⟨-, columns, hlookup, hnames⟩ := h
    rw [hlookup, Option.getD_some] at hp
    cases columns with
    | nil => cases hp
    | cons column columns =>
      unfold projection at hp
      simp only [hnames] at hp
      split at hp
      · next hall =>
        refine ⟨?_, fun name hname => ?_⟩
        · rintro rfl
          cases hnames
        · exact (List.mem_map_of_injective textName_injective).mp (hall.1 _ (List.mem_map_of_mem hname))
      · cases hp

theorem requested_nodup (hschema : dataset.schema.names.Nodup) :
    (requestedSchema dataset.schema columns).names.Nodup := by
  cases columns with
  | none => exact hschema
  | some names => exact (List.filter_sublist.map SchemaField.name).nodup hschema

theorem mem_requested {name : String} (h : name ∈ (requestedSchema dataset.schema columns).names) :
    name ∈ dataset.schema.names := by
  cases columns with
  | none => exact h
  | some names => exact (List.filter_sublist.map SchemaField.name).subset h

theorem requested_ne_nil (h : Offers dataset.schema columns) :
    (requestedSchema dataset.schema columns).names ≠ [] := by
  cases columns with
  | none => exact dataset.names_ne_nil
  | some names =>
    obtain ⟨hne, hmem⟩ := h
    obtain ⟨name, hname⟩ := List.exists_mem_of_ne_nil names hne
    obtain ⟨field, hfield, rfl⟩ := List.mem_map.mp (hmem name hname)
    refine List.ne_nil_of_mem (List.mem_map_of_mem (a := field) ?_)
    exact List.mem_filter.mpr ⟨hfield, by simpa using hname⟩

theorem covers_range : Covers (rangeSettings dataset columns from' until')
    (internalNames dataset (requestedSchema dataset.schema columns).names none) := by
  have hmem : ∀ {name}, name ∈ dataset.schema.names →
      name ∈ dataset.column :: (requestedSchema dataset.schema columns).names →
      name ∈ internalNames dataset (requestedSchema dataset.schema columns).names none := by
    intro name hname hrequired
    unfold internalNames
    exact List.mem_filter.mpr ⟨hname, by simpa using hrequired⟩
  refine ⟨hmem dataset.column_mem List.mem_cons_self, fun name hname => ?_, fun predicate hpredicate => ?_⟩
  · exact hmem (mem_requested hname) (List.mem_cons_of_mem _ hname)
  · cases hpredicate

theorem normalizeTimestamp_int {bound : Int} (h : Held dataset bound) :
    ∃ datetime, dataset.partition.normalizeTimestamp (.int bound) = .ok (bound, datetime) := by
  obtain ⟨datetime, hunix⟩ := Option.isSome_iff_exists.mp h
  refine ⟨datetime, ?_⟩
  unfold TimePartition.normalizeTimestamp encodeTimestamp encodedDatetime
  have hunit : DateTime.fromUnix bound dataset.partition.timestampUnit = some datetime := hunix
  simp only [bind, Except.bind, hunit]
  rfl

theorem held_of_normalizeTimestamp {bound : Int} {encoded : Int × DateTime}
    (h : dataset.partition.normalizeTimestamp (.int bound) = .ok encoded) : Held dataset bound := by
  obtain ⟨value, hvalue, h⟩ := except_bind_eq_ok.mp h
  obtain ⟨datetime, hdatetime, -⟩ := except_map_eq_ok.mp h
  cases hvalue
  unfold encodedDatetime at hdatetime
  split at hdatetime
  · next hunix => exact Option.isSome_iff_exists.mpr ⟨_, hunix⟩
  · cases hdatetime

theorem openWith_range (hrange : Ranges options from' until') (hcolumns : Requests options columns)
    (hplan : dataset.partition.planWith (.int from') (.int until')
      [("max_partitions", (options.lookup "max_partitions").getD (.int 10000))] = .ok plans)
    (hfrom : Held dataset from') (huntil : Held dataset until') (hoffers : Offers dataset.schema columns) :
    openWith dataset options = .ok (rangeSettings dataset columns from' until', plans) := by
  obtain ⟨lower, hlower⟩ := normalizeTimestamp_int hfrom
  obtain ⟨upper, hupper⟩ := normalizeTimestamp_int huntil
  exact openWith_eq_ok.mpr ⟨hrange.valid, .int from', .int until', (from', lower), (until', upper),
    requestedSchema dataset.schema columns, none, required_eq_ok.mpr hrange.lower, required_eq_ok.mpr hrange.upper,
    hlower, hupper, hplan, projection_requested hcolumns hoffers, by rw [hrange.unconditional]; rfl, rfl⟩

/-- A bound that no date and time can be of is refused, and so are columns that the schema has not. -/
theorem openWith_refused (hrange : Ranges options from' until') (hcolumns : Requests options columns)
    (h : ¬ ((Held dataset from' ∧ Held dataset until') ∧ Offers dataset.schema columns)) :
    ∃ stop, openWith dataset options = .error stop := by
  cases hopen : openWith dataset options with
  | error stop => exact ⟨stop, rfl⟩
  | ok opened =>
    obtain ⟨-, lower, upper, encoded, encoded', projected, -, hlower, hupper, hl, hu, -, hprojection, -⟩ :=
      openWith_eq_ok.mp hopen
    rw [required_eq_ok, hrange.lower] at hlower
    rw [required_eq_ok, hrange.upper] at hupper
    cases hlower
    cases hupper
    exact absurd ⟨⟨held_of_normalizeTimestamp hl, held_of_normalizeTimestamp hu⟩,
      offers_of_projection hcolumns hprojection⟩ h

end

end DatasetStream

/-! ## What a read returns -/

namespace Dataset

open DatasetStream

/-- A read comes to a result. -/
def ReadsAs (dataset : Dataset) (options : Options) (source : Source) (result : Except (Stop Error) (List Row)) :
    Prop :=
  ∃ enough, ∀ fuel, enough ≤ fuel → dataset.read options source fuel = some result

/-- The key lies beneath the path of a partition. -/
def beneath (dataset : Dataset) (path : String) (part : PublishedPart) : Bool :=
  hasPrefix part.key (dataset.prefix' ++ path ++ "/")

section
variable {dataset : Dataset} {options : Options} {columns : Option (List String)} {from' until' : Int}
  {plans : List Partition} {source : Source} {shelf : Shelf} {parts : List PublishedPart}
  {listed : String → PublishedPart → Bool}

theorem ReadsAs.unique {result other : Except (Stop Error) (List Row)} (h : dataset.ReadsAs options source result)
    (h' : dataset.ReadsAs options source other) : result = other := by
  obtain ⟨enough, h⟩ := h
  obtain ⟨enough', h'⟩ := h'
  have hsame := (h (max enough enough') (le_max_left _ _)).symm.trans (h' _ (le_max_right _ _))
  exact Option.some.inj hsame

theorem reads_refused (hrange : Ranges options from' until') (hcolumns : Requests options columns)
    (h : ¬ ((Held dataset from' ∧ Held dataset until') ∧ Offers dataset.schema columns)) :
    ∃ stop, dataset.ReadsAs options source (.error stop) := by
  obtain ⟨stop, hopen⟩ := openWith_refused hrange hcolumns h
  refine ⟨stop, 0, fun fuel _ => ?_⟩
  unfold Dataset.read
  rw [hopen]

section
variable (hrange : Ranges options from' until') (hcolumns : Requests options columns)
  (hplan : dataset.partition.planWith (.int from') (.int until')
    [("max_partitions", (options.lookup "max_partitions").getD (.int 10000))] = .ok plans)
  (hfrom : Held dataset from') (huntil : Held dataset until') (hoffers : Offers dataset.schema columns)
  (ha : Answers (rangeSettings dataset columns from' until') source shelf (plans.map Partition.path))
include hrange hcolumns hplan hfrom huntil hoffers ha

theorem reads_error {path : String} (hpath : path ∈ plans.map Partition.path) {error : Error}
    (hlist : shelf.list (dataset.prefix' ++ path ++ "/") = .error error) :
    ∃ stop, dataset.ReadsAs options source (.error stop) := by
  obtain ⟨enough, hread⟩ := read_eq_traverse (openWith_range hrange hcolumns hplan hfrom huntil hoffers) ha
  obtain ⟨error, htraverse⟩ :=
    @traverse_error (rangeSettings dataset columns from' until') shelf _ path error hpath hlist
  exact ⟨.error error, enough, fun fuel hfuel => by rw [hread fuel hfuel, htraverse]; rfl⟩

theorem reads_parts (hschema : dataset.schema.names.Nodup) (hnodup : (parts.map PublishedPart.key).Nodup)
    (hplaced : ∀ part ∈ parts, dataset.Placed part)
    (hreads : ∀ part ∈ parts, (shelf.file part.key).Returns
      (internalNames dataset (requestedSchema dataset.schema columns).names none) part.rows)
    (hlist : ∀ path ∈ plans.map Partition.path,
      ListsParts (listed path) parts (shelf.list (dataset.prefix' ++ path ++ "/"))) :
    dataset.ReadsAs options source (.ok ((rangeRows (rangeSettings dataset columns from' until') parts listed
      (plans.map Partition.path)).map (Finite.decodeRow (requestedSchema dataset.schema columns)))) := by
  obtain ⟨enough, hread⟩ := read_eq_traverse (openWith_range hrange hcolumns hplan hfrom huntil hoffers) ha
  obtain ⟨batches, htraverse, hrows⟩ := traverse_parts covers_range (requested_nodup hschema)
    (requested_ne_nil hoffers) hnodup (fun part hpart => (hplaced part hpart).suffix) hreads hlist
  refine ⟨enough, fun fuel hfuel => ?_⟩
  rw [hread fuel hfuel, htraverse]
  show some (Except.ok (Finite.decodeRows batches)) = _
  rw [hrows]
  rfl

end

theorem selected_range : selected (rangeSettings dataset columns from' until') = fun row =>
    inRange (row.get dataset.column) from' until' := funext fun _ => Bool.and_true _

/-- The parts beneath the planned partitions hold the rows of the range, each once. -/
theorem rangeRows_beneath (hplaced : ∀ part ∈ parts, dataset.Placed part)
    {limits : List (String × Term)} (hplan : dataset.partition.planWith (.int from') (.int until') limits = .ok plans) :
    (rangeRows (rangeSettings dataset columns from' until') parts dataset.beneath (plans.map Partition.path)).Perm
      ((parts.flatMap PublishedPart.rows).filter fun row => inRange (row.get dataset.column) from' until') := by
  have hgroups := perm_flatMap_groups
    (fun part : PublishedPart => part.rows.filter fun row => inRange (row.get dataset.column) from' until')
    dataset.partPath (plan_nodup hplan) fun part (hpart : part ∈ parts) hne => by
      obtain ⟨row, hrow⟩ := List.exists_mem_of_ne_nil _ hne
      rw [List.mem_filter] at hrow
      exact mem_plan hplan ((hplaced part hpart).rows row hrow.1) hrow.2
  rw [List.filter_flatMap]
  refine List.Perm.trans (List.Perm.flatMap_left _ fun path hpath => ?_) hgroups
  have hsame : parts.filter (dataset.beneath path) = parts.filter fun part => dataset.partPath part = path := by
    refine List.filter_congr fun part hpart => ?_
    rw [Bool.eq_iff_iff, decide_eq_true_eq]
    exact (hplaced part hpart).beneath_iff (plan_isPath hplan path hpath)
  rw [hsame, selected_range]
  exact (List.perm_insertionSort _ _).flatMap_right _

end

/-! ## Listing a partition -/

section
variable {dataset : Dataset} {σ : Type} {store : Store σ} {path : String} {file : String → FileReading}
  (hpath : dataset.IsPath path)
include hpath

theorem IsPath.shelf_list (hdrive : drivePrefix dataset.prefix' = false) (state : σ) :
    (store.shelf state file).list (dataset.prefix' ++ path ++ "/") =
      (Store.nativeResult (store.resource.list state (dataset.prefix' ++ path))).map fun entries =>
        entries.map ObjectMetadata.path := by
  have hnormal : Parquex.normalizeListPrefix (dataset.prefix' ++ path ++ "/") = .ok (dataset.prefix' ++ path) := by
    rw [hpath.normalizeListPrefix]
    exact hpath.accepted_iff.mpr hdrive
  unfold Store.shelf
  simp only [Store.list_eq hnormal]
  cases Store.nativeResult (store.resource.list state (dataset.prefix' ++ path)) with
  | error error => rfl
  | ok entries => exact congrArg Except.ok (LocalHost.map_fromNative entries)

theorem IsPath.shelf_list_drive (hdrive : drivePrefix dataset.prefix' = true) :
    ∃ error, ∀ state, (store.shelf state file).list (dataset.prefix' ++ path ++ "/") = .error error := by
  have hnormal : ∃ error, Parquex.normalizeListPrefix (dataset.prefix' ++ path ++ "/") = .error error := by
    rw [hpath.normalizeListPrefix]
    cases hkey : normalizeKey (dataset.prefix' ++ path) with
    | error error => exact ⟨error, rfl⟩
    | ok key =>
      rw [hpath.accepted_iff.mp (normalizeKey_eq_ok hkey).2] at hdrive
      cases hdrive
  obtain ⟨error, herror⟩ := hnormal
  refine ⟨error, fun state => ?_⟩
  unfold Store.shelf Store.list
  simp only [herror]
  rfl

end

end Dataset

/-! ## The tenth hour -/

namespace DatasetStream

def clockRange (from' until' : Int) : Options := [("from", .int from'), ("until", .int until')]

theorem ranges_clockRange (from' until' : Int) : Ranges (clockRange from' until') from' until' := ⟨rfl, rfl, rfl, rfl⟩

theorem plan_morning : (clockDataset .second).partition.planWith (.int 3600) (.int 39600)
    [("max_partitions", .int 10000)] = .ok ((List.range' 1 10).map clockHour) := by decide +kernel

def tenthFile (_ : String) : FileReading where
  fields := (clockDataset .second).schema.toNative
  batches := [(secondBatch 36000).toNative]

theorem tenthFile_returns : ∀ part ∈ DatasetWrite.publishedBy (clockDataset .second) [tenthWrite],
    (tenthFile part.key).Returns (internalNames (clockDataset .second) (clockDataset .second).schema.names none)
      part.rows := by
  obtain ⟨part, hparts, -, hrows⟩ := tenthWrite_published
  rw [hparts]
  simp only [List.mem_singleton, forall_eq, hrows]
  exact ⟨(clockDataset .second).schema, [secondBatch 36000], rfl, rfl, .cons rfl .nil, rfl⟩

end DatasetStream

end Parquex
