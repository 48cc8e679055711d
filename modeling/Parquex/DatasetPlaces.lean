import Parquex.DatasetHistory
import Parquex.DatasetReadSound
import Parquex.RemoteNamespace

/-!
# The places of partitions

The path of a partition is a key of its own, with as many segments as every other
path of the dataset. So no part lies beneath the path of another partition, and a
plan has the path of every row in its range, once.
-/

namespace Parquex

/-! ## Paths -/

theorem splitSlash_tilePath (g : Granularity) (k : Int) :
    splitSlash (tilePath g k) = segments (expectedNames g) (pathValues g ((tiling g).bound k)) :=
  splitSlash_joinSlash (segments_ne_nil g _) (segments_slashFree (expectedNames_slashFree g) _)

theorem length_splitSlash_tilePath (g : Granularity) (k : Int) :
    (splitSlash (tilePath g k)).length = (expectedNames g).length := by
  rw [splitSlash_tilePath]
  simp [segments, pathValues_length]

/-- A character that is neither a control character nor a backslash. -/
def PathChar (c : Char) : Prop := 32 ≤ c.toNat ∧ c.toNat ≠ 127 ∧ c ≠ '\\'

instance (c : Char) : Decidable (PathChar c) := inferInstanceAs (Decidable (_ ∧ _ ∧ _))

theorem pathChar_digit {c : Char} (h : c.isDigit = true) : PathChar c := by
  have hdigit : 48 ≤ c.toNat ∧ c.toNat ≤ 57 := by
    simpa [Char.isDigit, UInt32.le_iff_toNat_le] using h
  refine ⟨by omega, by omega, ?_⟩
  rintro rfl
  exact absurd hdigit (by decide)

theorem mem_joinSlash {l : List String} {c : Char} (h : c ∈ (joinSlash l).toList) :
    c = '/' ∨ ∃ s ∈ l, c ∈ s.toList := by
  induction l with
  | nil => cases h
  | cons s l ih =>
    cases l with
    | nil =>
      rw [joinSlash_singleton] at h
      exact Or.inr ⟨s, List.mem_cons_self, h⟩
    | cons t l =>
      rw [toList_joinSlash_cons] at h
      rcases List.mem_append.mp h with h | h
      · exact Or.inr ⟨s, List.mem_cons_self, h⟩
      · rcases List.mem_cons.mp h with rfl | h
        · exact Or.inl rfl
        · exact (ih h).imp_right fun ⟨t, ht, hc⟩ => ⟨t, List.mem_cons_of_mem s ht, hc⟩

theorem mem_segments {names : List String} {values : List Int} {s : String} (hs : s ∈ segments names values) :
    ∃ name ∈ names, ∃ value, s = segment name value := by
  unfold segments at hs
  obtain ⟨i, hi, rfl⟩ := List.mem_iff_getElem.mp hs
  rw [List.getElem_zipWith]
  exact ⟨_, List.getElem_mem _, _, rfl⟩

theorem pathChar_tilePath {g : Granularity} {k : Int} {c : Char} (hc : c ∈ (tilePath g k).toList) : PathChar c := by
  have hnames : ∀ name ∈ expectedNames g, (name.toList.all fun c => decide (PathChar c)) = true := by cases g <;> decide
  rcases mem_joinSlash hc with rfl | ⟨s, hs, hc⟩
  · decide
  · obtain ⟨name, hname, value, rfl⟩ := mem_segments hs
    rw [toList_segment] at hc
    rcases List.mem_append.mp hc with hc | hc
    · exact of_decide_eq_true (List.all_eq_true.mp (hnames name hname) c hc)
    · rcases List.mem_cons.mp hc with rfl | hc
      · decide
      · rcases mem_toString hc with hdigit | rfl
        · exact pathChar_digit hdigit
        · decide

theorem tilePath_relative (g : Granularity) (k : Int) : RelativeKey (tilePath g k) := by
  refine ⟨fun s hs => ?_, fun hback => (pathChar_tilePath hback).2.2 rfl⟩
  rw [splitSlash_tilePath] at hs
  obtain ⟨name, -, value, rfl⟩ := mem_segments hs
  have hequals : '=' ∈ (segment name value).toList := by
    rw [toList_segment]
    simp
  generalize segment name value = s at hequals
  refine ⟨?_, ?_, ?_⟩ <;> rintro rfl <;> exact absurd hequals (by decide)

theorem RelativeKey.join {s t : String} (hs : RelativeKey s) (ht : RelativeKey t) : RelativeKey (s ++ "/" ++ t) := by
  refine ⟨fun segment hsegment => ?_, fun hback => ?_⟩
  · rw [splitSlash_append] at hsegment
    rcases List.mem_append.mp hsegment with hsegment | hsegment
    · exact hs.1 segment hsegment
    · exact ht.1 segment hsegment
  · rw [String.toList_append, String.toList_append] at hback
    rcases List.mem_append.mp hback with hback | hback
    · rcases List.mem_append.mp hback with hback | hback
      · exact hs.2 hback
      · exact absurd hback (by decide)
    · exact ht.2 hback

theorem hasControl_tilePath (g : Granularity) (k : Int) : hasControl (tilePath g k) = false := by
  unfold hasControl
  rw [List.any_eq_false]
  intro c hc
  have hchar := pathChar_tilePath hc
  unfold PathChar at hchar
  simp only [decide_eq_true_eq]
  omega

namespace Dataset

variable (dataset : Dataset)

/-- The path of a partition of the dataset. -/
def IsPath (path : String) : Prop := ∃ k, path = tilePath dataset.partition.granularity k

variable {dataset} {path path' : String}

theorem splitSlash_prefix :
    ∃ segments, (∀ s ∈ segments, s ≠ "" ∧ s ≠ "." ∧ s ≠ "..") ∧
      ∀ rest, splitSlash (dataset.prefix' ++ rest) = segments ++ splitSlash rest := by
  obtain ⟨key, hk, hslash⟩ := dataset.prefixAccepted
  exact ⟨splitSlash key, fun s hs => hk.segment_ne hs, fun rest => by rw [hslash, splitSlash_append]⟩

theorem isPath_of_pathOf {row : Row} (h : dataset.pathOf row = some path) : dataset.IsPath path := by
  unfold pathOf at h
  split at h
  · cases h
  · next timestamp _ =>
    cases hpartition : dataset.partitionOf timestamp with
    | error failure =>
      rw [hpartition] at h
      cases h
    | ok partition =>
      rw [hpartition] at h
      obtain ⟨i, -, -, rfl⟩ := partitionFor_eq_ok.mp hpartition
      exact ⟨_, (Option.some.inj h).symm⟩

theorem IsPath.length_eq (h : dataset.IsPath path) (h' : dataset.IsPath path') :
    (splitSlash path).length = (splitSlash path').length := by
  obtain ⟨k, rfl⟩ := h
  obtain ⟨l, rfl⟩ := h'
  rw [length_splitSlash_tilePath, length_splitSlash_tilePath]

theorem IsPath.relative (h : dataset.IsPath path) : RelativeKey (dataset.prefix' ++ path) := by
  obtain ⟨k, rfl⟩ := h
  obtain ⟨key, hk, hslash⟩ := dataset.prefixAccepted
  rw [hslash]
  exact hk.relative.join (tilePath_relative dataset.partition.granularity k)

/-- A prefix that reads like a drive is one with whatever follows it. -/
theorem drivePrefix_append (dataset : Dataset) (rest : String) :
    drivePrefix (dataset.prefix' ++ rest) = drivePrefix dataset.prefix' := by
  obtain ⟨key, hk, hslash⟩ := dataset.prefixAccepted
  have hne : key.toList ≠ [] := fun hnil => (acceptedKey_iff.mp hk).1 (String.toList_inj.mp hnil)
  unfold drivePrefix
  rw [String.toList_append, hslash, String.toList_append]
  generalize key.toList = cs at hne
  rcases cs with _ | ⟨c, _ | ⟨d, cs⟩⟩
  · exact absurd rfl hne
  · cases rest.toList <;> rfl
  · by_cases hd : d = ':'
    · rw [hd]
      cases cs <;> rfl
    · simp [hd]

theorem IsPath.accepted_iff (h : dataset.IsPath path) :
    AcceptedKey (dataset.prefix' ++ path) ↔ drivePrefix dataset.prefix' = false := by
  rw [acceptedKey_iff_relative, and_iff_right h.relative, drivePrefix_append]

theorem IsPath.normalizeListPrefix (h : dataset.IsPath path) :
    normalizeListPrefix (dataset.prefix' ++ path ++ "/") = normalizeKey (dataset.prefix' ++ path) := by
  have hne : dataset.prefix' ++ path ++ "/" ≠ "" := by
    intro hempty
    have := congrArg (fun s => s.toList.length) hempty
    simp at this
  unfold Parquex.normalizeListPrefix
  rw [if_neg hne, h.relative.trimmed.trimTrailingSlash_append]

/-- Beneath the path of a partition lie its own files alone. -/
theorem IsPath.hasPrefix_iff (h : dataset.IsPath path) (h' : dataset.IsPath path') (name : String) :
    hasPrefix (dataset.prefix' ++ path ++ "/" ++ name) (dataset.prefix' ++ path' ++ "/") = true ↔ path = path' := by
  rw [String.append_assoc, String.append_assoc, String.append_assoc, hasPrefix_append_left, ← String.append_assoc,
    hasPrefix_slash_iff, splitSlash_append]
  constructor
  · rintro ⟨q, -, hq⟩
    have hsplit := (List.append_inj hq (h.length_eq h')).1
    rw [← joinSlash_splitSlash path, hsplit, joinSlash_splitSlash]
  · rintro rfl
    exact ⟨splitSlash name, splitSlash_ne_nil name, rfl⟩

/-- A file of a partition has more segments than a path. -/
theorem IsPath.length_lt (h : dataset.IsPath path) (h' : dataset.IsPath path') (name : String) :
    (splitSlash (dataset.prefix' ++ path')).length < (splitSlash (dataset.prefix' ++ path ++ "/" ++ name)).length := by
  have hname := List.length_pos_of_ne_nil (splitSlash_ne_nil name)
  obtain ⟨segments, -, hsplit⟩ := dataset.splitSlash_prefix
  rw [splitSlash_append, hsplit, hsplit]
  simp only [List.length_append, h.length_eq h']
  omega

theorem IsPath.file_ne (h : dataset.IsPath path) (h' : dataset.IsPath path') (name : String) :
    dataset.prefix' ++ path ++ "/" ++ name ≠ dataset.prefix' ++ path' := by
  intro heq
  have hlt := h.length_lt h' name
  rw [heq] at hlt
  exact lt_irrefl _ hlt

theorem IsPath.not_above (h : dataset.IsPath path) (h' : dataset.IsPath path') (name : String) :
    ¬ hasPrefix (dataset.prefix' ++ path') (dataset.prefix' ++ path ++ "/" ++ name ++ "/") = true := by
  intro habove
  obtain ⟨q, -, hq⟩ := hasPrefix_slash_iff.mp habove
  have hlt := h.length_lt h' name
  rw [hq, List.length_append] at hlt
  omega

/-! ## Parts -/

section
variable {part : PublishedPart} (hpart : dataset.Placed part)
include hpart

theorem Placed.isPath : dataset.IsPath (dataset.partPath part) := by
  obtain ⟨row, hrow⟩ := List.exists_mem_of_ne_nil _ hpart.nonempty
  exact isPath_of_pathOf (hpart.rows row hrow)

theorem Placed.beneath_iff (h : dataset.IsPath path) :
    hasPrefix part.key (dataset.prefix' ++ path ++ "/") = true ↔ dataset.partPath part = path := by
  obtain ⟨name, hkey⟩ := hpart.key
  rw [hkey, hpart.isPath.hasPrefix_iff h]

theorem Placed.key_ne (h : dataset.IsPath path) : part.key ≠ dataset.prefix' ++ path := by
  obtain ⟨name, hkey⟩ := hpart.key
  rw [hkey]
  exact hpart.isPath.file_ne h name

theorem Placed.beneath : hasPrefix part.key dataset.prefix' = true := by
  obtain ⟨name, hkey⟩ := hpart.key
  rw [hkey, String.append_assoc, String.append_assoc]
  exact hasPrefix_iff_append.mpr ⟨_, rfl⟩

end

/-! ## Plans -/

theorem plan_tiles {from' until' : Term} {options : List (String × Term)} {plans : List Partition}
    (h : dataset.partition.planWith from' until' options = .ok plans) :
    ∃ f u native limit, encodeTimestamp from' dataset.unit = .ok f ∧ encodeTimestamp until' dataset.unit = .ok u ∧
      1 ≤ limit ∧ Parquex.plan f u dataset.unit dataset.partition.granularity limit = .ok native ∧
      List.Forall₂ (fun native partition => Partition.fromNative native = .ok partition) native plans := by
  obtain ⟨limit, -, h⟩ := dataset.partition.planWith_eq_ok h
  obtain ⟨hl, f, u, native, hf, hu, hplan, hall⟩ := dataset.partition.plan_eq_ok h
  exact ⟨f, u, native, limit.toNat, hf, hu, by omega, hplan, hall⟩

theorem map_path {native : List NativePartition} {plans : List Partition}
    (h : List.Forall₂ (fun native partition => Partition.fromNative native = .ok partition) native plans) :
    plans.map Partition.path = native.map NativePartition.path := by
  induction h with
  | nil => rfl
  | cons hhead _ ih => rw [List.map_cons, List.map_cons, ih, DatasetWriter.fromNative_path hhead]

section
variable {from' until' : Int} {options : List (String × Term)} {plans : List Partition}
  (h : dataset.partition.planWith (.int from') (.int until') options = .ok plans)
include h

theorem plan_isPath : ∀ path ∈ plans.map Partition.path, dataset.IsPath path := by
  obtain ⟨f, u, native, limit, -, -, hl, hplan, hall⟩ := plan_tiles h
  obtain ⟨k, n, rfl, -, -⟩ := partitions_of_plan hl hplan
  intro path hpath
  rw [map_path hall] at hpath
  obtain ⟨p, hp, rfl⟩ := List.mem_map.mp hpath
  obtain ⟨l, -, -, rfl⟩ := mem_tilesFrom.mp hp
  exact ⟨l, rfl⟩

theorem plan_nodup : (plans.map Partition.path).Nodup := by
  obtain ⟨f, u, native, limit, -, -, hl, hplan, hall⟩ := plan_tiles h
  obtain ⟨k, n, rfl, -, -⟩ := partitions_of_plan hl hplan
  rw [map_path hall]
  refine (nodup_tilesFrom _ k n).map_on ?_
  intro p hp q hq heq
  obtain ⟨l, -, -, rfl⟩ := mem_tilesFrom.mp hp
  obtain ⟨m, -, -, rfl⟩ := mem_tilesFrom.mp hq
  exact tile_inj.mpr (tilePath_inj heq)

/-- Every row within the range has its path in the plan. -/
theorem mem_plan {row : Row} (hpath : dataset.pathOf row = some path)
    (hrange : DatasetStream.inRange (row.get dataset.column) from' until' = true) :
    path ∈ plans.map Partition.path := by
  obtain ⟨f, u, native, limit, hf, hu, hl, hplan, hall⟩ := plan_tiles h
  cases hf
  cases hu
  unfold pathOf timestampOf at hpath
  unfold DatasetStream.inRange at hrange
  split at hrange
  · next timestamp hget =>
    rw [hget] at hpath
    simp only [Term.int?] at hpath
    cases hpartition : dataset.partitionOf timestamp with
    | error failure =>
      rw [hpartition] at hpath
      cases hpath
    | ok partition =>
      rw [hpartition] at hpath
      have hfactor := dataset.unit.factor_pos
      simp only [Bool.and_eq_true, decide_eq_true_eq] at hrange
      have hcount := count_planned hl hplan hpartition (Int.mul_le_mul_of_nonneg_right hrange.1 (le_of_lt hfactor))
        (mul_lt_mul_of_pos_right hrange.2 hfactor)
      have hmem : partition ∈ native := List.count_pos_iff.mp (by omega)
      rw [map_path hall, ← Option.some.inj hpath]
      exact List.mem_map_of_mem hmem
  · cases hrange

omit h in
theorem fromNative_start {native : NativePartition} {partition : Partition}
    (h : Partition.fromNative native = .ok partition) (hzero : native.startNanosecond = 0) :
    partition.start.microseconds = 1000000 * native.startSeconds := by
  obtain ⟨start, hstart, h⟩ := except_bind_eq_ok.mp h
  obtain ⟨until', -, rfl⟩ := except_map_eq_ok.mp h
  unfold Partition.datetime at hstart
  split at hstart
  · next datetime hunix =>
    cases hstart
    rw [DateTime.fromUnix_eq_some hunix, hzero]
    simp only [TimeUnit.factor]
    omega
  · cases hstart

/-- The partitions of a plan are in the order of time. -/
theorem plan_ascending : plans.Pairwise fun p q => p.start.microseconds < q.start.microseconds := by
  obtain ⟨f, u, native, limit, -, -, hl, hplan, hall⟩ := plan_tiles h
  obtain ⟨k, n, rfl, -, -⟩ := partitions_of_plan hl hplan
  refine forall₂_pairwise (forall₂_of_mem hall fun p hp partition _ hpartition => ?_) (ascending_tilesFrom _ k n)
    (R := fun p partition => p.startNanosecond = 0 ∧ partition.start.microseconds = 1000000 * p.startSeconds) ?_
  · obtain ⟨l, -, -, rfl⟩ := mem_tilesFrom.mp hp
    exact ⟨rfl, fromNative_start hpartition rfl⟩
  · rintro p partition q partition' ⟨hzero, hstart⟩ ⟨hzero', hstart'⟩ hlt
    unfold NativePartition.startNanos at hlt
    omega

end

end Dataset

end Parquex
