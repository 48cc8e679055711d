import Parquex.Fallible
import Parquex.Pruning

/-!
# Pruning never loses a matching row

Statistics that describe their row group exclude a match whenever they skip it,
so masking the selected row groups finds the matches of all of them.
-/

namespace Parquex

/-! ## Statistics that describe a column -/

/-- The bounds hold every non-null value, and the counts are exact. -/
structure Describes (rowGroup : RowGroupMetaData) (statistics : Statistics) (values : List (Option Int)) : Prop where
  numRows : rowGroup.numRows = values.length
  nullCount : ∀ n, statistics.nullCount = some n → n = values.count none
  min : ∀ bounds, statistics.values = .int32 bounds ∨ statistics.values = .int64 bounds →
    ∀ m, bounds.min = some m → ∀ v, some v ∈ values → m ≤ v
  max : ∀ bounds, statistics.values = .int32 bounds ∨ statistics.values = .int64 bounds →
    ∀ m, bounds.max = some m → ∀ v, some v ∈ values → v ≤ m

theorem integerStatisticsSkip_sound {min max : Option Int} {minExact maxExact : Bool} {literal v : Int}
    {operator : PredicateOperator} (hmin : ∀ m, min = some m → m ≤ v) (hmax : ∀ m, max = some m → v ≤ m)
    (h : integerStatisticsSkip min max minExact maxExact literal operator = true) :
    compareInteger v literal operator = false := by
  cases operator with
  | gt =>
    simp only [integerStatisticsSkip, Bool.and_eq_true, Option.any_eq_true, decide_eq_true_eq] at h
    obtain ⟨-, m, hm, hle⟩ := h
    have := hmax m hm
    simp only [compareInteger, decide_eq_false_iff_not]; omega
  | gte =>
    simp only [integerStatisticsSkip, Bool.and_eq_true, Option.any_eq_true, decide_eq_true_eq] at h
    obtain ⟨-, m, hm, hle⟩ := h
    have := hmax m hm
    simp only [compareInteger, decide_eq_false_iff_not]; omega
  | lt =>
    simp only [integerStatisticsSkip, Bool.and_eq_true, Option.any_eq_true, decide_eq_true_eq] at h
    obtain ⟨-, m, hm, hle⟩ := h
    have := hmin m hm
    simp only [compareInteger, decide_eq_false_iff_not]; omega
  | lte =>
    simp only [integerStatisticsSkip, Bool.and_eq_true, Option.any_eq_true, decide_eq_true_eq] at h
    obtain ⟨-, m, hm, hle⟩ := h
    have := hmin m hm
    simp only [compareInteger, decide_eq_false_iff_not]; omega
  | eq =>
    simp only [integerStatisticsSkip, Bool.or_eq_true, Bool.and_eq_true, Option.any_eq_true, decide_eq_true_eq] at h
    rcases h with ⟨-, m, hm, hlt⟩ | ⟨-, m, hm, hlt⟩
    · have := hmin m hm
      simp only [compareInteger, decide_eq_false_iff_not]; omega
    · have := hmax m hm
      simp only [compareInteger, decide_eq_false_iff_not]; omega

/-- A skipped row group holds no value that matches. -/
theorem skipRowGroup_sound {predicate : CompiledPredicate} {pruneKind : PruneKind} {rowGroup : RowGroupMetaData}
    {statistics : Statistics} {values : List (Option Int)} {literal : Int}
    (hd : Describes rowGroup statistics values) (hl : predicate.literal = .integer literal)
    (h : skipRowGroup predicate pruneKind rowGroup statistics = true) :
    ∀ v, some v ∈ values → compareInteger v literal predicate.operator = false := by
  intro v hv
  unfold skipRowGroup at h
  rw [hd.numRows, if_pos (Int.natCast_nonneg values.length), Int.toNat_natCast] at h
  by_cases hnull : statistics.nullCount = some values.length
  · have hall := List.count_eq_length.mp (hd.nullCount _ hnull).symm
    exact absurd (hall _ hv) (by simp)
  · rw [if_neg hnull, hl] at h
    cases pruneKind with
    | int32 =>
      cases hvals : statistics.values with
      | int32 bounds =>
        rw [hvals] at h
        exact integerStatisticsSkip_sound (fun m hm => hd.min bounds (Or.inl hvals) m hm v hv)
          (fun m hm => hd.max bounds (Or.inl hvals) m hm v hv) h
      | int64 bounds => rw [hvals] at h; cases h
      | other => rw [hvals] at h; cases h
    | int64 =>
      cases hvals : statistics.values with
      | int32 bounds => rw [hvals] at h; cases h
      | int64 bounds =>
        rw [hvals] at h
        exact integerStatisticsSkip_sound (fun m hm => hd.min bounds (Or.inr hvals) m hm v hv)
          (fun m hm => hd.max bounds (Or.inr hvals) m hm v hv) h
      | other => rw [hvals] at h; cases h

/-! ## Matching rows -/

/-- A row group with its rows and their arrays. -/
structure RowGroup (ρ : Type) where
  metaData : RowGroupMetaData
  rows : List ρ
  arrays : List ArrowArray

section
variable {ρ : Type}

/-- The rows of a group that the predicate keeps. -/
def RowGroup.matchingRows (predicate : CompiledPredicate) (group : RowGroup ρ) : List ρ :=
  match predicateMask group.arrays predicate with
  | .ok mask => filterRows mask group.rows
  | .error _ => []

/-- The predicate column of the group is an integer array. -/
def RowGroup.HoldsColumn (group : RowGroup ρ) (predicate : CompiledPredicate) (type : IntegerType)
    (column : ρ → Option Int) : Prop :=
  group.arrays[predicate.columnIndex]? = some (.flat (.integer type) (.integers (group.rows.map column)))

/-- The column of the row holds a value that satisfies the predicate. -/
def matchesRow (column : ρ → Option Int) (literal : Int) (operator : PredicateOperator) (row : ρ) : Bool :=
  (column row).any fun v => compareInteger v literal operator

variable {column : ρ → Option Int} {type : IntegerType} {predicate : CompiledPredicate} {literal : Int}
  {group : RowGroup ρ}

theorem matchingRows_eq_filter (hl : predicate.literal = .integer literal)
    (hc : group.HoldsColumn predicate type column) :
    group.matchingRows predicate = group.rows.filter (matchesRow column literal predicate.operator) := by
  unfold RowGroup.matchingRows predicateMask
  rw [hc, hl]
  simp only [Option.bind_some, arrayMask, filterRows]
  generalize group.rows = rows
  induction rows with
  | nil => rfl
  | cons row rows ih =>
    simp only [List.map_cons, List.zip_cons_cons, List.filterMap_cons, ih]
    cases hc : column row with
    | none => simp [matchesRow, hc]
    | some v => by_cases hv : compareInteger v literal predicate.operator = true <;> simp [matchesRow, hc, hv]

theorem matchingRows_skipped {pruneKind : PruneKind} {statistics : Statistics}
    (hl : predicate.literal = .integer literal) (hc : group.HoldsColumn predicate type column)
    (hd : Describes group.metaData statistics (group.rows.map column))
    (h : skipRowGroup predicate pruneKind group.metaData statistics = true) :
    group.matchingRows predicate = [] := by
  rw [matchingRows_eq_filter hl hc, List.filter_eq_nil_iff]
  intro row hrow hm
  obtain ⟨v, hv, hmatch⟩ := (Option.any_eq_true _ _).mp hm
  have hmem : some v ∈ group.rows.map column := List.mem_map.mpr ⟨row, hrow, hv⟩
  rw [skipRowGroup_sound hd hl h v hmem] at hmatch
  cases hmatch

end

/-! ## Selected row groups -/

/-- Visiting the kept positions of a list finds what visiting the list finds. -/
theorem flatMap_kept {α β : Type} (skip : α → Bool) {f : Nat → List β} {g : α → List β} (l : List α) (n : Nat)
    (hf : ∀ j x, l[j]? = some x → f (n + j) = g x) (hskip : ∀ x ∈ l, skip x = true → g x = []) :
    ((l.zipIdx n).filterMap fun entry => if skip entry.1 then none else some entry.2).flatMap f = l.flatMap g := by
  induction l generalizing n with
  | nil => rfl
  | cons x l ih =>
    have htail := ih (n + 1) (fun j y hy => by
      rw [show n + 1 + j = n + (j + 1) by omega]
      exact hf (j + 1) y (by simpa using hy)) (fun y hy => hskip y (List.mem_cons_of_mem x hy))
    have hhead : f n = g x := hf 0 x rfl
    rw [List.zipIdx_cons, List.filterMap_cons, List.flatMap_cons]
    cases hx : skip x with
    | true => simp only [if_true, htail, hskip x List.mem_cons_self hx, List.nil_append]
    | false => simp only [Bool.false_eq_true, if_false, List.flatMap_cons, htail, hhead]

theorem flatMap_positions {α β : Type} {f : Nat → List β} {g : α → List β} (l : List α)
    (hf : ∀ j x, l[j]? = some x → f j = g x) : (List.range l.length).flatMap f = l.flatMap g := by
  have h := flatMap_kept (fun _ => false) (f := f) (g := g) l 0
    (fun j x hx => by rw [Nat.zero_add]; exact hf j x hx) (fun x _ hx => by cases hx)
  rw [← h]
  congr 1
  simp only [Bool.false_eq_true, if_false]
  rw [show (fun entry : α × Nat => some entry.2) = some ∘ Prod.snd from rfl, List.filterMap_eq_map,
    List.zipIdx_map_snd, List.range_eq_range']

theorem selectRowGroups_of_none {metadata : ParquetMetaData} {predicate : CompiledPredicate}
    (h : predicate.pruneKind = none) :
    selectRowGroups metadata (some predicate) = List.range metadata.rowGroups.length := by
  simp only [selectRowGroups, h]

theorem predicateLiteral_pruneKind {dataType : DataType} {operator : PredicateOperator} {literal : NativeLiteral}
    {compiled : PredicateLiteral × Option PruneKind} (h : predicateLiteral dataType operator literal = .ok compiled)
    (h32 : dataType ≠ .scalar (.integer .int32)) (h64 : dataType ≠ .scalar (.integer .int64)) : compiled.2 = none := by
  unfold predicateLiteral at h
  simp only at h
  split at h
  case h_1 => exact absurd rfl h32
  case h_2 => exact absurd rfl h64
  case h_8 =>
    split at h
    · obtain ⟨v, -, rfl⟩ := except_map_eq_ok.mp h
      rfl
    · cases h
  case h_9 => cases h
  all_goals
    obtain ⟨v, -, rfl⟩ := except_map_eq_ok.mp h
    rfl

theorem compilePredicate_pruneKind {native : NativePredicate} {fields : List Field} {predicate : CompiledPredicate}
    (h : compilePredicate native fields = .ok predicate)
    (hf : ∀ field, fields[predicate.rootIndex]? = some field →
      field.dataType ≠ .scalar (.integer .int32) ∧ field.dataType ≠ .scalar (.integer .int64)) :
    predicate.pruneKind = none := by
  unfold compilePredicate at h
  split at h
  · cases h
  · rename_i rootIndex hroot
    obtain ⟨operator, -, h⟩ := except_bind_eq_ok.mp h
    split at h
    · cases h
    · rename_i field hfield
      obtain ⟨compiled, hcompiled, rfl⟩ := except_map_eq_ok.mp h
      obtain ⟨h32, h64⟩ := hf field hfield
      exact predicateLiteral_pruneKind hcompiled h32 h64

def fileMetaData {ρ : Type} (columns : List (List String)) (file : List (RowGroup ρ)) : ParquetMetaData where
  columns := columns
  rowGroups := file.map RowGroup.metaData

/-- The matching rows of the row groups at some positions of a file. -/
def matchingRowsAt {ρ : Type} (file : List (RowGroup ρ)) (predicate : CompiledPredicate) (positions : List Nat) :
    List ρ :=
  positions.flatMap fun index => (file[index]?.map (RowGroup.matchingRows predicate)).getD []

theorem selected_matches {ρ : Type} {column : ρ → Option Int} {type : IntegerType} {columns : List (List String)}
    {file : List (RowGroup ρ)} {predicate : CompiledPredicate} {literal : Int}
    (hl : predicate.literal = .integer literal) (hc : ∀ group ∈ file, group.HoldsColumn predicate type column)
    (hd : ∀ group ∈ file, ∀ columnIndex statistics,
      leafColumn (fileMetaData columns file) predicate.column = some columnIndex →
      group.metaData.columns[columnIndex]? = some (some statistics) →
      Describes group.metaData statistics (group.rows.map column)) :
    matchingRowsAt file predicate (selectRowGroups (fileMetaData columns file) (some predicate)) =
      file.flatMap (RowGroup.matchingRows predicate) := by
  have hf : ∀ (j : Nat) (group : RowGroup ρ), file[j]? = some group →
      (file[j]?.map (RowGroup.matchingRows predicate)).getD [] = group.matchingRows predicate := by
    intro j group hj
    rw [hj]
    rfl
  have hall := flatMap_positions file hf
  rw [← List.length_map (f := RowGroup.metaData)] at hall
  unfold matchingRowsAt selectRowGroups
  simp only
  cases hk : predicate.pruneKind with
  | none => exact hall
  | some pruneKind =>
    simp only
    cases hleaf : leafColumn (fileMetaData columns file) predicate.column with
    | none => exact hall
    | some columnIndex =>
      simp only [fileMetaData, List.zipIdx_map, List.filterMap_map]
      refine flatMap_kept (fun group => columnSkips predicate pruneKind columnIndex group.metaData) file 0 ?_ ?_
      · intro j group hj
        rw [Nat.zero_add]
        exact hf j group hj
      · intro group hg hskip
        obtain ⟨statistics, hs, hskip⟩ := (Option.any_eq_true _ _).mp hskip
        have hdesc := hd group hg columnIndex statistics hleaf (Option.join_eq_some_iff.mp hs)
        exact matchingRows_skipped hl (hc group hg) hdesc hskip

/-- The selected row groups hold every row that matches; other column types drop no row group. -/
theorem pruning_keeps_matches (columns : List (List String)) :
    (∀ (ρ : Type) (column : ρ → Option Int) (type : IntegerType) (file : List (RowGroup ρ))
      (predicate : CompiledPredicate) (literal : Int), predicate.literal = .integer literal →
      (∀ group ∈ file, group.HoldsColumn predicate type column) →
      (∀ group ∈ file, ∀ columnIndex statistics,
        leafColumn (fileMetaData columns file) predicate.column = some columnIndex →
        group.metaData.columns[columnIndex]? = some (some statistics) →
        Describes group.metaData statistics (group.rows.map column)) →
      matchingRowsAt file predicate (selectRowGroups (fileMetaData columns file) (some predicate)) =
        file.flatMap (RowGroup.matchingRows predicate)) ∧
    ∀ (rowGroups : List RowGroupMetaData) (native : NativePredicate) (fields : List Field)
      (predicate : CompiledPredicate), compilePredicate native fields = .ok predicate →
      (∀ field, fields[predicate.rootIndex]? = some field →
        field.dataType ≠ .scalar (.integer .int32) ∧ field.dataType ≠ .scalar (.integer .int64)) →
      selectRowGroups ⟨columns, rowGroups⟩ (some predicate) = List.range rowGroups.length := by
  refine ⟨?_, ?_⟩
  · intro ρ column type file predicate literal hl hc hd
    exact selected_matches hl hc hd
  · intro rowGroups native fields predicate hp hf
    exact selectRowGroups_of_none (compilePredicate_pruneKind hp hf)

def exactStatistics (min max : Int) : Statistics where
  values := .int64 ⟨some min, some max⟩
  nullCount := some 0
  minIsExact := true
  maxIsExact := true

/-- A row group of a single column. -/
def singleColumnGroup (min max : Int) (values : List Int) : RowGroup Int where
  metaData := ⟨values.length, [some (exactStatistics min max)]⟩
  rows := values
  arrays := [.flat (.integer .int64) (.integers (values.map some))]

def equalsFive : CompiledPredicate := ⟨"value", 0, 0, .eq, .integer 5, some .int64⟩

theorem singleColumnGroup_describes {min max : Int} {values : List Int} (h : ∀ v ∈ values, min ≤ v ∧ v ≤ max) :
    Describes (singleColumnGroup min max values).metaData (exactStatistics min max) (values.map some) where
  numRows := by simp [singleColumnGroup]
  nullCount := by
    intro n hn
    cases hn
    exact (List.count_eq_zero.mpr (by simp)).symm
  min := by
    intro bounds hb m hm v hv
    rcases hb with hb | hb
    · cases hb
    · cases hb
      cases hm
      exact (h v (by simpa using hv)).1
  max := by
    intro bounds hb m hm v hv
    rcases hb with hb | hb
    · cases hb
    · cases hb
      cases hm
      exact (h v (by simpa using hv)).2

def boundedFile : List (RowGroup Int) := [singleColumnGroup 1 4 [1, 4], singleColumnGroup 2 5 [5, 2]]

/-- A literal equal to a bound: the first group is skipped, the second keeps its match. -/
theorem pruning_keeps_matches_equal_to_bound :
    matchingRowsAt boundedFile equalsFive
        (selectRowGroups (fileMetaData [["value"]] boundedFile) (some equalsFive)) =
      boundedFile.flatMap (RowGroup.matchingRows equalsFive) ∧
    selectRowGroups ⟨[["flag"]], [⟨1, [none]⟩]⟩ (some ⟨"flag", 0, 0, .eq, .boolean true, none⟩) = List.range 1 := by
  refine ⟨?_, ?_⟩
  · refine (pruning_keeps_matches [["value"]]).1 Int some .int64 boundedFile equalsFive 5 rfl ?_ ?_
    · intro group hg
      rcases List.mem_cons.mp hg with rfl | hg
      · rfl
      · rw [List.mem_singleton.mp hg]; rfl
    · intro group hg columnIndex statistics hleaf hs
      have h0 : leafColumn (fileMetaData [["value"]] boundedFile) equalsFive.column = some 0 := by decide
      rw [h0] at hleaf
      cases hleaf
      rcases List.mem_cons.mp hg with rfl | hg
      · cases hs
        exact singleColumnGroup_describes (by decide)
      · rw [List.mem_singleton.mp hg] at hs ⊢
        cases hs
        exact singleColumnGroup_describes (by decide)
  · refine (pruning_keeps_matches [["flag"]]).2 [⟨1, [none]⟩]
      ⟨"flag", "eq", ⟨"boolean", none, none, none, some true⟩⟩ [.mk "flag" (.scalar .boolean) false] _ rfl ?_
    intro field hfield
    cases hfield
    exact ⟨nofun, nofun⟩

end Parquex
