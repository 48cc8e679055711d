import Parquex.Infer
import Parquex.InputSound

/-!
# Columns and rows

Finite input is a list of row maps, or a map of columns that is turned into rows.
The names of columns are normalized before that and merged when they are alike;
the names of rows are normalized after it, and refused when they are alike. Then
both go the same way.
-/

namespace Parquex

namespace Input

/-- A column under the key of the input. -/
abbrev Column := Term × List Term

variable (columns : List Column)

def columnMap : Term := .map (columns.map fun column => (column.1, .list column.2))

/-- The row maps with the keys of the columns. -/
def rowMaps (rowCount : Nat) : List Term :=
  (List.range rowCount).map fun index => .map (columns.map fun column => (column.1, column.2.getD index .nil))

/-- Columns of one length, under their keys as they are. -/
structure Even (rowCount : Nat) : Prop where
  nonempty : columns ≠ []
  length : ∀ column ∈ columns, column.2.length = rowCount

/-- The normalized names; none is an invalid one. -/
def columnNames : List (Option Binary) := columns.map fun column => normalizeName column.1

/-- The names pass as those of a row. -/
def RowNames : Prop := (∀ name ∈ columnNames columns, name ≠ none) ∧ (columnNames columns).Nodup

/-- The merged names, of which an invalid one has become the atom `nil`, pass as those of a row. -/
def MergedNames : Prop :=
  some (.text "") ∉ columnNames columns ∧
    ¬ (none ∈ columnNames columns ∧ some (.text "nil") ∈ columnNames columns)

/-! ## Rows of columns -/

section
variable {columns} {rowCount : Nat}

theorem eraseDups_const {α : Type} [DecidableEq α] {l : List α} {a : α} (hne : l ≠ []) (h : ∀ b ∈ l, b = a) :
    l.eraseDups = [a] := by
  cases l with
  | nil => exact absurd rfl hne
  | cons b l =>
    have hfilter : l.filter (fun c => !c == b) = [] := by
      rw [List.filter_eq_nil_iff]
      intro c hc
      rw [h c (List.mem_cons_of_mem _ hc), h b List.mem_cons_self]
      simp
    rw [List.eraseDups_cons, hfilter, h b List.mem_cons_self]
    rfl

/-- One row of the columns, under the merged names. -/
def mergedRow (columns : List Column) (index : Nat) : Term :=
  .map ((mapNew (columns.map fun column => (normalizeName column.1, column.2.getD index .nil))).map fun entry =>
    (nameTerm entry.1, entry.2))

theorem finiteRows_columnMap (h : Even columns rowCount) :
    finiteRows (columnMap columns) = .ok ((List.range rowCount).map (mergedRow columns)) := by
  unfold finiteRows columnMap
  have hlists : columns.map (fun column => (column.1, Term.list column.2)) ≠ [] ∧
      (columns.map fun column => (column.1, Term.list column.2)).all (fun entry => entry.2.list?.isSome) := by
    refine ⟨by simpa using h.nonempty, ?_⟩
    simp [Term.list?]
  simp only
  rw [if_pos hlists]
  unfold columnsToRows
  simp only [List.map_map, Function.comp_def, Term.list?, Option.getD_some]
  have hlengths : (columns.map fun column => column.2.length).eraseDups = [rowCount] := by
    apply eraseDups_const
    · simpa using h.nonempty
    · intro n hn
      obtain ⟨column, hc, rfl⟩ := List.mem_map.mp hn
      exact h.length column hc
  simp only [hlengths]
  rfl

theorem finiteRows_rowMaps : finiteRows (.list (rowMaps columns rowCount)) = .ok (rowMaps columns rowCount) := by
  unfold finiteRows
  have hmaps : (rowMaps columns rowCount).all isMap = true := by
    simp [rowMaps, isMap, List.all_map, Function.comp_def]
  simp only [hmaps, if_true]

/-! ## Names of rows -/

theorem mapM_normalizePair {entries : List (Term × Term)} {pairs : List (Binary × Term)} :
    entries.mapM normalizePair = some pairs ↔
      entries.map (fun entry => (normalizeName entry.1, entry.2)) = pairs.map fun pair => (some pair.1, pair.2) := by
  rw [mapM_eq_some]
  induction entries generalizing pairs with
  | nil => cases pairs <;> simp
  | cons entry entries ih =>
    cases pairs with
    | nil => simp
    | cons pair pairs =>
      rw [List.forall₂_cons, ih, List.map_cons, List.map_cons, List.cons.injEq]
      apply and_congr_left'
      unfold normalizePair
      rw [Option.map_eq_some_iff, Prod.mk.injEq]
      constructor
      · rintro ⟨name, hname, rfl⟩
        exact ⟨hname, rfl⟩
      · rintro ⟨hname, hvalue⟩
        exact ⟨pair.1, hname, by rw [hvalue]⟩

theorem normalizeRow_map_eq_ok {entries : List (Term × Term)} {pairs : List (Binary × Term)} :
    normalizeRow (.map entries) = .ok pairs ↔
      entries.map (fun entry => (normalizeName entry.1, entry.2)) = pairs.map (fun pair => (some pair.1, pair.2)) ∧
      (pairs.map Prod.fst).Nodup := by
  rw [← mapM_normalizePair]
  simp only [normalizeRow]
  cases entries.mapM normalizePair with
  | none => simp
  | some pairs' =>
    by_cases hn : (pairs'.map Prod.fst).Nodup
    · simp only [hn, if_true, Except.ok.injEq, Option.some.injEq]
      exact ⟨fun h => ⟨h, h ▸ hn⟩, fun h => h.1⟩
    · simp only [hn, if_false, reduceCtorEq, Option.some.injEq, false_iff]
      exact fun h => hn (h.1 ▸ h.2)

/-- A row map that is refused is refused with this error. -/
theorem normalizeRow_map_cases (entries : List (Term × Term)) :
    (∃ pairs, normalizeRow (.map entries) = .ok pairs) ∨
      normalizeRow (.map entries) = .error (.error (invalid "row keys must be unique atoms or strings")) := by
  simp only [normalizeRow]
  cases entries.mapM normalizePair with
  | none => exact Or.inr rfl
  | some pairs =>
    by_cases hn : (pairs.map Prod.fst).Nodup
    · exact Or.inl ⟨pairs, by simp only [hn, if_true]⟩
    · exact Or.inr (by simp only [hn, if_false])

theorem exists_pairs_iff {entries : List (Option Binary × Term)} :
    (∃ pairs : List (Binary × Term), entries = pairs.map (fun pair => (some pair.1, pair.2)) ∧
      (pairs.map Prod.fst).Nodup) ↔
    (∀ name ∈ entries.map Prod.fst, name ≠ none) ∧ (entries.map Prod.fst).Nodup := by
  constructor
  · rintro ⟨pairs, rfl, hnodup⟩
    have hnames : (pairs.map fun pair => ((some pair.1, pair.2) : Option Binary × Term)).map Prod.fst =
        (pairs.map Prod.fst).map some := by
      simp
    rw [hnames]
    refine ⟨fun name hname => ?_, hnodup.map (Option.some_injective _)⟩
    obtain ⟨key, -, rfl⟩ := List.mem_map.mp hname
    exact Option.some_ne_none key
  · intro ⟨hsome, hnodup⟩
    have hentries : entries = (entries.map fun entry => (entry.1.getD (.text ""), entry.2)).map fun pair =>
        (some pair.1, pair.2) := by
      rw [List.map_map]
      refine Eq.trans (List.map_id _).symm (List.map_congr_left fun entry he => ?_)
      obtain ⟨name, hname⟩ := Option.ne_none_iff_exists'.mp (hsome entry.1 (List.mem_map_of_mem he))
      simp [hname, Prod.ext_iff]
    refine ⟨_, hentries, ?_⟩
    have hnames : (entries.map fun entry => (entry.1.getD (.text ""), entry.2)).map Prod.fst =
        (entries.map Prod.fst).map fun name => name.getD (.text "") := by
      simp
    rw [hnames]
    refine List.Nodup.map_on (fun name hname name' hname' he => ?_) hnodup
    obtain ⟨a, rfl⟩ := Option.ne_none_iff_exists'.mp (hsome name hname)
    obtain ⟨b, rfl⟩ := Option.ne_none_iff_exists'.mp (hsome name' hname')
    exact congrArg some he

/-- A row map passes exactly when its names are valid and unique. -/
theorem normalizeRow_map_isOk_iff {entries : List (Term × Term)} :
    (∃ pairs, normalizeRow (.map entries) = .ok pairs) ↔
      (∀ name ∈ entries.map (fun entry => normalizeName entry.1), name ≠ none) ∧
        (entries.map fun entry => normalizeName entry.1).Nodup := by
  simp only [normalizeRow_map_eq_ok]
  rw [exists_pairs_iff]
  simp [List.map_map, Function.comp_def]

/-! ## Merged names -/

/-- A merged name, normalized once more. -/
def renamed : Option Binary → Option Binary
  | none => some (.text "nil")
  | some name => if name = .text "" then none else some name

theorem normalizeName_nameTerm (name : Option Binary) : normalizeName (nameTerm name) = renamed name := by
  cases name <;> rfl

theorem renamed_some {name : Binary} (h : name ≠ .text "") : renamed (some name) = some name := if_neg h

section
variable {κ α : Type} [DecidableEq κ]

theorem mapPut_keys (entries : List (κ × α)) (key : κ) (value : α) :
    (mapPut entries key value).map Prod.fst =
      if key ∈ entries.map Prod.fst then entries.map Prod.fst else entries.map Prod.fst ++ [key] := by
  unfold mapPut
  by_cases h : key ∈ entries.map Prod.fst
  · rw [if_pos h, if_pos h, List.map_map]
    apply List.map_congr_left
    intro entry _
    by_cases he : entry.1 = key <;> simp [he]
  · rw [if_neg h, if_neg h, List.map_append]
    rfl

theorem mapNew_keys (pairs : List (κ × α)) :
    ((mapNew pairs).map Prod.fst).Nodup ∧ ∀ key, key ∈ (mapNew pairs).map Prod.fst ↔ key ∈ pairs.map Prod.fst := by
  unfold mapNew
  induction pairs using List.reverseRecOn with
  | nil => simp
  | append_singleton pairs pair ih =>
    obtain ⟨hnodup, hmem⟩ := ih
    rw [List.foldl_concat, mapPut_keys]
    by_cases h : pair.1 ∈ (pairs.foldl (fun entries pair => mapPut entries pair.1 pair.2) []).map Prod.fst
    · rw [if_pos h]
      refine ⟨hnodup, fun key => ?_⟩
      rw [hmem, List.map_append, List.mem_append, List.map_singleton, List.mem_singleton]
      exact ⟨Or.inl, fun hk => hk.elim id fun he => he ▸ (hmem pair.1).mp h⟩
    · rw [if_neg h]
      refine ⟨?_, fun key => ?_⟩
      · exact List.nodup_append.mpr ⟨hnodup, List.nodup_singleton _, fun a ha b hb he => h (by
          rw [← List.mem_singleton.mp hb, ← he]
          exact ha)⟩
      · rw [List.mem_append, hmem, List.map_append, List.mem_append, List.map_singleton]

end

/-- The names that one row of the columns is normalized to. -/
theorem mergedRow_isOk_iff (columns : List Column) (index : Nat) :
    (∃ pairs, normalizeRow (mergedRow columns index) = .ok pairs) ↔ MergedNames columns := by
  unfold mergedRow
  rw [normalizeRow_map_isOk_iff]
  simp only [List.map_map, Function.comp_def, normalizeName_nameTerm]
  obtain ⟨hnodup, hmem⟩ := mapNew_keys (columns.map fun column => (normalizeName column.1, column.2.getD index .nil))
  have hkeys : ∀ key, key ∈ (mapNew (columns.map fun column => (normalizeName column.1, column.2.getD index .nil))).map
      Prod.fst ↔ key ∈ columnNames columns := by
    intro key
    rw [hmem, List.map_map]
    rfl
  generalize mapNew (columns.map fun column => (normalizeName column.1, column.2.getD index .nil)) = merged at hnodup hkeys
  have hmap : merged.map (fun entry => renamed entry.1) = (merged.map Prod.fst).map renamed := by
    rw [List.map_map]
    rfl
  rw [hmap]
  generalize merged.map Prod.fst = keys at hnodup hkeys
  unfold MergedNames
  rw [← hkeys, ← hkeys, ← hkeys]
  constructor
  · intro ⟨hsome, hunique⟩
    refine ⟨fun hempty => hsome _ (List.mem_map_of_mem hempty) rfl, fun ⟨hnone, hnil⟩ => ?_⟩
    have he := List.inj_on_of_nodup_map hunique hnone hnil rfl
    cases he
  · intro ⟨hempty, hnil⟩
    refine ⟨fun name hname => ?_, List.Nodup.map_on (fun name hname name' hname' he => ?_) hnodup⟩
    · obtain ⟨key, hkey, rfl⟩ := List.mem_map.mp hname
      cases key with
      | none => simp [renamed]
      | some key =>
        rw [renamed_some fun he => hempty (he ▸ hkey)]
        exact Option.some_ne_none key
    · cases name with
      | none =>
        cases name' with
        | none => rfl
        | some key' =>
          rw [renamed_some fun he => hempty (he ▸ hname')] at he
          have hname'' : some (Binary.text "nil") = some key' := he
          exact absurd ⟨hname, hname'' ▸ hname'⟩ hnil
      | some key =>
        rw [renamed_some fun he => hempty (he ▸ hname)] at he
        cases name' with
        | none =>
          have hname'' : some key = some (Binary.text "nil") := he
          exact absurd ⟨hname', hname'' ▸ hname⟩ hnil
        | some key' => rwa [renamed_some fun he => hempty (he ▸ hname')] at he

theorem rowMap_isOk_iff (columns : List Column) (index : Nat) :
    (∃ pairs, normalizeRow (.map (columns.map fun column => (column.1, column.2.getD index .nil))) = .ok pairs) ↔
      RowNames columns := by
  rw [normalizeRow_map_isOk_iff]
  simp only [List.map_map, Function.comp_def]
  rfl

/-! ## Both ways of one row -/

/-- Both ways pass the names, or neither does. -/
def NamesAgree (columns : List Column) : Prop := RowNames columns ↔ MergedNames columns

theorem mergedRow_eq {columns : List Column} (hrow : RowNames columns) (hmerged : MergedNames columns) (index : Nat) :
    normalizeRow (mergedRow columns index) =
      normalizeRow (.map (columns.map fun column => (column.1, column.2.getD index .nil))) := by
  obtain ⟨pairs, hpairs⟩ := (rowMap_isOk_iff columns index).mpr hrow
  rw [hpairs]
  rw [normalizeRow_map_eq_ok] at hpairs
  unfold mergedRow
  rw [normalizeRow_map_eq_ok]
  have hnodup : ((columns.map fun column => (normalizeName column.1, column.2.getD index .nil)).map Prod.fst).Nodup := by
    rw [List.map_map]
    exact hrow.2
  refine ⟨?_, hpairs.2⟩
  rw [mapNew_of_nodup hnodup, ← hpairs.1, List.map_map, List.map_map, List.map_map]
  apply List.map_congr_left
  intro column hc
  have hmem : normalizeName column.1 ∈ columnNames columns := List.mem_map_of_mem hc
  obtain ⟨name, hname⟩ := Option.ne_none_iff_exists'.mp (hrow.1 _ hmem)
  simp only [Function.comp_def, normalizeName_nameTerm]
  rw [hname, renamed_some fun he => hmerged.1 (by rw [← he, ← hname]; exact hmem)]

theorem normalizeRow_agree {columns : List Column} (h : NamesAgree columns) (index : Nat) :
    normalizeRow (mergedRow columns index) =
      normalizeRow (.map (columns.map fun column => (column.1, column.2.getD index .nil))) := by
  by_cases hrow : RowNames columns
  · exact mergedRow_eq hrow (h.mp hrow) index
  · have hmerged : ¬ MergedNames columns := fun hm => hrow (h.mpr hm)
    rw [← mergedRow_isOk_iff columns index] at hmerged
    rw [← rowMap_isOk_iff columns index] at hrow
    have hright := (normalizeRow_map_cases _).resolve_left hrow
    unfold mergedRow at hmerged ⊢
    rw [hright, (normalizeRow_map_cases _).resolve_left hmerged]

/-! ## Both ways of the input -/

section
variable {rows rows' : List Term} (h : rows.mapM normalizeRow = rows'.mapM normalizeRow)
include h

theorem normalizeRows_congr (schema : Schema) : normalizeRows rows schema = normalizeRows rows' schema := by
  unfold normalizeRows
  rw [h]

theorem normalizeInferred_congr (fields : List InferredField) :
    normalizeInferred rows fields = normalizeInferred rows' fields := by
  unfold normalizeInferred
  rw [h]

theorem infer_congr (hnil : rows = [] ↔ rows' = []) (inspect : Binary → String) :
    infer inspect rows = infer inspect rows' := by
  unfold infer
  simp only [h, hnil]

end

theorem batches_congr {input input' : Term} {rows rows' : List Term} (hi : finiteRows input = .ok rows)
    (hi' : finiteRows input' = .ok rows') (h : rows.mapM normalizeRow = rows'.mapM normalizeRow) (schema : Schema)
    (batchRows : Nat) : batches input schema batchRows = batches input' schema batchRows := by
  unfold batches
  rw [hi, hi']
  simp only [bind, Except.bind, normalizeRows_congr h]

theorem inferAndBatches_congr {input input' : Term} {rows rows' : List Term} (hi : finiteRows input = .ok rows)
    (hi' : finiteRows input' = .ok rows') (h : rows.mapM normalizeRow = rows'.mapM normalizeRow)
    (hnil : rows = [] ↔ rows' = []) (inspect : Binary → String) (batchRows : Nat) :
    inferAndBatches inspect input batchRows = inferAndBatches inspect input' batchRows := by
  unfold inferAndBatches
  rw [hi, hi']
  simp only [TimePartition.liftError, bind, Except.bind, infer_congr h hnil, normalizeInferred_congr h]

/-- Names that agree make both inputs one. -/
theorem agree_of_names {columns : List Column} {rowCount : Nat} (heven : Even columns rowCount)
    (h : rowCount = 0 ∨ NamesAgree columns) :
    (∀ schema batchRows, batches (columnMap columns) schema batchRows =
      batches (.list (rowMaps columns rowCount)) schema batchRows) ∧
    ∀ inspect batchRows, inferAndBatches inspect (columnMap columns) batchRows =
      inferAndBatches inspect (.list (rowMaps columns rowCount)) batchRows := by
  have hrows : ((List.range rowCount).map (mergedRow columns)).mapM normalizeRow =
      (rowMaps columns rowCount).mapM normalizeRow := by
    unfold rowMaps
    apply mapM_congr_ok
    rw [List.forall₂_map_left_iff, List.forall₂_map_right_iff, List.forall₂_same]
    intro index hindex
    rcases h with rfl | h
    · cases hindex
    · exact normalizeRow_agree h index
  refine ⟨fun schema batchRows => ?_, fun inspect batchRows => ?_⟩
  · exact batches_congr (finiteRows_columnMap heven) finiteRows_rowMaps hrows schema batchRows
  · refine inferAndBatches_congr (finiteRows_columnMap heven) finiteRows_rowMaps hrows ?_ inspect batchRows
    simp [rowMaps]

/-! ## Inputs that are accepted -/

/-- The keys of a row that passes are its names. -/
theorem normalizeRow_keys {entries : List (Term × Term)} {pairs : List (Binary × Term)}
    (h : normalizeRow (.map entries) = .ok pairs) : (pairs.map Prod.fst).Nodup ∧
      ∀ key, key ∈ pairs.map Prod.fst ↔ some key ∈ entries.map fun entry => normalizeName entry.1 := by
  obtain ⟨hentries, hnodup⟩ := normalizeRow_map_eq_ok.mp h
  refine ⟨hnodup, fun key => ?_⟩
  have hnames := congrArg (List.map Prod.fst) hentries
  rw [List.map_map, List.map_map] at hnames
  change (entries.map fun entry => normalizeName entry.1) = (pairs.map (some ∘ Prod.fst)) at hnames
  rw [hnames, ← List.map_map, List.mem_map_of_injective (Option.some_injective _)]

theorem exists_texts {keys : List Binary} (h : ∀ key ∈ keys, ∃ text, key = .text text) :
    ∃ names : List String, keys = names.map .text := by
  induction keys with
  | nil => exact ⟨[], rfl⟩
  | cons key keys ih =>
    obtain ⟨text, rfl⟩ := h key List.mem_cons_self
    obtain ⟨names, rfl⟩ := ih fun key hk => h key (List.mem_cons_of_mem _ hk)
    exact ⟨text :: names, rfl⟩

/-- Fields whose values are taken as they are. -/
def plainSchema (names : List String) : Schema := { fields := names.map fun name => .mk name (.flat .boolean) true }

theorem plainSchema_names (names : List String) : (plainSchema names).names = names := by
  unfold plainSchema Schema.names
  rw [List.map_map]
  exact List.map_id _

theorem encodeRow_plain {names : List String} {row : List (Binary × Term)}
    (h : ∀ name ∈ names, .text name ∈ row.map Prod.fst) : ∃ encoded, encodeRow (plainSchema names) row = .ok encoded := by
  apply exists_mapM_ok
  intro field hf
  obtain ⟨name, hname, rfl⟩ := List.mem_map.mp hf
  cases hl : row.lookup (.text name) with
  | none =>
    obtain ⟨entry, he, hkey⟩ := List.mem_map.mp (h name hname)
    exact absurd hkey.symm (by simpa using List.lookup_eq_none_iff.mp hl entry he)
  | some value =>
    refine ⟨(name, value), encodeField_eq_ok.mpr ⟨value, value, hl, ?_, rfl⟩⟩
    cases value <;> rfl

/-- Rows that all pass under the names of a schema, and whose values are encoded, make batches of it. -/
theorem exists_batches {input : Term} {rows : List Term} {schema : Schema} {batchRows : Nat}
    (hi : finiteRows input = .ok rows) (hpos : 0 < batchRows) (hne : schema.names ≠ []) (hnodup : schema.names.Nodup)
    (hrows : ∀ row ∈ rows, ∃ pairs, normalizeRow row = .ok pairs ∧
      (∀ key, key ∈ pairs.map Prod.fst ↔ key ∈ schema.names.map Binary.text) ∧
      ∃ encoded, encodeRow schema pairs = .ok encoded) :
    ∃ bs, batches input schema batchRows = .ok bs := by
  obtain ⟨normal, hnormal⟩ := exists_mapM_ok fun row hr => (hrows row hr).imp fun _ h => h.1
  have hpairs : ∀ pairs ∈ normal, (pairs.map Prod.fst).Nodup ∧
      (∀ key, key ∈ pairs.map Prod.fst ↔ key ∈ schema.names.map Binary.text) ∧
      ∃ encoded, encodeRow schema pairs = .ok encoded := by
    intro pairs hp
    obtain ⟨row, hr, hok⟩ := exists_of_forall₂_right (mapM_eq_ok.mp hnormal) hp
    obtain ⟨pairs', hok', hkeys⟩ := hrows row hr
    cases hok.symm.trans hok'
    obtain ⟨-, -, -, hunique⟩ := normalizeRow_eq_ok hok
    exact ⟨hunique, hkeys⟩
  have hvalid : validateSchemaNames normal schema = .ok () := by
    refine validateSchemaNames_eq_ok.mpr fun pairs hp => List.isPerm_iff.mpr ?_
    exact (List.perm_ext_iff_of_nodup (hpairs pairs hp).1 (hnodup.map fun _ _ => Binary.text.inj)).mpr
      (hpairs pairs hp).2.1
  obtain ⟨encoded, hencoded⟩ := exists_mapM_ok fun pairs hp => (hpairs pairs hp).2.2
  have hnormalized : normalizeRows rows schema = .ok encoded := by
    unfold normalizeRows
    simp only [hnormal, hvalid, hencoded, bind, Except.bind]
  have hnames : ∀ row ∈ encoded, row.map Prod.fst = schema.names := by
    intro row hr
    obtain ⟨pairs, -, hok⟩ := exists_of_forall₂_right (mapM_eq_ok.mp hencoded) hr
    exact encodeRow_names hok
  have hbatch : ∀ chunk : List Row, (∀ row ∈ chunk, row ∈ encoded) →
      ∃ batch, Batch.new schema (columnsOf schema chunk) = .ok batch := by
    intro chunk hchunk
    obtain ⟨batch, hb, -⟩ := Batch.new_columnsOf hnodup hne fun row hr => hnames row (hchunk row hr)
    exact ⟨batch, hb⟩
  unfold batches
  rw [hi]
  simp only [bind, Except.bind, hnormalized]
  cases encoded with
  | nil =>
    obtain ⟨batch, hb⟩ := hbatch [] (by simp)
    exact ⟨[batch], by simp only [hb, pure, Except.pure]⟩
  | cons row rest =>
    exact exists_mapM_ok fun chunk hchunk => hbatch chunk (mem_chunkEvery hpos _ _ chunk hchunk).2.2

/-- Rows that all pass under the same names make batches of a plain schema. -/
theorem batches_plain {input : Term} {rows : List Term} {names : List String} (hi : finiteRows input = .ok rows)
    (hne : names ≠ []) (hnodup : names.Nodup)
    (hrows : ∀ row ∈ rows, ∃ pairs, normalizeRow row = .ok pairs ∧
      ∀ key, key ∈ pairs.map Prod.fst ↔ key ∈ names.map Binary.text) :
    ∃ bs, batches input (plainSchema names) 1 = .ok bs := by
  rw [← plainSchema_names names] at hne hnodup
  refine exists_batches hi (by decide) hne hnodup fun row hr => ?_
  obtain ⟨pairs, hpairs, hkeys⟩ := hrows row hr
  refine ⟨pairs, hpairs, by rw [plainSchema_names]; exact hkeys, encodeRow_plain fun name hname => ?_⟩
  exact (hkeys (.text name)).mpr (List.mem_map_of_mem hname)

/-- Batches come of rows that all pass. -/
theorem passes_of_batches {input : Term} {rows : List Term} {schema : Schema} {batchRows : Nat} {bs : List Batch}
    (hi : finiteRows input = .ok rows) (h : batches input schema batchRows = .ok bs) :
    ∀ row ∈ rows, ∃ pairs, normalizeRow row = .ok pairs := by
  unfold batches at h
  obtain ⟨rows', hrows, h⟩ := except_bind_eq_ok.mp h
  cases hi.symm.trans hrows
  obtain ⟨encoded, hencoded, -⟩ := except_bind_eq_ok.mp h
  have hall := normalizeRows_eq_ok hencoded
  intro row hr
  obtain ⟨i, hlt, rfl⟩ := List.getElem_of_mem hr
  have hlt' : i < encoded.length := hall.length_eq ▸ hlt
  obtain ⟨pairs, hpairs, -⟩ := encodedRow_eq_ok.mp ((List.forall₂_iff_get.mp hall).2 i hlt hlt')
  exact ⟨pairs, hpairs⟩

theorem toOption_ne {α β : Type} {x y : Except α β} {b : β} (hx : x = .ok b) (hy : ∀ b, y ≠ .ok b) :
    x.toOption ≠ y.toOption := by
  rw [hx]
  cases y with
  | ok b' => exact absurd rfl (hy b')
  | error e => simp [Except.toOption]

/-- One of two inputs passes and the other does not: some schema takes the one alone. -/
theorem exists_schema_apart (keys : List (Option Binary)) {passing failing : Term} {rows rows' : List Term}
    {entries : Nat → List (Term × Term)} {rowCount : Nat} (hi : finiteRows passing = .ok rows)
    (hi' : finiteRows failing = .ok rows') (hrows : rows = (List.range rowCount).map fun index => .map (entries index))
    (hne : keys ≠ []) (hkeys : ∀ index key,
      key ∈ (entries index).map (fun entry => normalizeName entry.1) ↔ key ∈ keys)
    (htext : ∀ key ∈ keys, ∀ raw, key ≠ some (.raw raw))
    (hpass : ∀ index, ∃ pairs, normalizeRow (.map (entries index)) = .ok pairs)
    (hfail : ∃ row ∈ rows', ∀ pairs, normalizeRow row ≠ .ok pairs) :
    ∃ schema batchRows, (batches passing schema batchRows).toOption ≠ (batches failing schema batchRows).toOption := by
  obtain ⟨first, hfirst⟩ := hpass 0
  obtain ⟨hnodup, hmem⟩ := normalizeRow_keys hfirst
  obtain ⟨names, hnames⟩ : ∃ names : List String, first.map Prod.fst = names.map .text := by
    apply exists_texts
    intro key hkey
    have hk := (hkeys 0 (some key)).mp ((hmem key).mp hkey)
    cases key with
    | text text => exact ⟨text, rfl⟩
    | raw raw => exact absurd rfl (htext _ hk raw)
  have hnamesNe : names ≠ [] := by
    rintro rfl
    obtain ⟨key, hkey⟩ := List.exists_mem_of_ne_nil keys hne
    have hentry := (hkeys 0 key).mpr hkey
    obtain ⟨name, rfl⟩ := Option.ne_none_iff_exists'.mp ((normalizeRow_map_isOk_iff.mp ⟨first, hfirst⟩).1 key hentry)
    have hname := (hmem name).mpr hentry
    rw [hnames] at hname
    cases hname
  have hnamesNodup : names.Nodup := List.Nodup.of_map _ (hnames ▸ hnodup)
  obtain ⟨bs, hbs⟩ := batches_plain hi hnamesNe hnamesNodup fun row hr => by
    rw [hrows] at hr
    obtain ⟨index, -, rfl⟩ := List.mem_map.mp hr
    obtain ⟨pairs, hpairs⟩ := hpass index
    refine ⟨pairs, hpairs, fun key => ?_⟩
    rw [(normalizeRow_keys hpairs).2, hkeys, ← hkeys 0, ← hmem, hnames]
  refine ⟨plainSchema names, 1, toOption_ne hbs fun bs' h => ?_⟩
  obtain ⟨row, hr, hrefused⟩ := hfail
  obtain ⟨pairs, hpairs⟩ := passes_of_batches hi' h row hr
  exact hrefused pairs hpairs

/-- What the entries of a merged row are normalized to. -/
theorem mem_mergedNames {columns : List Column} {index : Nat} {key : Option Binary} :
    key ∈ ((mapNew (columns.map fun column => (normalizeName column.1, column.2.getD index .nil))).map fun entry =>
      (nameTerm entry.1, entry.2)).map (fun entry => normalizeName entry.1) ↔
    key ∈ (columnNames columns).map renamed := by
  rw [List.map_map]
  simp only [Function.comp_def, normalizeName_nameTerm]
  obtain ⟨-, hmem⟩ := mapNew_keys (columns.map fun column => (normalizeName column.1, column.2.getD index .nil))
  constructor
  · intro hkey
    obtain ⟨entry, he, rfl⟩ := List.mem_map.mp hkey
    have hentry := (hmem entry.1).mp (List.mem_map_of_mem he)
    rw [List.map_map] at hentry
    exact List.mem_map_of_mem hentry
  · intro hkey
    obtain ⟨name, hname, rfl⟩ := List.mem_map.mp hkey
    have hentry := (hmem name).mpr (by rw [List.map_map]; exact hname)
    obtain ⟨entry, he, rfl⟩ := List.mem_map.mp hentry
    exact List.mem_map.mpr ⟨entry, he, rfl⟩

/-- Where the names do not agree, some schema takes one of the inputs and not the other. -/
theorem exists_schema_of_names {columns : List Column} {rowCount : Nat} (heven : Even columns rowCount)
    (htext : ∀ name ∈ columnNames columns, ∀ raw, name ≠ some (.raw raw)) (hpos : 0 < rowCount)
    (hnames : ¬ NamesAgree columns) : ∃ schema batchRows, (batches (columnMap columns) schema batchRows).toOption ≠
      (batches (.list (rowMaps columns rowCount)) schema batchRows).toOption := by
  have hnonempty : columnNames columns ≠ [] := by simpa [columnNames] using heven.nonempty
  have hzero : (0 : Nat) ∈ List.range rowCount := List.mem_range.mpr hpos
  by_cases hrow : RowNames columns
  · have hmerged : ¬ MergedNames columns := fun hm => hnames ⟨fun _ => hm, fun _ => hrow⟩
    obtain ⟨schema, batchRows, hne⟩ := exists_schema_apart (columnNames columns) finiteRows_rowMaps
      (finiteRows_columnMap heven) rfl hnonempty
      (fun index key => by rw [List.map_map]; exact Iff.rfl) htext
      (fun index => (rowMap_isOk_iff columns index).mpr hrow)
      ⟨mergedRow columns 0, List.mem_map_of_mem hzero, fun pairs hp =>
        hmerged ((mergedRow_isOk_iff columns 0).mp ⟨pairs, hp⟩)⟩
    exact ⟨schema, batchRows, hne.symm⟩
  · have hmerged : MergedNames columns := by
      by_contra hm
      exact hnames ⟨fun h => absurd h hrow, fun h => absurd h hm⟩
    refine exists_schema_apart ((columnNames columns).map renamed) (finiteRows_columnMap heven)
      finiteRows_rowMaps rfl (by simpa using hnonempty) (fun index key => mem_mergedNames) ?_
      (fun index => (mergedRow_isOk_iff columns index).mpr hmerged)
      ⟨_, List.mem_map_of_mem hzero, fun pairs hp => hrow ((rowMap_isOk_iff columns 0).mp ⟨pairs, hp⟩)⟩
    intro key hkey raw he
    obtain ⟨name, hname, rfl⟩ := List.mem_map.mp hkey
    cases name with
    | none => simp [renamed] at he
    | some name =>
      rw [renamed_some fun hempty => hmerged.1 (hempty ▸ hname)] at he
      exact htext _ hname raw he

/-- Columns come to the same as their rows, whatever the schema, exactly when their names agree or there are no rows. -/
theorem columns_as_rows_iff {columns : List Column} {rowCount : Nat} (heven : Even columns rowCount) :
    ((rowCount = 0 ∨ NamesAgree columns) →
      (∀ schema batchRows, batches (columnMap columns) schema batchRows =
        batches (.list (rowMaps columns rowCount)) schema batchRows) ∧
      ∀ inspect batchRows, inferAndBatches inspect (columnMap columns) batchRows =
        inferAndBatches inspect (.list (rowMaps columns rowCount)) batchRows) ∧
    ((∀ name ∈ columnNames columns, ∀ raw, name ≠ some (.raw raw)) →
      (∀ schema batchRows, (batches (columnMap columns) schema batchRows).toOption =
        (batches (.list (rowMaps columns rowCount)) schema batchRows).toOption) →
      rowCount = 0 ∨ NamesAgree columns) := by
  refine ⟨agree_of_names heven, fun htext hsame => ?_⟩
  by_contra h
  obtain ⟨hpos, hnames⟩ := not_or.mp h
  obtain ⟨schema, batchRows, hne⟩ := exists_schema_of_names heven htext (Nat.pos_of_ne_zero hpos) hnames
  exact hne (hsame schema batchRows)

/-- An atom and a string of the same text. -/
def twinColumns : List Column := [(.atom "a", [.int 1]), (.text "a", [.int 2])]

theorem twinColumns_even : Even twinColumns 1 where
  nonempty := List.cons_ne_nil _ _
  length := by simp [twinColumns]

theorem columns_as_rows_twin :
    ((1 = 0 ∨ NamesAgree twinColumns) →
      (∀ schema batchRows, batches (columnMap twinColumns) schema batchRows =
        batches (.list (rowMaps twinColumns 1)) schema batchRows) ∧
      ∀ inspect batchRows, inferAndBatches inspect (columnMap twinColumns) batchRows =
        inferAndBatches inspect (.list (rowMaps twinColumns 1)) batchRows) ∧
    ((∀ name ∈ columnNames twinColumns, ∀ raw, name ≠ some (.raw raw)) →
      (∀ schema batchRows, (batches (columnMap twinColumns) schema batchRows).toOption =
        (batches (.list (rowMaps twinColumns 1)) schema batchRows).toOption) →
      1 = 0 ∨ NamesAgree twinColumns) :=
  columns_as_rows_iff twinColumns_even

/-- Of the columns one is written under the name, of the same keys in a row neither. -/
theorem twin_columns_apart :
    ¬ ∀ (columns : List Column) (rowCount : Nat) (schema : Schema) (batchRows : Nat), Even columns rowCount →
      (batches (columnMap columns) schema batchRows).toOption =
        (batches (.list (rowMaps columns rowCount)) schema batchRows).toOption := by
  intro h
  have hone := h twinColumns 1 (plainSchema ["a"]) 1 twinColumns_even
  have hrows : (batches (.list (rowMaps twinColumns 1)) (plainSchema ["a"]) 1).toOption.isSome = false := by
    decide
  have hcolumns : (batches (columnMap twinColumns) (plainSchema ["a"]) 1).toOption.isSome = true := by decide
  rw [hone, hrows] at hcolumns
  cases hcolumns

end

end Input

end Parquex
