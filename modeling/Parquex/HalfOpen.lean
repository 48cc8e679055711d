import Parquex.DatasetOpen
import Parquex.EventTimeSound
import Parquex.InputSound
import Parquex.PlanSound

/-!
# Half-open ranges of a dataset stream

The bounds of a stream are rounded down to the unit of the dataset. What lies
strictly between the rounded bounds is not affected; a row on a rounded bound is
returned by what the bound was rounded from.
-/

namespace Parquex

/-! ## Bounds rounded down -/

section
variable {d x n : Int}

end

namespace DatasetStream

variable {dataset : Dataset} {options : Options} {settings : Settings} {plans : List Partition}

/-! ## What opening has checked -/

theorem openWith_eq_ok : openWith dataset options = .ok (settings, plans) ↔
    validateOptions options = .ok () ∧ ∃ from' until' fromEncoded untilEncoded outputSchema predicate,
      required options "from" = .ok from' ∧ required options "until" = .ok until' ∧
      dataset.partition.normalizeTimestamp from' = .ok fromEncoded ∧
      dataset.partition.normalizeTimestamp until' = .ok untilEncoded ∧
      dataset.partition.planWith from' until'
        [("max_partitions", (options.lookup "max_partitions").getD (.int 10000))] = .ok plans ∧
      projection dataset.schema ((options.lookup "columns").getD .nil) = .ok outputSchema ∧
      datasetPredicate dataset.schema ((options.lookup "where").getD .nil) = .ok predicate ∧
      settings = { dataset, outputSchema, from' := fromEncoded.1, until' := untilEncoded.1, predicate } := by
  unfold openWith
  simp only [except_bind_eq_ok, TimePartition.liftError_eq_ok, pure, Except.pure, Except.ok.injEq, Prod.mk.injEq]
  constructor
  · intro h
    obtain ⟨_, hvalid, from', hfrom, until', huntil, f, hf, u, hu, _, hplan, h⟩ := h
    obtain ⟨schema, hschema, predicate, hpredicate, hs, hp⟩ := h
    subst hp
    exact ⟨hvalid, from', until', f, u, schema, predicate, hfrom, huntil, hf, hu, hplan, hschema, hpredicate, hs.symm⟩
  · intro h
    obtain ⟨hvalid, from', until', f, u, schema, predicate, hfrom, huntil, hf, hu, h⟩ := h
    obtain ⟨hplan, hschema, hpredicate, hs⟩ := h
    exact ⟨(), hvalid, from', hfrom, until', huntil, f, hf, u, hu, plans, hplan, schema, hschema, predicate, hpredicate,
      hs.symm, rfl⟩

/-- The rows of a batch that a stream returns. -/
def returnedRows (settings : Settings) (batch : Batch) : List Row :=
  batch.toRows.filter fun row => keepRow settings row == some true

theorem filterAuxM_eq_some {α : Type} {f : α → Option Bool} {l acc out : List α}
    (h : List.filterAuxM f l acc = some out) :
    (∀ a ∈ l, ∃ b, f a = some b) ∧ out = (l.filter fun a => f a == some true).reverse ++ acc := by
  induction l generalizing acc with
  | nil => exact ⟨by simp, (Option.some.inj h).symm⟩
  | cons a l ih =>
    rw [List.filterAuxM] at h
    cases hf : f a with
    | none => simp [hf] at h
    | some b =>
      simp only [hf, Option.bind_eq_bind, Option.bind_some] at h
      obtain ⟨hall, rfl⟩ := ih h
      refine ⟨?_, ?_⟩
      · intro a' ha'
        rcases List.mem_cons.mp ha' with rfl | ha'
        · exact ⟨b, hf⟩
        · exact hall a' ha'
      · cases b <;> simp [hf]

theorem filterM_eq_some {α : Type} {f : α → Option Bool} {l out : List α} (h : l.filterM f = some out) :
    out = l.filter fun a => f a == some true := by
  unfold List.filterM at h
  cases hl : List.filterAuxM f l [] with
  | none => simp [hl] at h
  | some kept =>
    simp only [hl, Option.bind_eq_bind, Option.bind_some, Option.pure_def, Option.some.injEq] at h
    rw [← h, (filterAuxM_eq_some hl).2, List.append_nil, List.reverse_reverse]

theorem mapM_lookup {rows : List Row} {name : String} {values : List Term}
    (h : (rows.mapM fun row => row.lookup name) = some values) : values = rows.map fun row => row.get name := by
  have hall := mapM_eq_some.mp h
  clear h
  induction hall with
  | nil => rfl
  | cons hhead _ ih => rw [ih, List.map_cons, Row.get, hhead, Option.getD_some]

theorem outputColumns_eq {rows : List Row} {schema : Schema} {columns : List (String × Term)}
    (h : schema.fields.mapM (outputColumn rows) = some columns) :
    columns = columnsOf schema (rows.map fun row => schema.names.map fun name => (name, row.get name)) := by
  have hcolumns : columns = schema.names.map fun name => (name, .list (rows.map fun row => row.get name)) := by
    have hall := mapM_eq_some.mp h
    unfold Schema.names
    clear h
    generalize schema.fields = fields at hall
    induction hall with
    | nil => rfl
    | cons hhead _ ih =>
      simp only [outputColumn, Option.bind_eq_bind, Option.bind_eq_some_iff, Option.pure_def, Option.some.injEq] at hhead
      obtain ⟨values, hvalues, hhead⟩ := hhead
      rw [ih, List.map_cons, List.map_cons, ← hhead, mapM_lookup hvalues]
  rw [hcolumns]
  unfold columnsOf
  apply List.map_congr_left
  intro name hn
  rw [List.map_map]
  congr 2
  apply List.map_congr_left
  intro row _
  exact (Row.get_map (fun name => row.get name) hn).symm

/-- What a stream makes of a batch are the returned rows under the output schema. -/
theorem filterBatch_eq_ok {settings : Settings} {batch output : Batch} (hne : settings.outputSchema.names ≠ [])
    (h : filterBatch settings batch = .ok output) :
    output.toRows = (returnedRows settings batch).map fun row =>
      settings.outputSchema.names.map fun name => (name, row.get name) := by
  unfold filterBatch at h
  cases hrows : batch.toRows.filterM (keepRow settings) with
  | none => simp [hrows] at h
  | some rows =>
    cases hcolumns : settings.outputSchema.fields.mapM (outputColumn rows) with
    | none => simp [hrows, hcolumns] at h
    | some columns =>
      simp only [hrows, hcolumns, Option.bind_eq_bind, Option.bind_some] at h
      have hnodup := Input.new_names_nodup h
      rw [outputColumns_eq hcolumns, Input.mapNew_of_nodup (by simpa [columnsOf, Function.comp_def] using hnodup)] at h
      rw [(Input.new_columnsOf_eq_ok hne (by simp [Function.comp_def]) h).2, filterM_eq_some hrows]
      rfl

/-! ## Bounds between two ticks -/

theorem required_eq_ok {key : String} {value : Term} :
    required options key = .ok value ↔ options.lookup key = some value := by
  unfold required
  cases options.lookup key <;> simp

/-- One row in a file of the first hour. -/
def secondBatch (second : Int) : Batch where
  schema := (clockDataset .second).schema
  rowCount := 1
  columns := [("at", [.int second])]
  named := rfl
  even := by simp

end DatasetStream

end Parquex
