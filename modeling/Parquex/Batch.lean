import Parquex.BatchDecode
import Parquex.EventTime
import Parquex.Schema

/-!
# Batches

Named columns of one length in the order of a schema, the rows they expand to,
and their form at the native boundary.
-/

namespace Parquex

/-- Named values; a map of the library whose keys are strings. -/
abbrev Row := List (String × Term)

def Row.get (row : Row) (name : String) : Term := (row.lookup name).getD .nil

structure Batch where
  schema : Schema
  rowCount : Nat
  columns : List (String × List Term)
  named : columns.map Prod.fst = schema.names
  even : ∀ column ∈ columns, column.2.length = rowCount

namespace Batch

def invalidBatch (message : String) : Error := .invalid "batch_new" message

def invalidNativeBatch : Error where
  category := .nativeFailure
  operation := "batch_translation"
  message := "native boundary returned an invalid batch"

/-! ## Construction -/

def alignInputColumns (schema : Schema) (pairs : List (String × Term)) : Except Error (List (String × Term)) :=
  if (pairs.map Prod.fst).Nodup ∧ (pairs.map Prod.fst).isPerm schema.names then
    .ok (schema.names.map fun name => (name, (pairs.lookup name).getD .nil))
  else .error (invalidBatch "batch columns must match the schema exactly")

def inputRowCount : List (String × Term) → Except Error Nat
  | [] => .ok 0
  | (_, .list values) :: _ => .ok values.length
  | _ => .error (invalidBatch "batch columns must be lists")

def listColumn (column : String × Term) : Option (String × List Term) :=
  column.2.list?.map fun values => (column.1, values)

def validateColumns (schema : Schema) (rowCount : Nat) (columns : List (String × Term)) : Option Batch :=
  match columns.mapM listColumn with
  | none => none
  | some columns =>
    if h : columns.map Prod.fst = schema.names ∧ ∀ column ∈ columns, column.2.length = rowCount then
      some { schema, rowCount, columns, named := h.1, even := h.2 }
    else none

def new (schema : Schema) (pairs : List (String × Term)) : Except Error Batch := do
  let aligned ← alignInputColumns schema pairs
  let rowCount ← inputRowCount aligned
  match validateColumns schema rowCount aligned with
  | some batch => return batch
  | none => throw (invalidBatch "batch column lengths must match")

def fromNative (schema : Schema) : Term → Except Error Batch
  | .tuple [.atom "batch", .int rowCount, .list columns] =>
    if rowCount < 0 then .error invalidNativeBatch
    else
      match (columns.mapM decodeColumn).bind (validateColumns schema rowCount.toNat) with
      | some batch => .ok batch
      | none => .error invalidNativeBatch
  | _ => .error invalidNativeBatch

/-! ## Access -/

def column (batch : Batch) (name : String) : List Term := (batch.columns.lookup name).getD []

def rowAt (batch : Batch) (index : Nat) : Row :=
  batch.schema.names.map fun name => (name, (batch.column name).getD index .nil)

def toRows (batch : Batch) : List Row := (List.range batch.rowCount).map batch.rowAt

def toNative (batch : Batch) : Term :=
  .tuple [.atom "batch", .int batch.rowCount,
    .list (batch.schema.names.map fun name => .tuple [.text name, .list (batch.column name)])]

end Batch

/-- The columns of some rows. -/
def columnsOf (schema : Schema) (rows : List Row) : List (String × Term) :=
  schema.names.map fun name => (name, .list (rows.map fun row => row.get name))

/-! ## Rows of columns and columns of rows -/

theorem lookup_map_of_mem {α : Type} {names : List String} {name : String} (f : String → α) (h : name ∈ names) :
    (names.map fun name => (name, f name)).lookup name = some (f name) := by
  induction names with
  | nil => cases h
  | cons head names ih =>
    by_cases he : name = head
    · rw [he]
      exact List.lookup_cons_self
    · have hmem : name ∈ names := (List.mem_cons.mp h).resolve_left he
      have hb : (name == head) = false := by rw [beq_eq_false_iff_ne]; exact he
      simp only [List.map_cons, List.lookup_cons, hb, ih hmem]

theorem Row.get_map {names : List String} {name : String} (f : String → Term) (h : name ∈ names) :
    Row.get (names.map fun name => (name, f name)) name = f name := by
  unfold Row.get
  rw [lookup_map_of_mem f h]
  rfl

/-- A row with unique names is what its names look up. -/
theorem Row.eq_map_get (row : Row) (h : (row.map Prod.fst).Nodup) :
    ((row.map Prod.fst).map fun name => (name, row.get name)) = row := by
  induction row with
  | nil => rfl
  | cons entry row ih =>
    obtain ⟨name, value⟩ := entry
    simp only [List.map_cons, List.nodup_cons] at h ⊢
    have hrest : ((row.map Prod.fst).map fun n => (n, Row.get ((name, value) :: row) n)) =
        (row.map Prod.fst).map fun n => (n, Row.get row n) := by
      apply List.map_congr_left
      intro n hn
      have hne : n ≠ name := fun he => h.1 (he ▸ hn)
      have hb : (n == name) = false := by rw [beq_eq_false_iff_ne]; exact hne
      simp only [Row.get, List.lookup_cons, hb]
    rw [hrest, ih h.2]
    simp [Row.get]

namespace Batch

variable {schema : Schema} {rows : List Row}

theorem mapM_listColumn (names : List String) (f : String → List Term) :
    (names.map fun name => (name, Term.list (f name))).mapM listColumn = some (names.map fun name => (name, f name)) := by
  induction names with
  | nil => rfl
  | cons name names ih =>
    rw [List.map_cons, List.mapM_cons, ih]
    rfl

/-- Rows that have the names of a schema make a batch, which expands to them. -/
theorem new_columnsOf (hnodup : schema.names.Nodup) (hne : schema.names ≠ [])
    (hrows : ∀ row ∈ rows, row.map Prod.fst = schema.names) :
    ∃ batch, Batch.new schema (columnsOf schema rows) = .ok batch ∧ batch.schema = schema ∧
      batch.rowCount = rows.length ∧ (∀ name ∈ schema.names, batch.column name = rows.map fun row => row.get name) ∧
      batch.toRows = rows := by
  let f : String → List Term := fun name => rows.map fun row => row.get name
  have hfst : (columnsOf schema rows).map Prod.fst = schema.names := by
    unfold columnsOf
    rw [List.map_map]
    exact List.map_id _
  have haligned : alignInputColumns schema (columnsOf schema rows) = .ok (columnsOf schema rows) := by
    unfold alignInputColumns
    rw [hfst, if_pos ⟨hnodup, List.isPerm_iff.mpr (List.Perm.refl _)⟩]
    congr 1
    apply List.map_congr_left
    intro name hn
    unfold columnsOf
    rw [lookup_map_of_mem (fun name => Term.list (f name)) hn]
    rfl
  have hcount : inputRowCount (columnsOf schema rows) = .ok rows.length := by
    unfold columnsOf
    cases hs : schema.names with
    | nil => exact absurd hs hne
    | cons name names => simp [inputRowCount]
  have heven : ∀ column ∈ schema.names.map fun name => (name, f name), column.2.length = rows.length := by
    intro column hc
    obtain ⟨name, -, rfl⟩ := List.mem_map.mp hc
    simp [f]
  have hnames : (schema.names.map fun name => (name, f name)).map Prod.fst = schema.names := by
    rw [List.map_map]
    exact List.map_id _
  let batch : Batch := ⟨schema, rows.length, schema.names.map fun name => (name, f name), hnames, heven⟩
  have hcolumn : ∀ name ∈ schema.names, batch.column name = f name := by
    intro name hn
    show ((schema.names.map fun name => (name, f name)).lookup name).getD [] = f name
    rw [lookup_map_of_mem f hn]
    rfl
  have hvalid : validateColumns schema rows.length (columnsOf schema rows) = some batch := by
    unfold validateColumns columnsOf
    rw [mapM_listColumn schema.names f]
    simp only
    rw [dif_pos ⟨hnames, heven⟩]
  refine ⟨batch, ?_, rfl, rfl, hcolumn, ?_⟩
  · unfold Batch.new
    rw [haligned]
    show (inputRowCount (columnsOf schema rows) >>= _) = _
    rw [hcount]
    show (match validateColumns schema rows.length (columnsOf schema rows) with
      | some batch => pure batch
      | none => throw (invalidBatch "batch column lengths must match")) = Except.ok batch
    rw [hvalid]
    rfl
  · apply List.ext_getElem
    · simp [toRows, batch]
    · intro i hi hi'
      have hnames_i := hrows rows[i] (List.getElem_mem hi')
      simp only [toRows, List.getElem_map, List.getElem_range]
      have heq := Row.eq_map_get rows[i] (by rw [hnames_i]; exact hnodup)
      rw [hnames_i] at heq
      refine Eq.trans ?_ heq
      apply List.map_congr_left
      intro name hn
      rw [hcolumn name hn]
      simp [f, List.getD_eq_getElem?_getD, List.getElem?_eq_getElem hi']

end Batch

end Parquex
