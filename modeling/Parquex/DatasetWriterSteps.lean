import Parquex.DatasetWriter
import Parquex.InputSound

/-!
# Steps of the dataset writer

What each function of the writer has done when it succeeds, said once: how it
changed the state of the process, and how the native writers.
-/

namespace Parquex

namespace DatasetWriter

open Effect

variable {dataset : Dataset} {settings : Settings} {runtime : Runtime}

theorem lift_eq_ok {α : Type} {x : Except (Stop Error) α} {n n' : Native} {a : α} :
    lift x n = (.ok a, n') ↔ x = .ok a ∧ n = n' := by
  unfold lift
  rw [ofExcept_eq_ok]
  cases x <;> simp [Except.mapError]

theorem fetchEntry_eq_ok {st : State} {path : String} {n n' : Native} {entry : Entry} :
    fetchEntry st path n = (.ok entry, n') ↔ st.active.lookup path = some entry ∧ n = n' := by
  unfold fetchEntry
  cases st.active.lookup path with
  | none => simp [Effect.fail]
  | some entry' => simp [pure_eq_ok]

/-! ## Native calls -/

variable (runtime) in
/-- A native call only counts itself. -/
theorem call_parts (n : Native) :
    (call runtime n).2.parts = n.parts ∧ (call runtime n).2.published = n.published := by
  unfold call
  split <;> exact ⟨rfl, rfl⟩

/-- A new part at the end. -/
def newPart (settings : Settings) (key : String) (fields : List Field) : NativePart :=
  { key, fields, maxBatchRows := settings.maxBatchRows, rows := [], status := .opened }

theorem openWriter_ok {key : String} {handle : Nat} {n n' : Native}
    (h : openWriter dataset settings runtime key n = (.ok handle, n')) :
    handle = n.parts.length ∧ AcceptedKey key ∧ n'.published = n.published ∧
      ∃ fields, arrowFields dataset.schema.fields = .ok fields ∧
        n'.parts = n.parts ++ [newPart settings key fields] := by
  obtain ⟨key', n₁, hkey, h₁⟩ := bind_eq_ok.mp h
  obtain ⟨fields, n₂, hfields, h₂⟩ := bind_eq_ok.mp h₁
  obtain ⟨size, n₃, hcall, hadd⟩ := bind_eq_ok.mp h₂
  obtain ⟨hk, rfl⟩ := lift_eq_ok.mp hkey
  obtain ⟨hf, rfl⟩ := lift_eq_ok.mp hfields
  obtain ⟨he, hacc⟩ := normalizeKey_eq_ok (TimePartition.liftError_eq_ok.mp hk)
  have hparts := call_parts runtime n
  rw [hcall] at hparts
  cases hadd
  refine ⟨hparts.1 ▸ rfl, hacc, hparts.2, fields, TimePartition.nativeResult_eq_ok.mp hf, ?_⟩
  show n₃.parts ++ _ = _
  rw [hparts.1, he]
  rfl

/-- A part with more rows. -/
def NativePart.add (part : NativePart) (rows : List Row) : NativePart := { part with rows := part.rows ++ rows }

theorem writeBatch_ok {handle : Nat} {batch : Batch} {n n' : Native} {u : Unit}
    (h : writeBatch dataset settings runtime handle batch n = (.ok u, n')) :
    ∃ part record, n.parts[handle]? = some part ∧ part.status = .opened ∧
      decodeBatch batch.toNative part.fields part.maxBatchRows = .ok record ∧
      n'.published = n.published ∧ n'.parts = n.parts.set handle (NativePart.add part batch.toRows) := by
  unfold writeBatch at h
  by_cases h₁ : (!batch.schema.beq dataset.schema) = true
  · rw [if_pos h₁] at h
    cases h
  rw [if_neg h₁] at h
  by_cases h₂ : batch.rowCount > settings.maxBatchRows
  · rw [if_pos h₂] at h
    cases h
  rw [if_neg h₂] at h
  cases hp : n.parts[handle]? with
  | none =>
    rw [hp] at h
    cases h
  | some part =>
    rw [hp] at h
    simp only at h
    by_cases h₃ : part.status ≠ .opened
    · rw [if_pos h₃] at h
      cases h
    rw [if_neg h₃] at h
    cases hd : decodeBatch batch.toNative part.fields part.maxBatchRows with
    | error failure =>
      rw [hd] at h
      cases h
    | ok record =>
      rw [hd] at h
      have hparts := call_parts runtime n
      cases hc : call runtime n with
      | mk result n₁ =>
        rw [hc] at h hparts
        cases result with
        | error stop => cases h
        | ok size =>
          cases h
          refine ⟨part, record, rfl, not_not.mp h₃, hd, hparts.2, ?_⟩
          show n₁.parts.set handle _ = _
          rw [hparts.1]
          rfl

theorem closeWriter_ok {handle size : Nat} {n n' : Native} (h : closeWriter runtime handle n = (.ok size, n')) :
    ∃ part, n.parts[handle]? = some part ∧ part.status = .opened ∧
      n'.parts = n.parts.set handle { part with status := .published } ∧
      n'.published = n.published ++ [{ key := part.key, rows := part.rows, size }] := by
  unfold closeWriter at h
  cases hp : n.parts[handle]? with
  | none =>
    rw [hp] at h
    cases h
  | some part =>
    rw [hp] at h
    simp only at h
    by_cases h₁ : part.status ≠ .opened
    · rw [if_pos h₁] at h
      cases h
    rw [if_neg h₁] at h
    have hparts := call_parts runtime n
    cases hc : call runtime n with
    | mk result n₁ =>
      rw [hc] at h hparts
      cases result with
      | error stop => cases ha : runtime.answer n.calls with
        | refused failure placed =>
          rw [ha] at h
          cases placed <;> cases h
        | _ =>
          rw [ha] at h
          cases h
      | ok size' =>
        cases h
        refine ⟨part, rfl, not_not.mp h₁, ?_, ?_⟩
        · show n₁.parts.set handle _ = _
          rw [hparts.1]
        · show n₁.published ++ _ = _
          rw [hparts.2]

/-! ## Entries -/

theorem openEntry_ok {partition : Partition} {datetime : DateTime} {st st' : State} {n n' : Native}
    (h : openEntry dataset settings runtime partition datetime st n = (.ok st', n')) :
    ∃ name fields, arrowFields dataset.schema.fields = .ok fields ∧ AcceptedKey (partKey dataset partition.path name) ∧
      n'.published = n.published ∧
      n'.parts = n.parts ++ [newPart settings (partKey dataset partition.path name) fields] ∧
      st' = { st with
        active := st.active.insert partition.path {
          writer := n.parts.length
          key := partKey dataset partition.path name
          partition := partition.path
          rows := 0
          estimatedBytes := 0
          buffer := []
          minTimestamp := datetime
          maxTimestamp := datetime
          access := st.access + 1 }
        access := st.access + 1 } := by
  obtain ⟨writer, n₁, hopen, h⟩ := bind_eq_ok.mp h
  obtain ⟨hst, rfl⟩ := pure_eq_ok.mp h
  obtain ⟨hwriter, hacc, hpublished, fields, harrow, hparts⟩ := openWriter_ok hopen
  exact ⟨runtime.partName n.calls, fields, harrow, hacc, hpublished, hparts, by rw [← hst, hwriter]⟩

/-- Written batches append their rows, and each was accepted. -/
theorem writeBatches_ok {handle : Nat} :
    ∀ (batches : List Batch) {part : NativePart} {n n' : Native} {u u' : Unit}, n.parts[handle]? = some part →
      batches.foldlM (fun _ batch => writeBatch dataset settings runtime handle batch) u n = (.ok u', n') →
      n'.published = n.published ∧
        n'.parts = n.parts.set handle (NativePart.add part (batches.flatMap Batch.toRows)) ∧
        ∀ batch ∈ batches, ∃ record, decodeBatch batch.toNative part.fields part.maxBatchRows = .ok record
  | [], part, n, n', _, _, hp, h => by
    obtain ⟨-, rfl⟩ := pure_eq_ok.mp h
    refine ⟨rfl, ?_, by simp⟩
    have hadd : NativePart.add part ([].flatMap Batch.toRows) = part := by simp [NativePart.add]
    rw [hadd]
    apply List.ext_getElem?
    intro i
    rw [List.getElem?_set]
    split
    · rename_i hi
      rw [← hi, if_pos (List.getElem?_eq_some_iff.mp hp).1, hp]
    · rfl
  | batch :: batches, part, n, n', _, _, hp, h => by
    rw [List.foldlM_cons] at h
    obtain ⟨u, n₁, hwrite, h⟩ := bind_eq_ok.mp h
    obtain ⟨part', record, hp', -, hdecode, hpub, hparts⟩ := writeBatch_ok hwrite
    rw [hp] at hp'
    cases hp'
    have hlt : handle < n.parts.length := (List.getElem?_eq_some_iff.mp hp).1
    have hp₁ : n₁.parts[handle]? = some (NativePart.add part batch.toRows) := by
      rw [hparts, List.getElem?_set_self hlt]
    obtain ⟨hpub', hparts', hall⟩ := writeBatches_ok batches hp₁ h
    refine ⟨hpub'.trans hpub, ?_, ?_⟩
    · rw [hparts', hparts, List.set_set]
      simp [NativePart.add]
    · intro b hb
      rcases List.mem_cons.mp hb with rfl | hb
      · exact ⟨record, hdecode⟩
      · exact hall b hb

/-- A flush writes the buffer of an entry, or has nothing to do. -/
theorem flushEntry_ok {path : String} {st st' : State} {n n' : Native}
    (h : flushEntry dataset settings runtime path st n = (.ok st', n')) :
    ∃ entry, st.active.lookup path = some entry ∧
      (entry.buffer = [] ∧ st' = st ∧ n' = n ∨
        ∃ batches, Input.batches (.list entry.buffer.reverse) dataset.schema settings.batchRows = .ok batches ∧
          writeBatches dataset settings runtime entry.writer batches n = (.ok (), n') ∧
          st' = { st with active := st.active.insert path { entry with buffer := [] } }) := by
  obtain ⟨entry, n₁, hentry, h⟩ := bind_eq_ok.mp h
  obtain ⟨hlookup, rfl⟩ := fetchEntry_eq_ok.mp hentry
  refine ⟨entry, hlookup, ?_⟩
  by_cases hb : entry.buffer.isEmpty = true
  · rw [if_pos hb] at h
    obtain ⟨hst, hn⟩ := pure_eq_ok.mp h
    exact Or.inl ⟨List.isEmpty_iff.mp hb, hst.symm, hn.symm⟩
  · rw [if_neg hb] at h
    obtain ⟨batches, n₂, hbatches, h⟩ := bind_eq_ok.mp h
    obtain ⟨u, n₃, hwrite, h⟩ := bind_eq_ok.mp h
    obtain ⟨hst, rfl⟩ := pure_eq_ok.mp h
    obtain ⟨hok, rfl⟩ := lift_eq_ok.mp hbatches
    exact Or.inr ⟨batches, TimePartition.liftError_eq_ok.mp hok, hwrite, hst.symm⟩

theorem closePart_ok {writer size : Nat} {reports : List Part} {n n' : Native}
    (h : closePart runtime writer reports n = (.ok size, n')) : closeWriter runtime writer n = (.ok size, n') := by
  unfold closePart at h
  split at h
  · cases h
    assumption
  · cases h
  · cases h

/-- A publication flushes an entry, closes its writer and reports its part. -/
theorem publishEntry_ok {path : String} {st st' : State} {n n' : Native}
    (h : publishEntry dataset settings runtime path st n = (.ok st', n')) :
    ∃ st₁ n₁ entry size, flushEntry dataset settings runtime path st n = (.ok st₁, n₁) ∧
      st₁.active.lookup path = some entry ∧ closeWriter runtime entry.writer n₁ = (.ok size, n') ∧
      st' = { st₁ with active := st₁.active.erase path, reports := partOf entry size :: st₁.reports } := by
  obtain ⟨st₁, n₁, hflush, h⟩ := bind_eq_ok.mp h
  obtain ⟨entry, n₂, hentry, h⟩ := bind_eq_ok.mp h
  obtain ⟨size, n₃, hclose, h⟩ := bind_eq_ok.mp h
  obtain ⟨hst, rfl⟩ := pure_eq_ok.mp h
  obtain ⟨hlookup, rfl⟩ := fetchEntry_eq_ok.mp hentry
  exact ⟨st₁, n₁, entry, size, hflush, hlookup, closePart_ok hclose, hst.symm⟩

theorem makeRoom_ok {st st' : State} {n n' : Native} (h : makeRoom dataset settings runtime st n = (.ok st', n')) :
    st.active.entries.length < settings.maxOpenPartitions ∧ st' = st ∧ n' = n ∨
      ∃ path, oldest st = some path ∧ publishEntry dataset settings runtime path st n = (.ok st', n') := by
  unfold makeRoom at h
  by_cases hlt : st.active.entries.length < settings.maxOpenPartitions
  · rw [if_pos hlt] at h
    obtain ⟨rfl, rfl⟩ := pure_eq_ok.mp h
    exact Or.inl ⟨hlt, rfl, rfl⟩
  · rw [if_neg hlt] at h
    cases ho : oldest st with
    | none =>
      rw [ho] at h
      cases h
    | some path =>
      rw [ho] at h
      exact Or.inr ⟨path, rfl, h⟩

/-- A row finds its entry, or one is opened after at most one publication. -/
theorem ensureEntry_ok {partition : Partition} {datetime : DateTime} {row : Term} {st st' : State} {n n' : Native}
    (h : ensureEntry dataset settings runtime partition datetime row st n = (.ok st', n')) :
    (∃ entry, st.active.lookup partition.path = some entry ∧ full settings runtime entry row = false ∧
        st' = st ∧ n' = n) ∨
      ∃ st₁ n₁, (st.active.entries.length < settings.maxOpenPartitions ∧ st₁ = st ∧ n₁ = n ∧
            st.active.lookup partition.path = none ∨
          ∃ path, publishEntry dataset settings runtime path st n = (.ok st₁, n₁) ∧
            (path = partition.path ∨ st.active.lookup partition.path = none)) ∧
        openEntry dataset settings runtime partition datetime st₁ n₁ = (.ok st', n') := by
  unfold ensureEntry at h
  cases hl : st.active.lookup partition.path with
  | some entry =>
    rw [hl] at h
    simp only at h
    by_cases hf : full settings runtime entry row = true
    · rw [if_pos hf] at h
      obtain ⟨st₁, n₁, hpublish, h⟩ := bind_eq_ok.mp h
      exact Or.inr ⟨st₁, n₁, Or.inr ⟨_, hpublish, Or.inl rfl⟩, h⟩
    · rw [if_neg hf] at h
      obtain ⟨rfl, rfl⟩ := pure_eq_ok.mp h
      exact Or.inl ⟨entry, rfl, Bool.eq_false_iff.mpr hf, rfl, rfl⟩
  | none =>
    rw [hl] at h
    obtain ⟨st₁, n₁, hroom, h⟩ := bind_eq_ok.mp h
    refine Or.inr ⟨st₁, n₁, ?_, h⟩
    rcases makeRoom_ok hroom with ⟨hlt, rfl, rfl⟩ | ⟨path, -, hpublish⟩
    · exact Or.inl ⟨hlt, rfl, rfl, rfl⟩
    · exact Or.inr ⟨path, hpublish, Or.inr rfl⟩

theorem appendRow_ok {path : String} {datetime : DateTime} {row : Term} {st st' : State} {n n' : Native}
    (h : appendRow dataset settings runtime path datetime row st n = (.ok st', n')) :
    ∃ entry st₁, st.active.lookup path = some entry ∧
      st₁ = { st with
        active := st.active.insert path (entry.append datetime row (runtime.externalSize row) (st.access + 1))
        access := st.access + 1 } ∧
      (entry.buffer.length + 1 < settings.batchRows ∧ st' = st₁ ∧ n' = n ∨
        flushEntry dataset settings runtime path st₁ n = (.ok st', n')) := by
  obtain ⟨entry, n₁, hentry, h⟩ := bind_eq_ok.mp h
  obtain ⟨hlookup, rfl⟩ := fetchEntry_eq_ok.mp hentry
  refine ⟨entry, _, hlookup, rfl, ?_⟩
  split at h
  · exact Or.inr h
  · rename_i hlt
    obtain ⟨hst, hn⟩ := pure_eq_ok.mp h
    exact Or.inl ⟨Nat.lt_of_not_le hlt, hst.symm, hn.symm⟩

theorem routeRow_ok {row : Term} {st st' : State} {n n' : Native}
    (h : routeRow dataset settings runtime st row n = (.ok st', n')) :
    ∃ partition datetime st₁ n₁, route dataset row = .ok (partition, datetime) ∧
      ensureEntry dataset settings runtime partition datetime row st n = (.ok st₁, n₁) ∧
      appendRow dataset settings runtime partition.path datetime row st₁ n₁ = (.ok st', n') := by
  unfold routeRow at h
  rw [bind_eq_ok] at h
  obtain ⟨⟨partition, datetime⟩, n₁, hroute, h⟩ := h
  obtain ⟨hr, rfl⟩ := lift_eq_ok.mp hroute
  simp only at h
  obtain ⟨st₁, n₂, hensure, h⟩ := bind_eq_ok.mp h
  exact ⟨partition, datetime, st₁, n₂, hr, hensure, h⟩

end DatasetWriter

end Parquex
