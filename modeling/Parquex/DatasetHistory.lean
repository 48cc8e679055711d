import Parquex.Conservation
import Parquex.PartialFailure

/-!
# Histories of a dataset

Calls of `Dataset.write` one after another. The parts that they publish hold the
rows of their inputs, each part beneath the path of the partition of its rows.
-/

namespace Parquex

/-! ## The names of parts -/

namespace DatasetWriter

/-- `part_name`, of a clock, a counter and some random text. -/
def partName (timestamp sequence : Nat) (random : String) : String :=
  "part-" ++ toString timestamp ++ "-" ++ toString sequence ++ "-" ++ random ++ ".parquet"

/-- The names that the runtime supplies are made by `part_name`. -/
def NamesParts (runtime : Runtime) : Prop :=
  ∀ call, ∃ timestamp sequence random, runtime.partName call = partName timestamp sequence random

/-- Every part is a Parquet file by its name. -/
structure Named (n : Native) : Prop where
  parts : ∀ part ∈ n.parts, hasSuffix part.key ".parquet" = true
  published : ∀ file ∈ n.published, hasSuffix file.key ".parquet" = true

open Effect

section
variable {dataset : Dataset} {settings : Settings} {runtime : Runtime} {n n' : Native}

theorem hasSuffix_partKey (hnames : NamesParts runtime) (path : String) (call : Nat) :
    hasSuffix (partKey dataset path (runtime.partName call)) ".parquet" = true := by
  obtain ⟨timestamp, sequence, random, hname⟩ := hnames call
  rw [hasSuffix_iff, hname]
  refine ⟨(dataset.prefix' ++ path ++ "/" ++ "part-" ++ toString timestamp ++ "-" ++ toString sequence ++ "-" ++
    random).toList, ?_⟩
  simp only [partKey, partName, String.toList_append, List.append_assoc]

theorem Named.of_eq (h : Named n) (hparts : n'.parts = n.parts) (hpublished : n'.published = n.published) : Named n' :=
  ⟨hparts ▸ h.parts, hpublished ▸ h.published⟩

theorem Named.set (h : Named n) {handle : Nat} {part : NativePart} (part' : NativePart)
    (hp : n.parts[handle]? = some part) (hkey : part'.key = part.key) (hparts : n'.parts = n.parts.set handle part')
    (hpublished : n'.published = n.published ∨ ∃ file, n'.published = n.published ++ [file] ∧ file.key = part.key) :
    Named n' := by
  have hsuffix := h.parts part (List.mem_of_getElem? hp)
  refine ⟨?_, ?_⟩
  · intro p hmem
    rw [hparts] at hmem
    rcases List.mem_or_eq_of_mem_set hmem with hmem | rfl
    · exact h.parts p hmem
    · rw [hkey]
      exact hsuffix
  · intro file hmem
    rcases hpublished with he | ⟨new, he, hnew⟩
    · rw [he] at hmem
      exact h.published file hmem
    · rw [he] at hmem
      rcases List.mem_append.mp hmem with hmem | hmem
      · exact h.published file hmem
      · rw [List.mem_singleton.mp hmem, hnew]
        exact hsuffix

theorem named_openWriter {key : String} (hkey : hasSuffix key ".parquet" = true) :
    Preserves Named (openWriter dataset settings runtime key) := by
  intro n hn
  refine holds_bind (preserves_lift n hn) fun key' n₁ hlift => ?_
  obtain ⟨hnormal, rfl⟩ := lift_eq_ok.mp hlift
  obtain ⟨rfl, -⟩ := normalizeKey_eq_ok (TimePartition.liftError_eq_ok.mp hnormal)
  refine (preserves_lift.bind fun fields => Preserves.bind ?_ fun _ => ?_) n hn
  · exact fun n hn => hn.of_eq (call_parts runtime n).1 (call_parts runtime n).2
  · refine fun n hn => ⟨fun part hmem => ?_, hn.published⟩
    rcases List.mem_append.mp hmem with hmem | hmem
    · exact hn.parts part hmem
    · rw [List.mem_singleton.mp hmem]
      exact hkey

theorem named_native (hnames : NamesParts runtime) : NativeKeeps dataset settings runtime Named where
  openEntry := fun partition _ _ n hn =>
    ((named_openWriter (hasSuffix_partKey hnames partition.path n.calls)).bind fun _ => preserves_pure) n hn
  writeBatch := by
    intro handle batch n hn
    obtain ⟨hpub, hparts | ⟨part, hp, -, hparts⟩⟩ := writeBatch_cases dataset settings runtime handle batch n
    · exact hn.of_eq hparts hpub
    · exact hn.set (NativePart.add part batch.toRows) hp rfl hparts (Or.inl hpub)
  closeWriter := by
    intro handle n hn
    by_cases hopen : ∃ part, n.parts[handle]? = some part ∧ part.status = .opened
    · obtain ⟨part, hp, hs⟩ := hopen
      rcases closeWriter_cases runtime hp hs with ⟨failure, -, -, hpub, hparts⟩ |
          ⟨-, ⟨-, hpub, hparts⟩ | ⟨file, hpub, hparts, -, hkey⟩⟩
      · exact hn.set { part with status := .failed } hp rfl hparts (Or.inl hpub)
      · exact hn.set { part with status := .failed } hp rfl hparts (Or.inl hpub)
      · exact hn.set { part with status := .published } hp rfl hparts (Or.inr ⟨file, hpub, hkey⟩)
    · rw [closeWriter_idle runtime hopen]
      exact hn

theorem named_closePaths (hnames : NamesParts runtime) (paths : List String) {st : State} (hn : Named n) :
    Named (closePaths dataset settings runtime paths st n).2 := by
  induction paths generalizing st n with
  | nil => exact hn
  | cons path paths ih =>
    have hpublish : Named (publishEntry dataset settings runtime path st n).2 :=
      (named_native hnames).publishEntry n hn
    unfold closePaths
    split
    · rename_i he
      rw [he] at hpublish
      exact ih hpublish
    · rename_i he
      rw [he] at hpublish
      exact hpublish
    · rename_i he
      rw [he] at hpublish
      exact hpublish

theorem Named.cancel (hn : Named n) (handle : Nat) : Named (n.cancel handle) := by
  unfold Native.cancel
  split
  · rename_i part hp
    split
    · exact hn
    · exact hn.set { part with status := .cancelled } hp rfl rfl (Or.inl rfl)
  · exact hn

theorem Named.cancelAll (hn : Named n) (st : State) : Named (cancelAll st n) := by
  unfold DatasetWriter.cancelAll
  induction st.active.entries generalizing n with
  | nil => exact hn
  | cons entry entries ih => exact ih (hn.cancel entry.2.writer)

theorem named_step (hnames : NamesParts runtime) {s : Server × Native} (hs : Named s.2) (c : Call) :
    Named (step dataset settings runtime s c).2.2 := by
  obtain ⟨server, n⟩ := s
  cases server with
  | stopped => cases c <;> exact hs
  | running st =>
    cases c with
    | write input =>
      have hwrite : Named (writeRows dataset settings runtime input st n).2 :=
        (preserves_lift.bind fun rows => (named_native hnames).routeRows) n hs
      show Named (handleWrite dataset settings runtime input st n).2.2
      unfold handleWrite
      split
      · rename_i he
        rw [he] at hwrite
        exact hwrite
      · rename_i he
        rw [he] at hwrite
        exact hwrite.cancelAll st
      · rename_i he
        rw [he] at hwrite
        exact hwrite.cancelAll st
    | close =>
      have hclose : Named (closePaths dataset settings runtime (activePaths st) st n).2 :=
        named_closePaths hnames _ hs
      show Named (handleClose dataset settings runtime st n).2.2
      unfold handleClose closeAll
      split
      · rename_i he
        rw [he] at hclose
        exact hclose.cancelAll _
      · rename_i he
        rw [he] at hclose
        exact hclose.cancelAll _
      · rename_i he
        rw [he] at hclose
        exact hclose.cancelAll st
    | cancel => exact hs.cancelAll st
    | ownerDown => exact hs.cancelAll st

theorem named_run (hnames : NamesParts runtime) (calls : List Call) :
    Named ((machine dataset settings runtime).run start calls).2 := by
  have hstart : Named (start).2 := ⟨fun part hmem => (by cases hmem), fun file hmem => (by cases hmem)⟩
  exact (machine dataset settings runtime).run_inv (I := fun s => Named s.2) hstart
    (fun s c hs => named_step hnames hs c) calls

end

end DatasetWriter

/-! ## Histories -/

/-- A call of `Dataset.write`, the items that it feeds to its writer and the report that it returns. -/
structure DatasetWrite where
  settings : DatasetWriter.Settings
  runtime : Runtime
  inputs : List DatasetWriter.WriteInput
  report : WriteReport

namespace DatasetWrite

open DatasetWriter

section
variable (dataset : Dataset) (write : DatasetWrite)

def calls : List Call := write.inputs.map Call.write ++ [.close]

def Succeeds : Prop :=
  (machine dataset write.settings write.runtime).replies start write.calls =
    write.inputs.map (fun _ => Reply.ok) ++ [.closed write.report]

def published : List PublishedPart :=
  ((machine dataset write.settings write.runtime).run start write.calls).2.published

/-- The rows of the inputs under the schema of the dataset. -/
def encodedRows : Except (Stop Error) (List Row) := do
  let rows ← TimePartition.liftError (write.inputs.mapM inputRows)
  rows.flatten.mapM (Input.encodedRow dataset.schema)

theorem Succeeds.accounts {dataset : Dataset} {write : DatasetWrite} (h : write.Succeeds dataset) :
    ∃ encoded, write.encodedRows dataset = .ok encoded ∧
      DatasetWriter.Accounts dataset encoded write.report (write.published dataset) := by
  obtain ⟨rows, encoded, hrows, hencoded, haccounts⟩ := accounts_of_replies h
  refine ⟨encoded, ?_, haccounts⟩
  unfold encodedRows
  rw [hrows]
  exact hencoded

end

/-- The parts that a history publishes, in order. -/
def publishedBy (dataset : Dataset) (history : List DatasetWrite) : List PublishedPart :=
  history.flatMap (published dataset)

end DatasetWrite

namespace Dataset

variable (dataset : Dataset)

/-- The path of the partition of the rows of a part. -/
def partPath (part : PublishedPart) : String := (part.rows.head?.bind dataset.pathOf).getD ""

/-- A part is a Parquet file beneath the path of its rows. -/
structure Placed (part : PublishedPart) : Prop where
  key : ∃ name, part.key = dataset.prefix' ++ dataset.partPath part ++ "/" ++ name
  suffix : hasSuffix part.key ".parquet" = true
  rows : ∀ row ∈ part.rows, dataset.pathOf row = some (dataset.partPath part)
  nonempty : part.rows ≠ []

variable {dataset}

open DatasetWriter

theorem placed_of_describes {part : Part} {file : PublishedPart} (h : DatasetWriter.Describes dataset part file)
    (hsuffix : hasSuffix file.key ".parquet" = true) : dataset.Placed file := by
  obtain ⟨name, hkey⟩ := h.below
  obtain ⟨t, ⟨⟨row, hrow, -⟩, -⟩, -⟩ := h.minimum
  have hne := List.ne_nil_of_mem hrow
  have hpath : dataset.partPath file = part.partition := by
    cases hrows : file.rows with
    | nil => exact absurd hrows hne
    | cons first rest =>
      have hfirst := h.placed first (by rw [hrows]; exact List.mem_cons_self)
      unfold partPath
      rw [hrows]
      simp only [List.head?_cons, Option.bind_some, hfirst, Option.getD_some]
  exact ⟨⟨name, by rw [hpath, hkey]⟩, hsuffix, fun row hr => by rw [hpath]; exact h.placed row hr, hne⟩

/-- The parts of a history hold its rows, each once. -/
theorem parts_of_history {history : List DatasetWrite} (hwrites : ∀ write ∈ history, write.Succeeds dataset)
    (hnames : ∀ write ∈ history, NamesParts write.runtime) :
    ∃ encoded, history.mapM (DatasetWrite.encodedRows dataset) = .ok encoded ∧
      ((DatasetWrite.publishedBy dataset history).flatMap PublishedPart.rows).Perm encoded.flatten ∧
      ∀ part ∈ DatasetWrite.publishedBy dataset history, dataset.Placed part := by
  have hone : ∀ write ∈ history, ∃ rows, write.encodedRows dataset = .ok rows ∧
      (((write.published dataset).flatMap PublishedPart.rows).Perm rows ∧
        ∀ part ∈ write.published dataset, dataset.Placed part) := by
    intro write hwrite
    obtain ⟨encoded, hencoded, haccounts⟩ := (hwrites write hwrite).accounts
    refine ⟨encoded, hencoded, haccounts.once, fun part hpart => ?_⟩
    obtain ⟨reported, -, hdescribes⟩ := exists_of_forall₂_right haccounts.described hpart
    exact placed_of_describes hdescribes ((named_run (hnames write hwrite) write.calls).published part hpart)
  obtain ⟨encoded, hencoded, hall⟩ := exists_mapM_related hone
  refine ⟨encoded, hencoded, ?_, ?_⟩
  · unfold DatasetWrite.publishedBy
    rw [List.flatMap_assoc]
    clear hencoded hone hwrites hnames
    induction hall with
    | nil => exact List.Perm.nil
    | cons hhead _ ih => exact hhead.1.append ih
  · intro part hpart
    obtain ⟨write, hwrite, hmem⟩ := List.mem_flatMap.mp hpart
    obtain ⟨rows, -, -, hplaced⟩ := hone write hwrite
    exact hplaced part hmem

end Dataset

/-! ## The tenth hour -/

section

open DatasetWriter

/-- Every native call succeeds, and parts are named as the library names them. -/
def namedRuntime : Runtime where
  answer := fun _ => .done 100
  partName := fun call => partName 0 call "a"
  externalSize := fun _ => 20

theorem namesParts_named : NamesParts namedRuntime := fun call => ⟨0, call, "a", rfl⟩

def clockHour (hour : Nat) : Partition where
  path := "year=1970/month=1/day=1/hour=" ++ toString hour
  start := ⟨hour * 3600000000, 6⟩
  until' := ⟨(hour + 1) * 3600000000, 6⟩

def tenthPart : Part := clockPart (clockHour 10).path "part-0-0-a.parquet" 1 36000 36000

/-- One row is written, at the beginning of the tenth hour. -/
def tenthWrite : DatasetWrite where
  settings := smallSettings
  runtime := namedRuntime
  inputs := [clockInput [36000]]
  report := { parts := [tenthPart], rows := 1, bytes := 100 }

def tenthRow : Row := [("at", .int 36000)]

def tenthKey : String := tenthPart.key

theorem tenthWrite_succeeds : ∀ write ∈ [tenthWrite], write.Succeeds (clockDataset .second) := by
  have h : tenthWrite.Succeeds (clockDataset .second) := by
    unfold DatasetWrite.Succeeds
    decide +kernel
  simpa using h

theorem tenthWrite_named : ∀ write ∈ [tenthWrite], NamesParts write.runtime := by
  rw [List.forall_mem_singleton]
  exact namesParts_named

theorem tenthWrite_encoded :
    [tenthWrite].mapM (DatasetWrite.encodedRows (clockDataset .second)) = .ok [[tenthRow]] := rfl

theorem tenthWrite_published : ∃ part, DatasetWrite.publishedBy (clockDataset .second) [tenthWrite] = [part] ∧
    part.key = tenthKey ∧ part.rows = [tenthRow] := by
  obtain ⟨encoded, hencoded, haccounts⟩ := (tenthWrite_succeeds tenthWrite List.mem_cons_self).accounts
  have hrow : tenthWrite.encodedRows (clockDataset .second) = .ok [tenthRow] := rfl
  rw [hrow] at hencoded
  cases hencoded
  have hrows := haccounts.once
  have hreport : tenthWrite.report.parts = [tenthPart] := rfl
  have hdescribed := haccounts.described
  rw [hreport] at hdescribed
  obtain ⟨part, rest, hpart, hrest, hpublished⟩ := List.forall₂_cons_left_iff.mp hdescribed
  rw [List.forall₂_nil_left_iff] at hrest
  rw [hpublished, hrest, List.flatMap_singleton] at hrows
  refine ⟨part, ?_, hpart.key.symm, List.perm_singleton.mp hrows⟩
  unfold DatasetWrite.publishedBy
  rw [List.flatMap_singleton, hpublished, hrest]

theorem tenthWrite_unique :
    ((DatasetWrite.publishedBy (clockDataset .second) [tenthWrite]).map PublishedPart.key).Nodup := by
  obtain ⟨part, hparts, -⟩ := tenthWrite_published
  rw [hparts]
  exact List.nodup_singleton _

end

end Parquex
