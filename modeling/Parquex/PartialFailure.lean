import Parquex.Conservation

/-!
# Failures of the dataset writer

When a failing call is answered, what was published and what was left open. A
failing write reports and cancels from the state before the call, a failing close
from the state before the part it failed at: the report is honest exactly when
the call had not yet opened or published a part, and when it is the close of a
part that failed.
-/

namespace Parquex

namespace DatasetWriter

open Effect

/-! ## Honest errors -/

/-- The error lists what was published, and no native writer is left behind. -/
structure Honest (error : ReportedError) (n : Native) : Prop where
  lists : ∃ report, error.published = some report ∧
    report.parts.map (fun part => (part.key, part.size)) = n.published.map fun file => (file.key, file.size)
  settled : ∀ part ∈ n.parts, part.status = .published ∨ part.status = .cancelled

section
variable (dataset : Dataset) (settings : Settings) (runtime : Runtime)

/-- What a row needs before it is appended. -/
inductive Need
  | nothing
  | publish (path : String)
  | openPart
  deriving DecidableEq

def need (st : State) (path : String) (row : Term) : Need :=
  match st.active.lookup path with
  | some entry => if full settings runtime entry row then .publish path else .nothing
  | none =>
    if st.active.entries.length < settings.maxOpenPartitions then .openPart
    else
      match oldest st with
      | some path => .publish path
      | none => .openPart

/-- The next native call is refused and leaves no object. -/
def CloseRefused (n : Native) : Prop := ∃ failure, runtime.answer n.calls = .refused failure false

/-- A publication fails before its part is in place. -/
def PublishRefused (path : String) (st : State) (n : Native) : Prop :=
  match flushEntry dataset settings runtime path st n with
  | (.ok _, n) => CloseRefused runtime n
  | (.error (.error _), _) => True
  | (.error .raised, _) => False

def OpenRefused (partition : Partition) (datetime : DateTime) (st : State) (n : Native) : Prop :=
  ∃ error n', openEntry dataset settings runtime partition datetime st n = (.error (.error error), n')

/-- Rows that find their parts open and with room, up to a row that is refused before a part is opened or published. -/
def RowsRefused : List Term → State → Native → Prop
  | [], _, _ => True
  | row :: rows, st, n =>
    match route dataset row with
    | .error (.error _) => True
    | .error .raised => False
    | .ok (partition, datetime) =>
      match need settings runtime st partition.path row with
      | .publish path => PublishRefused dataset settings runtime path st n
      | .openPart => OpenRefused dataset settings runtime partition datetime st n
      | .nothing =>
        match appendRow dataset settings runtime partition.path datetime row st n with
        | (.ok st, n) => RowsRefused rows st n
        | (.error (.error _), _) => True
        | (.error .raised, _) => False

/-- Every buffer is written, up to a part whose close is refused. -/
def ClosesRefused : List String → State → Native → Prop
  | [], _, _ => True
  | path :: paths, st, n =>
    match flushEntry dataset settings runtime path st n with
    | (.error _, _) => False
    | (.ok _, n₁) =>
      match publishEntry dataset settings runtime path st n with
      | (.ok st, n) => ClosesRefused paths st n
      | (.error _, _) => CloseRefused runtime n₁

/-- The failing calls that report honestly. -/
def FailsCleanly (s : Server × Native) (c : Call) : Prop :=
  match s.1, c with
  | .running st, .write input =>
    match inputRows input with
    | .error _ => True
    | .ok rows => RowsRefused dataset settings runtime rows st s.2
  | .running st, .close => ClosesRefused dataset settings runtime (activePaths st) st s.2
  | _, _ => False

end

variable {dataset : Dataset} {settings : Settings} {runtime : Runtime}

/-! ## Native states that only grow -/

/-- Routing adds parts and publishes some; it cancels none and undoes nothing. -/
structure Later (base n : Native) : Prop where
  published : base.published <+: n.published
  length : base.parts.length ≤ n.parts.length
  fresh : ∀ (handle : Nat) (part : NativePart), base.parts.length ≤ handle → n.parts[handle]? = some part →
    part.status ≠ .cancelled ∧ (part.status = .published → base.published.length < n.published.length)
  kept : ∀ (handle : Nat) (part : NativePart), base.parts[handle]? = some part → part.status = .published →
    ∃ part' : NativePart, n.parts[handle]? = some part' ∧ part'.status = .published

/-- No part was added and none was published. -/
structure Quiet (base n : Native) : Prop where
  published : n.published = base.published
  length : n.parts.length = base.parts.length

theorem Later.refl (n : Native) : Later n n where
  published := List.prefix_refl _
  length := Nat.le_refl _
  fresh := by
    intro handle part hh hp
    have := (List.getElem?_eq_some_iff.mp hp).1
    omega
  kept := fun _ part hp hs => ⟨part, hp, hs⟩

theorem Quiet.refl (n : Native) : Quiet n n := ⟨rfl, rfl⟩

section
variable {base n n' : Native}

theorem Later.of_eq (h : Later base n) (hp : n'.parts = n.parts) (hpub : n'.published = n.published) : Later base n' := by
  obtain ⟨h₁, h₂, h₃, h₄⟩ := h
  refine ⟨?_, ?_, ?_, ?_⟩
  · rwa [hpub]
  · rwa [hp]
  · rwa [hp, hpub]
  · rwa [hp]

theorem Quiet.of_eq (h : Quiet base n) (hp : n'.parts = n.parts) (hpub : n'.published = n.published) :
    Quiet base n' := ⟨hpub.trans h.published, by rw [hp]; exact h.length⟩

/-- An open part changes its rows or its status; it is published only with its file. -/
theorem Later.set (h : Later base n) {handle : Nat} {part part' : NativePart} (hp : n.parts[handle]? = some part)
    (hopened : part.status = .opened) (hparts : n'.parts = n.parts.set handle part')
    (hstatus : part'.status ≠ .cancelled)
    (hpublished : n'.published = n.published ∧ part'.status ≠ .published ∨
      ∃ file, n'.published = n.published ++ [file]) : Later base n' := by
  have hlt := (List.getElem?_eq_some_iff.mp hp).1
  have hprefix : n.published <+: n'.published := by
    rcases hpublished with ⟨he, -⟩ | ⟨file, he⟩
    · rw [he]
    · rw [he]
      exact List.prefix_append _ _
  refine ⟨h.published.trans hprefix, ?_, ?_, ?_⟩
  · rw [hparts, List.length_set]
    exact h.length
  · intro i p hi hip
    rw [hparts] at hip
    have hle := h.published.length_le
    by_cases he : i = handle
    · rw [he, List.getElem?_set_self hlt] at hip
      cases hip
      refine ⟨hstatus, fun hs => ?_⟩
      rcases hpublished with ⟨-, hn⟩ | ⟨file, hf⟩
      · exact absurd hs hn
      · rw [hf, List.length_append, List.length_singleton]
        omega
    · rw [List.getElem?_set_ne (Ne.symm he)] at hip
      obtain ⟨h₁, h₂⟩ := h.fresh i p hi hip
      exact ⟨h₁, fun hs => Nat.lt_of_lt_of_le (h₂ hs) hprefix.length_le⟩
  · intro i p hi hs
    obtain ⟨p', hp', hs'⟩ := h.kept i p hi hs
    have hne : i ≠ handle := by
      rintro rfl
      rw [hp] at hp'
      cases hp'
      rw [hopened] at hs'
      cases hs'
    exact ⟨p', by rw [hparts, List.getElem?_set_ne (Ne.symm hne)]; exact hp', hs'⟩

/-! ## What each native call preserves -/

theorem preserves_lift {I : Native → Prop} {α : Type} {x : Except (Stop Error) α} : Preserves I (lift x) :=
  preserves_ofExcept

theorem preserves_fetchEntry {I : Native → Prop} {st : State} {path : String} : Preserves I (fetchEntry st path) := by
  unfold fetchEntry
  cases st.active.lookup path with
  | none => exact preserves_fail
  | some entry => exact preserves_pure

theorem later_call : Preserves (Later base) (call runtime) := fun n h =>
  h.of_eq (call_parts _ n).1 (call_parts _ n).2

theorem quiet_call : Preserves (Quiet base) (call runtime) := fun n h =>
  h.of_eq (call_parts _ n).1 (call_parts _ n).2

theorem later_addPart {part : NativePart} (hs : part.status = .opened) : Preserves (Later base) (addPart part) := by
  intro n h
  have hlen : base.parts.length ≤ n.parts.length := h.length
  refine ⟨h.published, ?_, ?_, ?_⟩
  · show base.parts.length ≤ (n.parts ++ [part]).length
    rw [List.length_append]
    omega
  · intro i p hi hp
    change (n.parts ++ [part])[i]? = some p at hp
    by_cases hlt : i < n.parts.length
    · rw [List.getElem?_append_left hlt] at hp
      exact h.fresh i p hi hp
    · rw [List.getElem?_append_right (by omega)] at hp
      obtain ⟨hb, hget⟩ := List.getElem?_eq_some_iff.mp hp
      have hpart : p = part := by
        rw [← hget]
        exact List.getElem_singleton _
      rw [hpart, hs]
      exact ⟨by decide, fun hc => by cases hc⟩
  · intro i p hi hst
    obtain ⟨p', hp', hs'⟩ := h.kept i p hi hst
    refine ⟨p', ?_, hs'⟩
    show (n.parts ++ [part])[i]? = some p'
    rw [List.getElem?_append_left (List.getElem?_eq_some_iff.mp hp').1]
    exact hp'

theorem later_openWriter {key : String} : Preserves (Later base) (openWriter dataset settings runtime key) :=
  preserves_lift.bind fun _ => preserves_lift.bind fun _ => later_call.bind fun _ => later_addPart rfl

/-- No writer was opened when an opening fails. -/
theorem openEntry_failed {partition : Partition} {datetime : DateTime} {st : State} {stop : Stop ReportedError}
    (h : openEntry dataset settings runtime partition datetime st n = (.error stop, n')) :
    n'.parts = n.parts ∧ n'.published = n.published := by
  rcases bind_eq_error.mp h with h | ⟨writer, n₁, -, h⟩
  · rcases bind_eq_error.mp h with h | ⟨key, n₁, h₁, h⟩
    · obtain rfl : n = n' := congrArg Prod.snd h
      exact ⟨rfl, rfl⟩
    · obtain ⟨-, rfl⟩ := lift_eq_ok.mp h₁
      rcases bind_eq_error.mp h with h | ⟨fields, n₂, h₂, h⟩
      · obtain rfl : n = n' := congrArg Prod.snd h
        exact ⟨rfl, rfl⟩
      · obtain ⟨-, rfl⟩ := lift_eq_ok.mp h₂
        rcases bind_eq_error.mp h with h | ⟨size, n₃, -, h⟩
        · have hcall := call_parts runtime n
          rw [h] at hcall
          exact hcall
        · cases h
  · cases h

variable (dataset settings runtime) in
/-- A batch changes the rows of an open part, if anything. -/
theorem writeBatch_cases (handle : Nat) (batch : Batch) (n : Native) :
    (writeBatch dataset settings runtime handle batch n).2.published = n.published ∧
      ((writeBatch dataset settings runtime handle batch n).2.parts = n.parts ∨
        ∃ part, n.parts[handle]? = some part ∧ part.status = .opened ∧
          (writeBatch dataset settings runtime handle batch n).2.parts =
            n.parts.set handle (NativePart.add part batch.toRows)) := by
  cases hw : writeBatch dataset settings runtime handle batch n with
  | mk result n' =>
    cases result with
    | ok u =>
      obtain ⟨part, record, hp, hs, -, hpub, hparts⟩ := writeBatch_ok hw
      exact ⟨hpub, Or.inr ⟨part, hp, hs, hparts⟩⟩
    | error stop =>
      have hcall := call_parts runtime n
      unfold writeBatch at hw
      split at hw
      · cases hw
        exact ⟨rfl, Or.inl rfl⟩
      split at hw
      · cases hw
        exact ⟨rfl, Or.inl rfl⟩
      split at hw
      · cases hw
        exact ⟨rfl, Or.inl rfl⟩
      split at hw
      · cases hw
        exact ⟨rfl, Or.inl rfl⟩
      split at hw
      · cases hw
        exact ⟨rfl, Or.inl rfl⟩
      split at hw
      · cases hw
      · rename_i hc
        rw [hc] at hcall
        cases hw
        exact ⟨hcall.2, Or.inl hcall.1⟩

theorem later_writeBatch {handle : Nat} {batch : Batch} :
    Preserves (Later base) (writeBatch dataset settings runtime handle batch) := by
  intro n h
  obtain ⟨hpub, hparts | ⟨part, hp, hs, hparts⟩⟩ :=
    writeBatch_cases dataset settings runtime handle batch n
  · exact h.of_eq hparts hpub
  · have hopened : (NativePart.add part batch.toRows).status = .opened := hs
    exact h.set hp hs hparts (by rw [hopened]; decide) (Or.inl ⟨hpub, by rw [hopened]; decide⟩)

theorem quiet_writeBatch {handle : Nat} {batch : Batch} :
    Preserves (Quiet base) (writeBatch dataset settings runtime handle batch) := by
  intro n h
  obtain ⟨hpub, hparts | ⟨part, hp, hs, hparts⟩⟩ :=
    writeBatch_cases dataset settings runtime handle batch n
  · exact h.of_eq hparts hpub
  · exact ⟨hpub.trans h.published, by rw [hparts, List.length_set, h.length]⟩

variable (runtime) in
/-- The close of an open part goes as its answer says. -/
theorem closeWriter_cases {handle : Nat} {part : NativePart} (hp : n.parts[handle]? = some part)
    (hs : part.status = .opened) :
    (∃ failure, runtime.answer n.calls = .refused failure false ∧
      (closeWriter runtime handle n).1 = .error (.error { error := .fromNative failure, published := none }) ∧
      (closeWriter runtime handle n).2.published = n.published ∧
      (closeWriter runtime handle n).2.parts = n.parts.set handle { part with status := .failed }) ∨
    ((∀ failure, runtime.answer n.calls ≠ .refused failure false) ∧
      ((closeWriter runtime handle n).1 = .error .raised ∧
        (closeWriter runtime handle n).2.published = n.published ∧
        (closeWriter runtime handle n).2.parts = n.parts.set handle { part with status := .failed } ∨
      ∃ file, (closeWriter runtime handle n).2.published = n.published ++ [file] ∧
        (closeWriter runtime handle n).2.parts = n.parts.set handle { part with status := .published } ∧
        file.rows = part.rows ∧ file.key = part.key)) := by
  unfold closeWriter
  rw [hp]
  simp only
  rw [if_neg (by rw [hs]; simp)]
  unfold call
  cases ha : runtime.answer n.calls with
  | done size => exact Or.inr ⟨by simp, Or.inr ⟨_, rfl, rfl, rfl, rfl⟩⟩
  | refused failure placed =>
    cases placed with
    | false => exact Or.inl ⟨failure, rfl, rfl, rfl, rfl⟩
    | true => exact Or.inr ⟨by simp, Or.inr ⟨_, rfl, rfl, rfl, rfl⟩⟩
  | raised => exact Or.inr ⟨by simp, Or.inl ⟨rfl, rfl, rfl⟩⟩

variable (runtime) in
/-- A close that finds no open part changes nothing. -/
theorem closeWriter_idle {handle : Nat} (h : ¬ ∃ part, n.parts[handle]? = some part ∧ part.status = .opened) :
    (closeWriter runtime handle n).2 = n := by
  unfold closeWriter
  cases hp : n.parts[handle]? with
  | none => rfl
  | some part =>
    simp only
    rw [if_pos fun hs => h ⟨part, hp, hs⟩]
    rfl

theorem later_closeWriter {handle : Nat} : Preserves (Later base) (closeWriter runtime handle) := by
  intro n h
  by_cases hopen : ∃ part, n.parts[handle]? = some part ∧ part.status = .opened
  · obtain ⟨part, hp, hs⟩ := hopen
    rcases closeWriter_cases runtime hp hs with ⟨f, -, -, hpub, hparts⟩ |
        ⟨-, ⟨-, hpub, hparts⟩ | ⟨file, hpub, hparts, -⟩⟩
    · exact h.set hp hs hparts (fun hc => by cases hc) (Or.inl ⟨hpub, fun hc => by cases hc⟩)
    · exact h.set hp hs hparts (fun hc => by cases hc) (Or.inl ⟨hpub, fun hc => by cases hc⟩)
    · exact h.set hp hs hparts (fun hc => by cases hc) (Or.inr ⟨file, hpub⟩)
  · rw [closeWriter_idle runtime hopen]
    exact h

theorem closePart_native (writer : Nat) (reports : List Part) (n : Native) :
    (closePart runtime writer reports n).2 = (closeWriter runtime writer n).2 := by
  unfold closePart
  split <;> simp_all

/-! ## What each step of the process preserves -/

section
variable (dataset settings runtime) in
/-- What the calls on the native writers preserve. -/
structure NativeKeeps (I : Native → Prop) : Prop where
  openEntry : ∀ partition datetime st, Preserves I (openEntry dataset settings runtime partition datetime st)
  writeBatch : ∀ handle batch, Preserves I (writeBatch dataset settings runtime handle batch)
  closeWriter : ∀ handle, Preserves I (closeWriter runtime handle)

namespace NativeKeeps

variable {I : Native → Prop} (h : NativeKeeps dataset settings runtime I)
include h

theorem flushEntry {path : String} {st : State} :
    Preserves I (flushEntry dataset settings runtime path st) := by
  refine preserves_fetchEntry.bind fun entry => ?_
  split
  · exact preserves_pure
  · exact preserves_lift.bind fun batches =>
      (preserves_foldlM (fun _ batch => h.writeBatch entry.writer batch) batches ()).bind fun _ => preserves_pure

theorem publishEntry {path : String} {st : State} :
    Preserves I (publishEntry dataset settings runtime path st) := by
  refine h.flushEntry.bind fun _ => preserves_fetchEntry.bind fun entry => Preserves.bind ?_ fun _ => preserves_pure
  intro n hn
  rw [closePart_native]
  exact h.closeWriter entry.writer n hn

theorem makeRoom {st : State} : Preserves I (makeRoom dataset settings runtime st) := by
  unfold DatasetWriter.makeRoom
  split
  · exact preserves_pure
  · split
    · exact h.publishEntry
    · exact preserves_fail

theorem ensureEntry {partition : Partition} {datetime : DateTime} {row : Term} {st : State} :
    Preserves I (ensureEntry dataset settings runtime partition datetime row st) := by
  unfold DatasetWriter.ensureEntry
  split
  · split
    · exact h.publishEntry.bind fun st => h.openEntry partition datetime st
    · exact preserves_pure
  · exact h.makeRoom.bind fun st => h.openEntry partition datetime st

theorem appendRow {path : String} {datetime : DateTime} {row : Term} {st : State} :
    Preserves I (appendRow dataset settings runtime path datetime row st) := by
  refine preserves_fetchEntry.bind fun entry => ?_
  simp only
  split
  · exact h.flushEntry
  · exact preserves_pure

theorem routeRow {row : Term} {st : State} : Preserves I (routeRow dataset settings runtime st row) :=
  preserves_lift.bind fun _ => h.ensureEntry.bind fun _ => h.appendRow

theorem routeRows {rows : List Term} {st : State} : Preserves I (routeRows dataset settings runtime rows st) :=
  preserves_foldlM (fun _ _ => h.routeRow) rows st

end NativeKeeps

end

theorem later_openEntry {partition : Partition} {datetime : DateTime} {st : State} :
    Preserves (Later base) (openEntry dataset settings runtime partition datetime st) := fun n h =>
  (later_openWriter.bind fun _ => preserves_pure) n h

theorem later_native : NativeKeeps dataset settings runtime (Later base) :=
  ⟨fun _ _ _ => later_openEntry, fun _ _ => later_writeBatch, fun _ => later_closeWriter⟩

theorem quiet_flushEntry {path : String} {st : State} :
    Preserves (Quiet base) (flushEntry dataset settings runtime path st) := by
  refine preserves_fetchEntry.bind fun entry => ?_
  split
  · exact preserves_pure
  · exact preserves_lift.bind fun batches =>
      (preserves_foldlM (fun _ _ => quiet_writeBatch) batches ()).bind fun _ => preserves_pure

theorem quiet_appendRow {path : String} {datetime : DateTime} {row : Term} {st : State} :
    Preserves (Quiet base) (appendRow dataset settings runtime path datetime row st) := by
  refine preserves_fetchEntry.bind fun entry => ?_
  simp only
  split
  · exact quiet_flushEntry
  · exact preserves_pure

end

end DatasetWriter

end Parquex
