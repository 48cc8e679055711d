import Parquex.PartialFailure

/-!
# Bounds of the dataset writer

However its rows are spread over partitions, the process keeps few writers open,
short buffers and small parts, and makes room by publishing the part that has
waited longest for a row. A native call that raises shows the writers as they are
at that call, so what holds whatever the calls answer holds at any moment.
-/

namespace Parquex

/-- A writer that is neither published nor cancelled. -/
def NativePart.live (part : NativePart) : Bool := decide (part.status = .opened) || decide (part.status = .failed)

def Native.live (n : Native) : Nat := n.parts.countP NativePart.live

/-- Other answers for the native calls. -/
def Runtime.answering (runtime : Runtime) (answer : Nat → Answer) : Runtime := { runtime with answer }

namespace DatasetWriter

open Effect

section
variable (dataset : Dataset) (settings : Settings) (externalSize : Term → Nat)

/-- The partition a row goes to. -/
def routedPath (row : Term) : Option String := (route dataset row).toOption.map fun routed => routed.1.path

/-- How many of the rows came after the last row of the path. -/
def waited (rows : List Term) (path : String) : Nat :=
  rows.reverse.findIdx fun row => routedPath dataset row == some path

/-- What a flush of an entry passes on to its writer. -/
def passed (entry : Entry) : List Batch :=
  if entry.buffer.isEmpty then []
  else
    match Input.batches (.list entry.buffer.reverse) dataset.schema settings.batchRows with
    | .ok batches => batches
    | .error _ => []

/-- The rows of a file were routed in their order, and are few and small. -/
structure FileBounds (rows : List Term) (file : PublishedPart) : Prop where
  pos : 1 ≤ file.rows.length
  le : file.rows.length ≤ settings.maxRowsPerFile
  bytes : ∃ terms, terms.Sublist rows ∧
    List.Forall₂ (fun term row => Input.encodedRow dataset.schema term = .ok row) terms file.rows ∧
    ((terms.map externalSize).sum ≤ settings.maxBytesPerFile ∨ terms.length = 1)

structure Within (rows : List Term) (n : Native) : Prop where
  live : n.live ≤ settings.maxOpenPartitions
  files : ∀ file ∈ n.published, FileBounds dataset settings externalSize rows file

end

/-! ## Writers that live -/

section
variable {dataset : Dataset} {settings : Settings} {runtime : Runtime} {n n' : Native} {handle : Nat} {part part' : NativePart}

theorem live_set (hp : n.parts[handle]? = some part) (hparts : n'.parts = n.parts.set handle part')
    (hlive : part.live = true) : n'.live + 1 = n.live + if part'.live then 1 else 0 := by
  obtain ⟨hlt, hget⟩ := List.getElem?_eq_some_iff.mp hp
  have hpos : 0 < n.parts.countP NativePart.live :=
    List.countP_pos_iff.mpr ⟨part, List.mem_of_getElem? hp, hlive⟩
  unfold Native.live
  rw [hparts, List.countP_set hlt, hget, hlive, if_pos rfl]
  omega

theorem live_of_status (hs : part.status = .opened) : part.live = true := by
  unfold NativePart.live
  rw [hs]
  rfl

/-- A batch leaves the number of writers and the files. -/
theorem writeBatch_live {batch : Batch} {m : Nat} {files : List PublishedPart} :
    Preserves (fun n => n.live = m ∧ n.published = files) (writeBatch dataset settings runtime handle batch) := by
  intro n ⟨hm, hfiles⟩
  obtain ⟨hpub, hparts | ⟨part, hp, hs, hparts⟩⟩ := writeBatch_cases dataset settings runtime handle batch n
  · refine ⟨?_, hpub.trans hfiles⟩
    unfold Native.live at hm ⊢
    rw [hparts, hm]
  · have hset := live_set hp hparts (live_of_status hs)
    have hadded : (NativePart.add part batch.toRows).live = true := live_of_status hs
    rw [if_pos hadded] at hset
    exact ⟨by omega, hpub.trans hfiles⟩

variable (dataset settings runtime) in
theorem flushEntry_live (path : String) (st : State) {m : Nat} {files : List PublishedPart} :
    Preserves (fun n => n.live = m ∧ n.published = files) (flushEntry dataset settings runtime path st) := by
  refine preserves_fetchEntry.bind fun entry => ?_
  split
  · exact preserves_pure
  · exact preserves_lift.bind fun batches =>
      (preserves_foldlM (fun _ _ => writeBatch_live) batches ()).bind fun _ => preserves_pure

theorem flushEntry_live_ok {path : String} {st st' : State}
    (h : flushEntry dataset settings runtime path st n = (.ok st', n')) :
    n'.live = n.live ∧ n'.published = n.published := by
  have hlive := flushEntry_live dataset settings runtime path st n ⟨rfl, rfl⟩
  rwa [h] at hlive

variable (dataset settings runtime) in
theorem appendRow_live (path : String) (datetime : DateTime) (row : Term) (st : State) {m : Nat}
    {files : List PublishedPart} :
    Preserves (fun n => n.live = m ∧ n.published = files) (appendRow dataset settings runtime path datetime row st) := by
  refine preserves_fetchEntry.bind fun entry => ?_
  simp only
  split
  · exact flushEntry_live dataset settings runtime path _
  · exact preserves_pure

variable (runtime) in
/-- A close ends a writer or leaves it failed, and publishes its rows if anything. -/
theorem closeWriter_live (hp : n.parts[handle]? = some part) (hs : part.status = .opened) :
    (closeWriter runtime handle n).2.live ≤ n.live ∧
      ((closeWriter runtime handle n).2.published = n.published ∨ ∃ file, file.rows = part.rows ∧
        (closeWriter runtime handle n).2.published = n.published ++ [file]) := by
  have hlive := live_of_status hs
  have hle : ∀ part' : NativePart, (closeWriter runtime handle n).2.parts = n.parts.set handle part' →
      (closeWriter runtime handle n).2.live ≤ n.live := by
    intro part' hparts
    have hset := live_set hp hparts hlive
    split at hset <;> omega
  rcases closeWriter_cases runtime hp hs with ⟨failure, -, -, hpub, hparts⟩ |
      ⟨-, ⟨-, hpub, hparts⟩ | ⟨file, hpub, hparts, hrows, -⟩⟩
  · exact ⟨hle _ hparts, Or.inl hpub⟩
  · exact ⟨hle _ hparts, Or.inl hpub⟩
  · exact ⟨hle _ hparts, Or.inr ⟨file, hrows, hpub⟩⟩

variable (dataset settings runtime n) in
theorem openEntry_live (partition : Partition) (datetime : DateTime) (st : State) :
    (openEntry dataset settings runtime partition datetime st n).2.live ≤ n.live + 1 ∧
      (openEntry dataset settings runtime partition datetime st n).2.published = n.published := by
  cases ho : openEntry dataset settings runtime partition datetime st n with
  | mk result n' =>
    cases result with
    | ok st' =>
      obtain ⟨name, fields, -, -, hpub, hparts, -⟩ := openEntry_ok ho
      refine ⟨?_, hpub⟩
      unfold Native.live
      rw [hparts, List.countP_append]
      exact Nat.add_le_add_left (List.countP_le_length (p := NativePart.live)) _
    | error stop =>
      obtain ⟨hparts, hpub⟩ := openEntry_failed ho
      refine ⟨?_, hpub⟩
      unfold Native.live
      rw [hparts]
      exact Nat.le_succ _

end

/-! ## Entries by path -/

section
variable {active : AList fun _ : String => Entry} {path q : String} {entry entry' e : Entry}

theorem lookup_insert_cases (h : (active.insert path entry').lookup q = some e) :
    q = path ∧ e = entry' ∨ q ≠ path ∧ active.lookup q = some e := by
  by_cases hq : q = path
  · subst hq
    rw [AList.lookup_insert, Option.some.injEq] at h
    exact Or.inl ⟨rfl, h.symm⟩
  · rw [AList.lookup_insert_ne hq] at h
    exact Or.inr ⟨hq, h⟩

theorem lookup_erase_cases (h : (active.erase path).lookup q = some e) : q ≠ path ∧ active.lookup q = some e := by
  by_cases hq : q = path
  · subst hq
    rw [AList.lookup_erase] at h
    cases h
  · rw [AList.lookup_erase_ne hq] at h
    exact ⟨hq, h⟩

theorem entries_length (active : AList fun _ : String => Entry) : active.entries.length = active.keys.length := by
  simp [AList.keys, List.keys]

theorem mem_keys_of_lookup (h : active.lookup path = some entry) : path ∈ active.keys :=
  AList.mem_keys.mp (AList.lookup_isSome.mp (by rw [h]; rfl))

theorem length_erase (h : active.lookup path = some entry) :
    (active.erase path).entries.length + 1 = active.entries.length := by
  have hmem := mem_keys_of_lookup h
  have hpos := List.length_pos_of_mem hmem
  rw [entries_length, entries_length, AList.keys_erase, List.length_erase_of_mem hmem]
  omega

theorem length_insert (h : active.lookup path = some entry) :
    (active.insert path entry').entries.length = active.entries.length := by
  have hmem := mem_keys_of_lookup h
  have hpos := List.length_pos_of_mem hmem
  rw [entries_length, entries_length, AList.keys_insert, List.length_cons, List.length_erase_of_mem hmem]
  omega

theorem length_insert_new (h : active.lookup path = none) :
    (active.insert path entry').entries.length = active.entries.length + 1 := by
  have hmem : path ∉ active.keys := fun hm => AList.lookup_eq_none.mp h (AList.mem_keys.mpr hm)
  rw [entries_length, entries_length, AList.keys_insert, List.length_cons, List.erase_of_not_mem hmem]

end

/-! ## The invariant -/

/-- How many rows came after the last one of the path. -/
def since (routed : List Routed) (path : String) : Nat := routed.reverse.findIdx fun r => r.path = path

theorem since_append_self (routed : List Routed) (r : Routed) : since (routed ++ [r]) r.path = 0 := by
  simp [since, List.findIdx_cons]

theorem since_append_ne (routed : List Routed) {r : Routed} {path : String} (h : r.path ≠ path) :
    since (routed ++ [r]) path = since routed path + 1 := by
  simp [since, List.findIdx_cons, h]

section
variable (dataset : Dataset) (settings : Settings) (externalSize : Term → Nat)

/-- What an entry says of the rows of its part. -/
structure Sized (rows : List Routed) (entry : Entry) : Prop where
  estimated : entry.estimatedBytes = (rows.map fun r => externalSize r.row).sum
  count_le : rows.length ≤ settings.maxRowsPerFile
  bytes_le : entry.estimatedBytes ≤ settings.maxBytesPerFile ∨ rows.length = 1

/-- The entry of a path that is ready has not had the row it was opened for. -/
structure Sizes (ready : Option (String × DateTime)) (routed : List Routed) (current : String → List Routed)
    (st : State) (n : Native) : Prop where
  sized : ∀ path entry, st.active.lookup path = some entry → Sized settings externalSize (current path) entry
  short : ∀ path entry, st.active.lookup path = some entry → entry.buffer.length < settings.batchRows
  room : st.active.entries.length ≤ settings.maxOpenPartitions
  live : n.live = st.active.entries.length
  access_le : ∀ path entry, st.active.lookup path = some entry → entry.access ≤ st.access
  recent : ∀ p q e e', st.active.lookup p = some e → st.active.lookup q = some e' →
    (∀ d, ready ≠ some (q, d)) → since routed p < since routed q → e'.access < e.access
  files : ∀ file ∈ n.published, FileBounds dataset settings externalSize (routed.map Routed.row) file

/-- A row goes to an entry with room for it, which was opened for it if it is ready. -/
structure Ready (ready : Option (String × DateTime)) (st : State) (r : Routed) : Prop where
  ready : ready = none ∨ ready = some (r.path, r.datetime)
  room : ∀ entry, st.active.lookup r.path = some entry → entry.rows = 0 ∨
    entry.rows + 1 ≤ settings.maxRowsPerFile ∧
      entry.estimatedBytes + externalSize r.row ≤ settings.maxBytesPerFile

/-- Both invariants about the rows routed so far. -/
def Bounded (ready : Option (String × DateTime)) (routed : List Routed) (st : State) (n : Native) : Prop :=
  ∃ done current, Invariant dataset ready routed done current st n ∧
    Sizes dataset settings externalSize ready routed current st n

end

variable {dataset : Dataset} {settings : Settings} {externalSize : Term → Nat} {runtime : Runtime}

theorem FileBounds.mono {rows : List Term} {file : PublishedPart} (h : FileBounds dataset settings externalSize rows file)
    (more : List Term) : FileBounds dataset settings externalSize (rows ++ more) file := by
  obtain ⟨terms, hsub, hrest⟩ := h.bytes
  exact ⟨h.pos, h.le, terms, hsub.trans (List.sublist_append_left _ _), hrest⟩

variable (dataset settings externalSize) in
theorem init_bounded : Bounded dataset settings externalSize none [] init .fresh := by
  obtain ⟨done, current, h⟩ := init_conserves dataset
  refine ⟨done, current, h, ?_, ?_, Nat.zero_le _, rfl, ?_, ?_, ?_⟩
  · intro path entry hl
    cases hl
  · intro path entry hl
    cases hl
  · intro path entry hl
    cases hl
  · intro p q e e' hp
    cases hp
  · intro file hf
    cases hf

section
variable {ready : Option (String × DateTime)} {routed : List Routed} {done : List Done}
  {current : String → List Routed} {st st' : State} {n n' : Native} {path : String}

theorem current_sublist (h : Invariant dataset ready routed done current st n) (path : String) :
    (current path).Sublist routed := by
  have hsub : (current path).Sublist (routed.filter fun r => r.path = path) := by
    rw [h.split path]
    exact List.sublist_append_right _ _
  exact hsub.trans List.filter_sublist

theorem current_ne_nil (h : Invariant dataset none routed done current st n) {entry : Entry}
    (hl : st.active.lookup path = some entry) : current path ≠ [] := by
  rcases h.bounds path entry hl with hb | ⟨-, hr, -⟩
  · obtain ⟨r, hr, -⟩ := hb.lowerMem
    exact List.ne_nil_of_mem hr
  · cases hr

/-- The file of an entry that was flushed keeps the bounds. -/
theorem Sizes.file (hs : Sizes dataset settings externalSize none routed current st n)
    (h : Invariant dataset none routed done current st n) {entry : Entry} (hl : st.active.lookup path = some entry)
    (hempty : entry.buffer = []) {part : NativePart} (hp : n.parts[entry.writer]? = some part) {file : PublishedPart}
    (hrows : file.rows = part.rows) :
    FileBounds dataset settings externalSize (routed.map Routed.row) file := by
  obtain ⟨part', written, pending, hp', -, -, -, hsplit, hbuffer, hstored⟩ := (h.active path entry hl).written
  rw [hp] at hp'
  cases hp'
  have hpending : pending = [] := by
    rw [hempty] at hbuffer
    simpa using hbuffer.symm
  rw [hpending, List.append_nil] at hsplit
  rw [← hsplit, ← hrows] at hstored
  have hsized := hs.sized path entry hl
  refine ⟨?_, ?_, (current path).map Routed.row, (current_sublist h path).map _, ?_, ?_⟩
  · rw [← hstored.length_eq]
    exact List.length_pos_of_ne_nil (current_ne_nil h hl)
  · rw [← hstored.length_eq]
    exact hsized.count_le
  · rw [List.forall₂_map_left_iff]
    exact hstored.imp fun _ _ hst => hst.encodes
  · rw [List.map_map, List.length_map]
    exact hsized.bytes_le.imp_left fun hle => hsized.estimated ▸ hle

/-! ## Flushing and publishing -/

/-- An entry that changes only in its buffer, which is short. -/
theorem Sizes.rebuffer (hs : Sizes dataset settings externalSize ready routed current st n) {entry : Entry}
    (hl : st.active.lookup path = some entry) (hlive : n'.live = n.live) (hpub : n'.published = n.published) :
    Sizes dataset settings externalSize ready routed current
      { st with active := st.active.insert path { entry with buffer := [] } } n' := by
  have hentry : ∀ q e, (st.active.insert path { entry with buffer := [] }).lookup q = some e →
      ∃ e', st.active.lookup q = some e' ∧ e'.access = e.access ∧ e'.estimatedBytes = e.estimatedBytes := by
    intro q e hq
    rcases lookup_insert_cases hq with ⟨rfl, rfl⟩ | ⟨-, hq⟩
    · exact ⟨entry, hl, rfl, rfl⟩
    · exact ⟨e, hq, rfl, rfl⟩
  refine ⟨?_, ?_, ?_, ?_, ?_, ?_, by rw [hpub]; exact hs.files⟩
  · intro q e hq
    obtain ⟨e', hq', -, he⟩ := hentry q e hq
    obtain ⟨h₁, h₂, h₃⟩ := hs.sized q e' hq'
    rw [he] at h₁ h₃
    exact ⟨h₁, h₂, h₃⟩
  · intro q e hq
    rcases lookup_insert_cases hq with ⟨-, rfl⟩ | ⟨-, hq⟩
    · exact settings.batchRowsPos
    · exact hs.short q e hq
  · rw [length_insert hl]
    exact hs.room
  · rw [length_insert hl, hlive]
    exact hs.live
  · intro q e hq
    obtain ⟨e', hq', ha, -⟩ := hentry q e hq
    exact ha ▸ hs.access_le q e' hq'
  · intro p q e e' hp hq hready hlt
    obtain ⟨e₁, hp', hp₁, -⟩ := hentry p e hp
    obtain ⟨e₂, hq', hq₁, -⟩ := hentry q e' hq
    rw [← hp₁, ← hq₁]
    exact hs.recent p q e₁ e₂ hp' hq' hready hlt

theorem Sizes.flush (hs : Sizes dataset settings externalSize ready routed current st n)
    (hx : flushEntry dataset settings runtime path st n = (.ok st', n')) :
    Sizes dataset settings externalSize ready routed current st' n' := by
  have hlive := flushEntry_live_ok hx
  obtain ⟨entry, hl, hx⟩ := flushEntry_ok hx
  rcases hx with ⟨-, rfl, rfl⟩ | ⟨batches, -, -, rfl⟩
  · exact hs
  · exact hs.rebuffer hl hlive.1 hlive.2

theorem Sizes.close (hs : Sizes dataset settings externalSize none routed current st n)
    (h : Invariant dataset none routed done current st n) {entry : Entry} {size : Nat}
    (hl : st.active.lookup path = some entry) (hempty : entry.buffer = [])
    (hx : closeWriter runtime entry.writer n = (.ok size, n')) (reports : List Part) :
    Sizes dataset settings externalSize none routed (Function.update current path [])
      { st with active := st.active.erase path, reports } n' := by
  obtain ⟨part, hp, hopened, hparts, hpub⟩ := closeWriter_ok hx
  have hlength := length_erase hl
  have hset := live_set hp hparts (live_of_status hopened)
  refine ⟨?_, ?_, ?_, ?_, ?_, ?_, ?_⟩
  · intro q e hq
    obtain ⟨hne, hq⟩ := lookup_erase_cases hq
    rw [Function.update_of_ne hne]
    exact hs.sized q e hq
  · intro q e hq
    exact hs.short q e (lookup_erase_cases hq).2
  · have := hs.room
    show (st.active.erase path).entries.length ≤ _
    omega
  · have := hs.live
    have hdead : (NativePart.live { part with status := .published }) = false := rfl
    rw [hdead, if_neg Bool.false_ne_true] at hset
    show n'.live = (st.active.erase path).entries.length
    omega
  · intro q e hq
    exact hs.access_le q e (lookup_erase_cases hq).2
  · intro p q e e' hp hq
    exact hs.recent p q e e' (lookup_erase_cases hp).2 (lookup_erase_cases hq).2
  · intro file hf
    rw [hpub] at hf
    rcases List.mem_append.mp hf with hf | hf
    · exact hs.files file hf
    · rw [List.mem_singleton.mp hf]
      exact hs.file h hl hempty hp rfl

theorem Bounded.publish (h : Bounded dataset settings externalSize none routed st n)
    (hx : publishEntry dataset settings runtime path st n = (.ok st', n')) :
    Bounded dataset settings externalSize none routed st' n' ∧
      st'.active.entries.length + 1 = st.active.entries.length := by
  obtain ⟨done, current, h, hs⟩ := h
  obtain ⟨st₁, n₁, entry, size, hflush, hl, hclose, rfl⟩ := publishEntry_ok hx
  obtain ⟨h₁, entry', hl', hempty⟩ := h.flush hflush
  rw [hl] at hl'
  cases hl'
  have hs₁ := hs.flush hflush
  obtain ⟨d, hd⟩ := h₁.close hl hempty hclose
  refine ⟨⟨_, _, hd, hs₁.close h₁ hl hempty hclose _⟩, ?_⟩
  rw [length_erase hl]
  obtain ⟨entry'', hl'', hx⟩ := flushEntry_ok hflush
  rcases hx with ⟨-, rfl, -⟩ | ⟨batches, -, -, rfl⟩
  · rfl
  · exact length_insert hl''

variable (runtime path) in
/-- Also a publication that fails keeps the bounds. -/
theorem Bounded.publish_within (h : Bounded dataset settings externalSize none routed st n) :
    Within dataset settings externalSize (routed.map Routed.row)
      (publishEntry dataset settings runtime path st n).2 := by
  obtain ⟨done, current, h, hs⟩ := h
  have hroom : n.live ≤ settings.maxOpenPartitions := hs.live ▸ hs.room
  have hkeep : ∀ n' : Native, n'.live = n.live ∧ n'.published = n.published →
      Within dataset settings externalSize (routed.map Routed.row) n' := by
    intro n' ⟨hlive, hpub⟩
    exact ⟨hlive ▸ hroom, by rw [hpub]; exact hs.files⟩
  have hflushed := flushEntry_live dataset settings runtime path st n ⟨rfl, rfl⟩
  refine holds_bind (hkeep _ hflushed) fun st₁ n₁ hflush => ?_
  rw [hflush] at hflushed
  refine holds_bind (preserves_fetchEntry n₁ (hkeep _ hflushed)) fun entry n₂ hentry => ?_
  obtain ⟨hl, rfl⟩ := fetchEntry_eq_ok.mp hentry
  obtain ⟨h₁, entry', hl', hempty⟩ := h.flush hflush
  rw [hl] at hl'
  cases hl'
  obtain ⟨part, written, pending, hp, hopened, -⟩ := (h₁.active path entry hl).written
  refine Preserves.after (fun _ => preserves_pure) ?_
  rw [closePart_native]
  obtain ⟨hle, hfiles⟩ := closeWriter_live runtime hp hopened
  refine ⟨Nat.le_trans hle (hkeep _ hflushed).live, fun file hf => ?_⟩
  rcases hfiles with he | ⟨file', hrows, he⟩
  · rw [he] at hf
    exact (hkeep _ hflushed).files file hf
  · rw [he] at hf
    rcases List.mem_append.mp hf with hf | hf
    · exact (hkeep _ hflushed).files file hf
    · rw [List.mem_singleton.mp hf]
      exact (hs.flush hflush).file h₁ hl hempty hp hrows

/-! ## Opening and appending -/

theorem Sizes.openEntry (hs : Sizes dataset settings externalSize none routed current st n)
    (h : Invariant dataset none routed done current st n) {partition : Partition} {datetime : DateTime}
    (hnone : st.active.lookup partition.path = none) (hroom : st.active.entries.length < settings.maxOpenPartitions)
    (hx : DatasetWriter.openEntry dataset settings runtime partition datetime st n = (.ok st', n')) :
    Sizes dataset settings externalSize (some (partition.path, datetime)) routed current st' n' := by
  obtain ⟨name, fields, -, -, hpub, hparts, rfl⟩ := openEntry_ok hx
  refine ⟨?_, ?_, ?_, ?_, ?_, ?_, by rw [hpub]; exact hs.files⟩
  · intro q e hq
    rcases lookup_insert_cases hq with ⟨rfl, rfl⟩ | ⟨-, hq⟩
    · rw [h.idle _ hnone]
      exact ⟨rfl, Nat.zero_le _, Or.inl (Nat.zero_le _)⟩
    · exact hs.sized q e hq
  · intro q e hq
    rcases lookup_insert_cases hq with ⟨-, rfl⟩ | ⟨-, hq⟩
    · exact settings.batchRowsPos
    · exact hs.short q e hq
  · rw [length_insert_new hnone]
    exact hroom
  · rw [length_insert_new hnone, ← hs.live]
    unfold Native.live
    rw [hparts, List.countP_append]
    rfl
  · intro q e hq
    rcases lookup_insert_cases hq with ⟨-, rfl⟩ | ⟨-, hq⟩
    · exact Nat.le_refl _
    · exact Nat.le_succ_of_le (hs.access_le q e hq)
  · intro p q e e' hp hq hready hlt
    rcases lookup_insert_cases hq with ⟨rfl, -⟩ | ⟨-, hq⟩
    · exact absurd rfl (hready datetime)
    rcases lookup_insert_cases hp with ⟨-, rfl⟩ | ⟨-, hp⟩
    · exact Nat.lt_succ_of_le (hs.access_le q e' hq)
    · exact hs.recent p q e e' hp hq (fun _ hd => by cases hd) hlt

/-- The entry with one more row, before it is flushed. -/
theorem Sized.append {rows : List Routed} {entry : Entry} (h : Sized settings externalSize rows entry)
    (hrows : entry.rows = rows.length) {r : Routed} (access : Nat)
    (hfull : rows = [] ∨ rows.length + 1 ≤ settings.maxRowsPerFile ∧
      entry.estimatedBytes + externalSize r.row ≤ settings.maxBytesPerFile) :
    Sized settings externalSize (rows ++ [r]) (entry.append r.datetime r.row (externalSize r.row) access) := by
  refine ⟨?_, ?_, ?_⟩
  · show entry.estimatedBytes + externalSize r.row = _
    rw [h.estimated, List.map_append, List.sum_append, List.map_singleton, List.sum_singleton]
  · rcases hfull with rfl | ⟨hle, -⟩
    · exact settings.rowsPos
    · simpa using hle
  · rcases hfull with rfl | ⟨-, hle⟩
    · exact Or.inr rfl
    · exact Or.inl hle

theorem Sizes.append (hs : Sizes dataset settings externalSize ready routed current st n) {r : Routed} {entry' : Entry}
    {entry : Entry} (hl : st.active.lookup r.path = some entry)
    (hready : ready = none ∨ ready = some (r.path, r.datetime))
    (hsized : Sized settings externalSize (current r.path ++ [r]) entry')
    (hshort : entry'.buffer.length < settings.batchRows) (haccess : entry'.access = st.access + 1)
    (hlive : n'.live = n.live) (hpub : n'.published = n.published) :
    Sizes dataset settings externalSize none (routed ++ [r]) (Function.update current r.path (current r.path ++ [r]))
      { st with active := st.active.insert r.path entry', access := st.access + 1 } n' := by
  refine ⟨?_, ?_, ?_, ?_, ?_, ?_, ?_⟩
  · intro q e hq
    rcases lookup_insert_cases hq with ⟨rfl, rfl⟩ | ⟨hne, hq⟩
    · rw [Function.update_self r.path _ current]
      exact hsized
    · rw [Function.update_of_ne hne]
      exact hs.sized q e hq
  · intro q e hq
    rcases lookup_insert_cases hq with ⟨-, rfl⟩ | ⟨-, hq⟩
    · exact hshort
    · exact hs.short q e hq
  · rw [length_insert hl]
    exact hs.room
  · rw [length_insert hl, hlive]
    exact hs.live
  · intro q e hq
    rcases lookup_insert_cases hq with ⟨-, rfl⟩ | ⟨-, hq⟩
    · exact Nat.le_of_eq haccess
    · exact Nat.le_succ_of_le (hs.access_le q e hq)
  · intro p q e e' hp hq _ hlt
    rcases lookup_insert_cases hq with ⟨rfl, -⟩ | ⟨hne, hq'⟩
    · rw [since_append_self] at hlt
      exact absurd hlt (Nat.not_lt_zero _)
    rcases lookup_insert_cases hp with ⟨-, rfl⟩ | ⟨hne', hp'⟩
    · rw [haccess]
      exact Nat.lt_succ_of_le (hs.access_le q e' hq')
    · rw [since_append_ne routed (Ne.symm hne), since_append_ne routed (Ne.symm hne')] at hlt
      refine hs.recent p q e e' hp' hq' (fun d hd => ?_) (Nat.lt_of_succ_lt_succ hlt)
      rcases hready with hr | hr
      · rw [hr] at hd
        cases hd
      · rw [hr] at hd
        cases hd
        exact hne rfl
  · intro file hf
    rw [hpub] at hf
    rw [List.map_append]
    exact (hs.files file hf).mono _

theorem Bounded.appendRow {r : Routed} (h : Bounded dataset settings runtime.externalSize ready routed st n)
    (hready : Ready settings runtime.externalSize ready st r) (hr : RoutedBy dataset r)
    (hx : appendRow dataset settings runtime r.path r.datetime r.row st n = (.ok st', n')) :
    Bounded dataset settings runtime.externalSize none (routed ++ [r]) st' n' := by
  obtain ⟨done, current, h, hs⟩ := h
  obtain ⟨entry, st₁, hl, rfl, hx⟩ := appendRow_ok hx
  have hinv := h.append runtime hready.ready hr hl
  have hcount := (h.active r.path entry hl).count
  have hsized : Sized settings runtime.externalSize (current r.path ++ [r])
      (entry.append r.datetime r.row (runtime.externalSize r.row) (st.access + 1)) := by
    refine (hs.sized r.path entry hl).append hcount _ ?_
    rcases hready.room entry hl with h0 | hroom
    · exact Or.inl (List.eq_nil_of_length_eq_zero (hcount ▸ h0))
    · exact Or.inr (hcount ▸ hroom)
  rcases hx with ⟨hlt, rfl, rfl⟩ | hflush
  · exact ⟨_, _, hinv, hs.append hl hready.ready hsized hlt rfl rfl rfl⟩
  · refine ⟨_, _, (hinv.flush hflush).1, ?_⟩
    have hlive := flushEntry_live_ok hflush
    obtain ⟨entry₁, hl₁, hx⟩ := flushEntry_ok hflush
    rcases hx with ⟨hempty, -, -⟩ | ⟨batches, -, -, rfl⟩
    · rw [AList.lookup_insert, Option.some.injEq] at hl₁
      rw [← hl₁] at hempty
      cases hempty
    · rw [AList.lookup_insert, Option.some.injEq] at hl₁
      rw [AList.insert_insert, ← hl₁]
      exact hs.append hl hready.ready ⟨hsized.1, hsized.2, hsized.3⟩ settings.batchRowsPos rfl hlive.1 hlive.2

/-! ## Rows -/

/-- What is done for a row before it is appended keeps the bounds, and finds its entry with room. -/
theorem Bounded.ensureEntry (h : Bounded dataset settings runtime.externalSize none routed st n) {partition : Partition}
    {datetime : DateTime} {row : Term}
    (hx : ensureEntry dataset settings runtime partition datetime row st n = (.ok st', n')) :
    ∃ ready, Bounded dataset settings runtime.externalSize ready routed st' n' ∧
      Ready settings runtime.externalSize ready st' ⟨partition.path, datetime, row⟩ := by
  rcases ensureEntry_ok hx with ⟨entry, hl, hfull, rfl, rfl⟩ | ⟨st₁, n₁, hroom, hopen⟩
  · refine ⟨none, h, Or.inl rfl, fun entry' hl' => ?_⟩
    rw [hl] at hl'
    cases hl'
    unfold full at hfull
    simp only [Bool.and_eq_false_iff, Bool.or_eq_false_iff, decide_eq_false_iff_not, not_lt] at hfull
    rcases hfull with h0 | hfull
    · exact Or.inl (Nat.le_zero.mp h0)
    · exact Or.inr hfull
  have hnext : Bounded dataset settings runtime.externalSize none routed st₁ n₁ ∧
      st₁.active.lookup partition.path = none ∧ st₁.active.entries.length < settings.maxOpenPartitions := by
    rcases hroom with ⟨hlt, rfl, rfl, hnone⟩ | ⟨path, hpublish, hpath⟩
    · exact ⟨h, hnone, hlt⟩
    · obtain ⟨h₁, hlength⟩ := h.publish hpublish
      obtain ⟨_, _, _, hs⟩ := h
      have := hs.room
      exact ⟨h₁, publishEntry_none hpublish _ (hpath.imp Eq.symm id), by omega⟩
  obtain ⟨⟨done, current, h₁, hs₁⟩, hnone, hlt⟩ := hnext
  refine ⟨_, ⟨done, current, h₁.openEntry hnone hopen, hs₁.openEntry h₁ hnone hlt hopen⟩, Or.inr rfl, ?_⟩
  obtain ⟨name, fields, -, -, -, -, rfl⟩ := openEntry_ok hopen
  intro entry hl
  rw [AList.lookup_insert, Option.some.injEq] at hl
  exact Or.inl (by rw [← hl])

theorem Bounded.routeRow {row : Term} (h : Bounded dataset settings runtime.externalSize none routed st n)
    (hx : routeRow dataset settings runtime st row n = (.ok st', n')) :
    ∃ r : Routed, r.row = row ∧ RoutedBy dataset r ∧
      Bounded dataset settings runtime.externalSize none (routed ++ [r]) st' n' := by
  obtain ⟨partition, datetime, st₁, n₁, hroute, hensure, happend⟩ := routeRow_ok hx
  obtain ⟨ready, h₁, hready⟩ := h.ensureEntry hensure
  exact ⟨⟨partition.path, datetime, row⟩, rfl, ⟨partition, hroute, rfl⟩,
    h₁.appendRow hready ⟨partition, hroute, rfl⟩ happend⟩

theorem Bounded.within {externalSize : Term → Nat} (h : Bounded dataset settings externalSize ready routed st n) :
    Within dataset settings externalSize (routed.map Routed.row) n := by
  obtain ⟨_, _, _, hs⟩ := h
  exact ⟨hs.live ▸ hs.room, hs.files⟩

/-- An entry is opened where there is room for it. -/
theorem Bounded.open_within {externalSize : Term → Nat} (h : Bounded dataset settings externalSize none routed st n)
    (hlt : st.active.entries.length < settings.maxOpenPartitions) {partition : Partition} {datetime : DateTime} :
    Within dataset settings externalSize (routed.map Routed.row)
      (openEntry dataset settings runtime partition datetime st n).2 := by
  obtain ⟨_, _, _, hs⟩ := h
  obtain ⟨hlive, hpub⟩ := openEntry_live dataset settings runtime n partition datetime st
  have := hs.live
  refine ⟨by omega, ?_⟩
  rw [hpub]
  exact hs.files

theorem Bounded.ensureEntry_within (h : Bounded dataset settings externalSize none routed st n) {partition : Partition}
    {datetime : DateTime} {row : Term} :
    Within dataset settings externalSize (routed.map Routed.row)
      (DatasetWriter.ensureEntry dataset settings runtime partition datetime row st n).2 := by
  have hpublished : ∀ path st₁ n₁, publishEntry dataset settings runtime path st n = (.ok st₁, n₁) →
      Within dataset settings externalSize (routed.map Routed.row)
        (openEntry dataset settings runtime partition datetime st₁ n₁).2 := by
    intro path st₁ n₁ hpublish
    obtain ⟨h₁, hlength⟩ := h.publish hpublish
    obtain ⟨_, _, _, hs⟩ := h
    have := hs.room
    exact h₁.open_within (by omega)
  have hmade : Within dataset settings externalSize (routed.map Routed.row)
      (makeRoom dataset settings runtime st n).2 := by
    unfold makeRoom
    split
    · exact h.within
    · cases oldest st with
      | some path => exact h.publish_within runtime path
      | none => exact h.within
  unfold DatasetWriter.ensureEntry
  cases hl : st.active.lookup partition.path with
  | some entry =>
    simp only
    by_cases hfull : full settings runtime entry row = true
    · rw [if_pos hfull]
      exact holds_bind (h.publish_within runtime _) fun st₁ n₁ => hpublished _ st₁ n₁
    · rw [if_neg hfull]
      exact h.within
  | none =>
    refine holds_bind hmade fun st₁ n₁ hroom => ?_
    rcases makeRoom_ok hroom with ⟨hlt, rfl, rfl⟩ | ⟨path, -, hpublish⟩
    · exact h.open_within hlt
    · exact hpublished path st₁ n₁ hpublish

variable (runtime) in
/-- Also a row that fails keeps the bounds. -/
theorem Bounded.routeRow_within (row : Term) (h : Bounded dataset settings runtime.externalSize none routed st n) :
    Within dataset settings runtime.externalSize (routed.map Routed.row)
      (DatasetWriter.routeRow dataset settings runtime st row n).2 := by
  refine holds_bind (preserves_lift n h.within) fun routing n₁ hroute => ?_
  obtain ⟨-, rfl⟩ := lift_eq_ok.mp hroute
  refine holds_bind h.ensureEntry_within fun st₁ n₁ hensure => ?_
  obtain ⟨ready, h₁, -⟩ := h.ensureEntry hensure
  have hw := h₁.within
  obtain ⟨hlive, hpub⟩ := appendRow_live dataset settings runtime routing.1.path routing.2 row st₁ n₁
    ⟨rfl, rfl⟩
  exact ⟨hlive ▸ hw.live, by rw [hpub]; exact hw.files⟩

end

theorem Bounded.routeRows {rows : List Term} :
    ∀ {routed : List Routed} {st st' : State} {n n' : Native},
      Bounded dataset settings runtime.externalSize none routed st n →
      routeRows dataset settings runtime rows st n = (.ok st', n') →
      ∃ more : List Routed, more.map Routed.row = rows ∧ (∀ r ∈ more, RoutedBy dataset r) ∧
        Bounded dataset settings runtime.externalSize none (routed ++ more) st' n' := by
  induction rows with
  | nil =>
    intro routed st st' n n' h hx
    obtain ⟨rfl, rfl⟩ := Effect.pure_eq_ok.mp hx
    exact ⟨[], rfl, by simp, by simpa using h⟩
  | cons row rows ih =>
    intro routed st st' n n' h hx
    unfold DatasetWriter.routeRows at hx
    rw [List.foldlM_cons] at hx
    obtain ⟨st₁, n₁, hrow, hrest⟩ := Effect.bind_eq_ok.mp hx
    obtain ⟨r, hr, hby, h₁⟩ := h.routeRow hrow
    obtain ⟨more, hmore, hall, h₂⟩ := ih h₁ hrest
    refine ⟨r :: more, by rw [List.map_cons, hr, hmore], ?_, by simpa using h₂⟩
    intro x hx
    rcases List.mem_cons.mp hx with rfl | hx
    · exact hby
    · exact hall x hx

/-! ## Closing -/

theorem Bounded.closePaths_within {paths : List String} :
    ∀ {routed : List Routed} {st : State} {n : Native}, Bounded dataset settings externalSize none routed st n →
      Within dataset settings externalSize (routed.map Routed.row)
        (closePaths dataset settings runtime paths st n).2 := by
  induction paths with
  | nil =>
    intro routed st n h
    exact h.within
  | cons path paths ih =>
    intro routed st n h
    have hpublish := h.publish_within runtime path
    unfold closePaths
    cases hp : publishEntry dataset settings runtime path st n with
    | mk result n₁ =>
      rw [hp] at hpublish
      cases result with
      | ok st₁ => exact ih (h.publish hp).1
      | error stop => cases stop <;> exact hpublish

/-! ## Making room -/

theorem RoutedBy.routedPath {r : Routed} (h : RoutedBy dataset r) : routedPath dataset r.row = some r.path := by
  obtain ⟨partition, hroute, hpath⟩ := h
  unfold DatasetWriter.routedPath
  rw [hroute, ← hpath]
  rfl

theorem waited_eq_since {routed : List Routed} (hall : ∀ r ∈ routed, RoutedBy dataset r) (path : String) :
    waited dataset (routed.map Routed.row) path = since routed path := by
  induction routed using List.reverseRecOn with
  | nil => rfl
  | append_singleton routed r ih =>
    have hr := (hall r (by simp)).routedPath
    have hwaited := ih fun r hr => hall r (by simp [hr])
    unfold waited at hwaited ⊢
    rw [List.map_append, List.map_singleton, List.reverse_append, List.reverse_singleton, List.singleton_append,
      List.findIdx_cons, hwaited, hr]
    by_cases hp : r.path = path
    · rw [← hp, since_append_self]
      simp
    · rw [since_append_ne routed hp, beq_eq_false_iff_ne.mpr fun he => hp (Option.some.inj he)]
      rfl

theorem oldest_some {st : State} (h : 0 < st.active.entries.length) :
    ∃ path entry, oldest st = some path ∧ st.active.lookup path = some entry ∧
      ∀ other entry', st.active.lookup other = some entry' → entry.access ≤ entry'.access := by
  unfold oldest
  cases hm : st.active.entries.argmin fun entry => entry.2.access with
  | none =>
    rw [List.argmin_eq_none] at hm
    rw [hm] at h
    cases h
  | some oldest =>
    have hmem := List.argmin_mem hm
    refine ⟨oldest.1, oldest.2, rfl, AList.mem_lookup_iff.mpr hmem, fun other entry' hl => ?_⟩
    have hmem' : (⟨other, entry'⟩ : Sigma fun _ : String => Entry) ∈ st.active.entries := AList.mem_lookup_iff.mp hl
    exact List.le_of_mem_argmin (f := fun entry => entry.2.access) hmem' hm

/-! ## Every reachable state -/

section
variable (dataset : Dataset) (settings : Settings) (runtime : Runtime)

/-- The process after some rows: as it is, while it routes one more, and while it closes. -/
structure WriterBounds (rows : List Term) (st : State) (n : Native) : Prop where
  within : Within dataset settings runtime.externalSize rows n
  -- whatever the native calls answer, so also while any of them is under way
  routing : ∀ row answer, Within dataset settings runtime.externalSize rows
    (routeRow dataset settings (runtime.answering answer) st row n).2
  closing : ∀ answer, Within dataset settings runtime.externalSize rows
    (closeAll dataset settings (runtime.answering answer) st n).2
  reports : ∀ part ∈ st.reports, 1 ≤ part.rows ∧ part.rows ≤ settings.maxRowsPerFile
  short : ∀ path entry, st.active.lookup path = some entry → entry.buffer.length < settings.batchRows
  eviction : settings.maxOpenPartitions ≤ st.active.entries.length →
    ∃ path entry, st.active.lookup path = some entry ∧
      makeRoom dataset settings runtime st = publishEntry dataset settings runtime path st ∧
      ∀ other entry', st.active.lookup other = some entry' → waited dataset rows other ≤ waited dataset rows path

end

/-- Rows that were routed leave a process within its bounds. -/
theorem routed_within_bounds {rows : List Term} {st : State} {n : Native}
    (h : routeRows dataset settings runtime rows init .fresh = (.ok st, n)) :
    WriterBounds dataset settings runtime rows st n := by
  obtain ⟨routed, hrows, hall, hbounded⟩ := (init_bounded dataset settings runtime.externalSize).routeRows h
  rw [List.nil_append] at hbounded
  subst hrows
  refine ⟨hbounded.within, fun row answer => ?_, fun answer => hbounded.closePaths_within, ?_, ?_, ?_⟩
  · exact Bounded.routeRow_within (runtime.answering answer) row hbounded
  · obtain ⟨done, current, hinv, hs⟩ := hbounded
    intro part hpart
    have hmem : part ∈ done.map Done.part := by
      rw [← hinv.reports]
      exact List.mem_reverse.mpr hpart
    obtain ⟨d, hd, rfl⟩ := List.mem_map.mp hmem
    have hfile := hs.files d.file (by rw [hinv.published]; exact List.mem_map_of_mem hd)
    have hok := hinv.ok d hd
    rw [hok.count, hok.stored.length_eq]
    exact ⟨hfile.pos, hfile.le⟩
  · obtain ⟨_, _, _, hs⟩ := hbounded
    exact hs.short
  · intro hfull
    obtain ⟨_, _, _, hs⟩ := hbounded
    have hpos := Nat.lt_of_lt_of_le settings.partitionsPos hfull
    obtain ⟨path, entry, hold, hl, hmin⟩ := oldest_some hpos
    refine ⟨path, entry, hl, ?_, fun other entry' hl' => ?_⟩
    · unfold makeRoom
      rw [if_neg (Nat.not_lt_of_le hfull), hold]
    · rw [waited_eq_since hall, waited_eq_since hall]
      refine Nat.le_of_not_lt fun hlt => ?_
      have := hs.recent path other entry entry' hl hl' (fun _ hd => by cases hd) hlt
      exact absurd (hmin other entry' hl') (Nat.not_le_of_lt this)

/-- A flush passes on batches of the promised size and nothing else. -/
theorem flushEntry_passes (dataset : Dataset) (settings : Settings) (runtime : Runtime) {path : String} {st : State}
    {entry : Entry} (n : Native) (hl : st.active.lookup path = some entry) :
    (flushEntry dataset settings runtime path st n).2 =
        (writeBatches dataset settings runtime entry.writer (passed dataset settings entry) n).2 ∧
      ∀ batch ∈ passed dataset settings entry, 1 ≤ batch.rowCount ∧ batch.rowCount ≤ settings.batchRows := by
  unfold flushEntry passed
  rw [Effect.bind_ok (fetchEntry_eq_ok.mpr ⟨hl, rfl⟩)]
  by_cases hempty : entry.buffer.isEmpty = true
  · rw [if_pos hempty, if_pos hempty]
    exact ⟨rfl, by simp⟩
  rw [if_neg hempty, if_neg hempty]
  cases hb : Input.batches (.list entry.buffer.reverse) dataset.schema settings.batchRows with
  | error e => exact ⟨rfl, by simp⟩
  | ok batches =>
    refine ⟨?_, Input.batches_rowCount settings.batchRowsPos dataset.names_ne_nil ?_ hb⟩
    · exact (congrArg Prod.snd (Effect.bind_ok (lift_eq_ok.mpr ⟨rfl, rfl⟩))).trans Effect.bind_pure_snd
    · intro hr
      rw [List.reverse_eq_nil_iff] at hr
      rw [hr] at hempty
      exact hempty rfl

/-! ## Runs -/

section
variable {rows : List Term} {n : Native}

theorem Within.mono (h : Within dataset settings externalSize rows n) (more : List Term) :
    Within dataset settings externalSize (rows ++ more) n := ⟨h.live, fun file hf => (h.files file hf).mono more⟩

theorem cancel_live (n : Native) (handle : Nat) : (n.cancel handle).live ≤ n.live := by
  unfold Native.cancel
  cases hp : n.parts[handle]? with
  | none => exact Nat.le_refl _
  | some part =>
    simp only
    split
    · exact Nat.le_refl _
    · obtain ⟨hlt, -⟩ := List.getElem?_eq_some_iff.mp hp
      show (n.parts.set handle _).countP NativePart.live ≤ n.parts.countP NativePart.live
      rw [List.countP_set hlt]
      have hdead : (NativePart.live { part with status := .cancelled }) = false := rfl
      rw [hdead, if_neg Bool.false_ne_true]
      omega

theorem foldl_cancel_live (entries : List (Sigma fun _ : String => Entry)) :
    ∀ n : Native, (entries.foldl (fun n entry => n.cancel entry.2.writer) n).live ≤ n.live := by
  induction entries with
  | nil => exact fun n => Nat.le_refl _
  | cons entry entries ih => exact fun n => Nat.le_trans (ih _) (cancel_live n _)

theorem cancelAll_within (h : Within dataset settings externalSize rows n) (st : State) :
    Within dataset settings externalSize rows (cancelAll st n) := by
  refine ⟨Nat.le_trans (foldl_cancel_live _ n) h.live, ?_⟩
  rw [cancelAll_published]
  exact h.files

/-- Rows that follow those routed so far, also when one of them fails. -/
theorem Bounded.routeRows_within :
    ∀ {rows : List Term} {routed : List Routed} {st : State} {n : Native},
      Bounded dataset settings runtime.externalSize none routed st n →
      Within dataset settings runtime.externalSize (routed.map Routed.row ++ rows)
        (DatasetWriter.routeRows dataset settings runtime rows st n).2 := by
  intro rows
  induction rows with
  | nil =>
    intro routed st n h
    exact h.within.mono []
  | cons row rows ih =>
    intro routed st n h
    unfold DatasetWriter.routeRows
    rw [List.foldlM_cons]
    refine Effect.holds_bind ((h.routeRow_within runtime row).mono _) fun st₁ n₁ hrow => ?_
    obtain ⟨r, hr, -, h₁⟩ := h.routeRow hrow
    have hw := ih h₁
    rw [List.map_append, List.append_assoc, List.map_singleton, hr] at hw
    exact hw

end

/-- The rows the process was given. -/
def callRows (calls : List Call) : List Term :=
  calls.flatMap fun call =>
    match call with
    | .write input => (inputRows input).toOption.getD []
    | _ => []

theorem routeRows_append {rows : List Term} (more : List Term) :
    ∀ {st st' : State} {n n' : Native}, routeRows dataset settings runtime rows st n = (.ok st', n') →
      routeRows dataset settings runtime (rows ++ more) st n = routeRows dataset settings runtime more st' n' := by
  induction rows with
  | nil =>
    intro st st' n n' h
    obtain ⟨rfl, rfl⟩ := Effect.pure_eq_ok.mp h
    rfl
  | cons row rows ih =>
    intro st st' n n' h
    obtain ⟨st₁, n₁, hrow, hrest⟩ := Effect.bind_eq_ok.mp h
    exact (Effect.bind_ok hrow).trans (ih hrest)

/-- The rows given so far were routed if the process is still running, and all writers are within bounds. -/
structure Reached (dataset : Dataset) (settings : Settings) (runtime : Runtime) (calls : List Call)
    (s : Server × Native) : Prop where
  within : Within dataset settings runtime.externalSize (callRows calls) s.2
  running : ∀ st, s.1 = .running st → routeRows dataset settings runtime (callRows calls) init .fresh = (.ok st, s.2)

theorem callRows_append (calls : List Call) (c : Call) : callRows (calls ++ [c]) = callRows calls ++ callRows [c] :=
  List.flatMap_append

/-- A write leaves the writers within bounds, and keeps running once it has routed its rows. -/
theorem handleWrite_reached {calls : List Call} {st : State} {n : Native} (input : WriteInput)
    (h : Reached dataset settings runtime calls (.running st, n)) :
    Reached dataset settings runtime (calls ++ [.write input]) (handleWrite dataset settings runtime input st n).2 := by
  have hrows := h.running st rfl
  obtain ⟨routed, hmap, -, hbounded⟩ := (init_bounded dataset settings runtime.externalSize).routeRows hrows
  rw [List.nil_append] at hbounded
  have hgiven : callRows [Call.write input] = (inputRows input).toOption.getD [] := List.flatMap_singleton _ _
  have hwithin : Within dataset settings runtime.externalSize (callRows (calls ++ [.write input]))
      (writeRows dataset settings runtime input st n).2 := by
    refine Effect.holds_bind (preserves_lift n ?_) fun rows n₁ hlift => ?_
    · rw [callRows_append]
      exact h.within.mono _
    · obtain ⟨hok, rfl⟩ := lift_eq_ok.mp hlift
      rw [callRows_append, hgiven, TimePartition.liftError_eq_ok.mp hok, ← hmap]
      exact hbounded.routeRows_within
  unfold handleWrite
  cases hw : writeRows dataset settings runtime input st n with
  | mk result n' =>
    rw [hw] at hwithin
    cases result with
    | error stop =>
      cases stop <;> exact ⟨cancelAll_within hwithin st, fun st' hst => by cases hst⟩
    | ok st' =>
      refine ⟨hwithin, fun st'' hst => ?_⟩
      cases hst
      obtain ⟨rows, n₁, hlift, hrest⟩ := Effect.bind_eq_ok.mp hw
      obtain ⟨hok, rfl⟩ := lift_eq_ok.mp hlift
      rw [callRows_append, hgiven, TimePartition.liftError_eq_ok.mp hok]
      exact (routeRows_append rows hrows).trans hrest

theorem handleClose_reached {calls : List Call} {st : State} {n : Native}
    (h : Reached dataset settings runtime calls (.running st, n)) :
    Reached dataset settings runtime (calls ++ [.close]) (handleClose dataset settings runtime st n).2 := by
  obtain ⟨routed, hmap, -, hbounded⟩ :=
    (init_bounded dataset settings runtime.externalSize).routeRows (h.running st rfl)
  rw [List.nil_append] at hbounded
  have hwithin : Within dataset settings runtime.externalSize (callRows (calls ++ [.close]))
      (closeAll dataset settings runtime st n).2 := by
    rw [callRows_append, ← hmap]
    exact hbounded.closePaths_within.mono _
  unfold handleClose
  cases hc : closeAll dataset settings runtime st n with
  | mk result n' =>
    rw [hc] at hwithin
    cases result with
    | ok st' => exact ⟨cancelAll_within hwithin st', fun st'' hst => by cases hst⟩
    | error stop =>
      cases stop with
      | error e => exact ⟨cancelAll_within hwithin e.2, fun st'' hst => by cases hst⟩
      | raised => exact ⟨cancelAll_within hwithin st, fun st'' hst => by cases hst⟩

theorem step_reached {calls : List Call} {s : Server × Native} (c : Call) (h : Reached dataset settings runtime calls s) :
    Reached dataset settings runtime (calls ++ [c]) (step dataset settings runtime s c).2 := by
  have hmono : Within dataset settings runtime.externalSize (callRows (calls ++ [c])) s.2 := by
    rw [callRows_append]
    exact h.within.mono _
  obtain ⟨server, n⟩ := s
  cases server with
  | running st =>
    cases c with
    | write input => exact handleWrite_reached input h
    | close => exact handleClose_reached h
    | cancel => exact ⟨cancelAll_within hmono st, fun st' hst => by cases hst⟩
    | ownerDown => exact ⟨cancelAll_within hmono st, fun st' hst => by cases hst⟩
  | stopped => cases c <;> exact ⟨hmono, fun st hst => by cases hst⟩

theorem run_reached (dataset : Dataset) (settings : Settings) (runtime : Runtime) (calls : List Call) :
    Reached dataset settings runtime calls ((machine dataset settings runtime).run start calls) := by
  have h := (machine dataset settings runtime).trace_inv (s := start)
    (I := fun history s => Reached dataset settings runtime (history.map Prod.fst) s) ?_ ?_ calls
  · rwa [Machine.map_fst_trace] at h
  · refine ⟨⟨Nat.zero_le _, fun file hf => by cases hf⟩, fun st hst => ?_⟩
    cases hst
    rfl
  · intro history s c h
    rw [List.map_append]
    exact step_reached c h

/-- After any calls of the process its writers and files are within bounds; while it runs, so they are while it
routes the next row and while it closes, and it makes room and flushes as it should. -/
theorem dataset_writer_bounds (dataset : Dataset) (settings : Settings) (runtime : Runtime) :
    (∀ calls, Reached dataset settings runtime calls ((machine dataset settings runtime).run start calls)) ∧
      (∀ rows st n, routeRows dataset settings runtime rows init .fresh = (.ok st, n) →
        WriterBounds dataset settings runtime rows st n) ∧
      ∀ path st entry n, st.active.lookup path = some entry →
        (flushEntry dataset settings runtime path st n).2 =
            (writeBatches dataset settings runtime entry.writer (passed dataset settings entry) n).2 ∧
          ∀ batch ∈ passed dataset settings entry, 1 ≤ batch.rowCount ∧ batch.rowCount ≤ settings.batchRows ∧
            batch.rowCount ≤ settings.maxBatchRows := by
  refine ⟨run_reached dataset settings runtime, fun rows st n h => routed_within_bounds h, ?_⟩
  intro path st entry n hl
  obtain ⟨hflush, hsize⟩ := flushEntry_passes dataset settings runtime n hl
  refine ⟨hflush, fun batch hb => ?_⟩
  obtain ⟨hpos, hle⟩ := hsize batch hb
  exact ⟨hpos, hle, Nat.le_trans hle settings.batchRowsLe⟩

end DatasetWriter

end Parquex
