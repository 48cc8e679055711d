import Parquex.DatasetWriterSteps

/-!
# The dataset writer conserves rows

Between two calls every row routed so far is in a published part or in the part
open for its partition, written or buffered. A routed row carries the path and
the time that its timestamp was given.
-/

namespace Parquex

namespace DatasetWriter

/-! ## Routed rows -/

structure Routed where
  path : String
  datetime : DateTime
  row : Term

section
variable (dataset : Dataset)

/-- The row was routed to its path and time. -/
def RoutedBy (r : Routed) : Prop :=
  ∃ partition, route dataset r.row = .ok (partition, r.datetime) ∧ partition.path = r.path

/-- A row of a file: a timestamp of the routed row's partition and time is in its partition column. -/
structure Stored (r : Routed) (encoded : Row) : Prop where
  encodes : Input.encodedRow dataset.schema r.row = .ok encoded
  timestamp : ∃ value native, encoded.get dataset.column = .int value ∧ inI64 value = true ∧
    dataset.partitionOf value = .ok native ∧ native.path = r.path ∧
    DateTime.fromUnix value dataset.unit = some r.datetime

end

variable {dataset : Dataset}

theorem fromNative_path {native : NativePartition} {partition : Partition}
    (h : Partition.fromNative native = .ok partition) : partition.path = native.path := by
  obtain ⟨start, -, h⟩ := except_bind_eq_ok.mp h
  obtain ⟨until', -, h⟩ := except_map_eq_ok.mp h
  rw [← h]

theorem fetchTimestamp_eq_ok {row timestamp : Term} {column : String}
    (h : fetchTimestamp row column = .ok timestamp) :
    ∃ entries key, row = .map entries ∧ (key, timestamp) ∈ entries ∧ keyNames column key = true ∧
      timestamp.isNil = false := by
  unfold fetchTimestamp at h
  cases row with
  | map entries =>
    simp only at h
    cases hf : entries.find? fun entry => keyNames column entry.1 with
    | none =>
      rw [hf] at h
      cases h
    | some entry =>
      obtain ⟨key, value⟩ := entry
      rw [hf] at h
      simp only at h
      by_cases hn : value.isNil = true
      · rw [if_pos hn] at h
        cases h
      · rw [if_neg hn] at h
        cases h
        have hkey := List.find?_some hf
        exact ⟨entries, key, rfl, List.mem_of_find?_eq_some hf, hkey, by simpa using hn⟩
  | _ => cases h

theorem route_eq_ok {row : Term} {partition : Partition} {datetime : DateTime}
    (h : route dataset row = .ok (partition, datetime)) :
    ∃ timestamp value native, fetchTimestamp row dataset.column = .ok timestamp ∧
      encodeTimestamp timestamp dataset.unit = .ok value ∧ inI64 value = true ∧
      dataset.partitionOf value = .ok native ∧ native.path = partition.path ∧
      DateTime.fromUnix value dataset.unit = some datetime := by
  unfold route at h
  by_cases hm : Input.isMap row = true
  · rw [if_pos hm] at h
    obtain ⟨timestamp, hfetch, h⟩ := except_bind_eq_ok.mp h
    obtain ⟨⟨value, datetime'⟩, hnormal, h⟩ := except_bind_eq_ok.mp h
    obtain ⟨partition', hpartition, h⟩ := except_map_eq_ok.mp h
    cases h
    obtain ⟨encoded, hencode, hdatetime⟩ := except_bind_eq_ok.mp (TimePartition.liftError_eq_ok.mp hnormal)
    obtain ⟨datetime'', hencoded, he⟩ := except_map_eq_ok.mp hdatetime
    cases he
    have hunix : DateTime.fromUnix value dataset.unit = some datetime := by
      unfold encodedDatetime at hencoded
      split at hencoded
      · cases hencoded
        assumption
      · cases hencoded
    obtain ⟨encoded', hencode', h⟩ := except_bind_eq_ok.mp hpartition
    have heq : encoded' = value := by
      rw [TimePartition.liftError_eq_ok, hencode] at hencode'
      exact (Except.ok.inj hencode').symm
    rw [heq] at h
    by_cases hi : inI64 value = true
    · simp only [hi, Bool.not_true, Bool.false_eq_true, if_false] at h
      obtain ⟨native, hnative, hfrom⟩ := except_bind_eq_ok.mp h
      exact ⟨timestamp, value, native, hfetch, hencode, hi, TimePartition.nativeResult_eq_ok.mp hnative,
        (fromNative_path (TimePartition.liftError_eq_ok.mp hfrom)).symm, hunix⟩
    · simp only [hi, Bool.not_false, if_true] at h
      cases h
  · rw [if_neg hm] at h
    cases h

theorem mem_of_mapM_some {α β : Type} {f : α → Option β} {as : List α} {bs : List β} (h : as.mapM f = some bs) {a : α}
    (ha : a ∈ as) : ∃ b ∈ bs, f a = some b := by
  induction as generalizing bs with
  | nil => cases ha
  | cons a' as ih =>
    rw [List.mapM_cons] at h
    simp only [bind, Option.bind_eq_some_iff, pure, Option.some.injEq] at h
    obtain ⟨b, hb, bs', hbs, rfl⟩ := h
    rcases List.mem_cons.mp ha with rfl | ha
    · exact ⟨b, by simp, hb⟩
    · obtain ⟨b', hb', hf⟩ := ih hbs ha
      exact ⟨b', by simp [hb'], hf⟩

/-- The key that routes a row is the key under which it is encoded. -/
theorem lookup_of_keyNames {entries : List (Term × Term)} {pairs : List (Binary × Term)} {column : String}
    {key value : Term} (hpairs : entries.mapM Input.normalizePair = some pairs)
    (hnodup : (pairs.map Prod.fst).Nodup) (hmem : (key, value) ∈ entries) (hkey : keyNames column key = true) :
    pairs.lookup (.text column) = some value := by
  obtain ⟨⟨name, value'⟩, hb, hn⟩ := mem_of_mapM_some hpairs hmem
  unfold Input.normalizePair at hn
  obtain ⟨name', hname, he⟩ := Option.map_eq_some_iff.mp hn
  cases he
  change Input.normalizeName key = some name at hname
  have hname : name = .text column := by
    cases key with
    | atom a =>
      cases hname
      exact congrArg Binary.text (eq_of_beq hkey)
    | binary b =>
      have hb : b = .text column := eq_of_beq hkey
      simp only [Input.normalizeName] at hname
      split at hname
      · cases hname
      · cases hname
        exact hb
    | _ => cases hkey
  rw [hname] at hb
  exact lookup_of_mem hnodup hb

/-- Encoding keeps an encoded timestamp, or makes it of a date and time. -/
theorem encodeValue_timestamp {type : FieldType} {unit : TimeUnit} {timestamp encoded : Term} {value : Int}
    (htype : type = .flat (.integer 64 true) ∨ ∃ timezone, type = .flat (.timestamp unit timezone))
    (hencode : encodeTimestamp timestamp unit = .ok value) (hvalue : Input.encodeValue timestamp type = .ok encoded) :
    encoded = timestamp ∨ encoded = .int value := by
  rcases htype with rfl | ⟨timezone, rfl⟩
  · unfold Input.encodeValue at hvalue
    cases hvalue
    exact Or.inl rfl
  · cases timestamp with
    | dateTime d =>
      cases hencode
      cases hvalue
      exact Or.inr rfl
    | _ =>
      cases hvalue
      exact Or.inl rfl

/-- A routed row that the native writer accepts is stored under its timestamp. -/
theorem stored_of_accepted {r : Routed} {encoded : Row} (hr : RoutedBy dataset r)
    (hencodes : Input.encodedRow dataset.schema r.row = .ok encoded)
    (haccepted : (encoded.get dataset.column).isIntegerOf .int64) : Stored dataset r encoded := by
  obtain ⟨partition, hroute, hpath⟩ := hr
  obtain ⟨timestamp, value, native, hfetch, hencode, hi, hnative, hnpath, hunix⟩ := route_eq_ok hroute
  obtain ⟨entries, key, hrow, hmem, hkey, hnil⟩ := fetchTimestamp_eq_ok hfetch
  obtain ⟨pairs, hnormal, hperm, henc⟩ := Input.encodedRow_eq_ok.mp hencodes
  obtain ⟨entries', hrow', hpairs, hnodup⟩ := Input.normalizeRow_eq_ok hnormal
  rw [hrow] at hrow'
  cases hrow'
  obtain ⟨found, hfound, hvalue⟩ := Input.encodeRow_get henc (Input.encodedRow_nodup hencodes) dataset.field_mem
  rw [dataset.field_name, lookup_of_keyNames hpairs hnodup hmem hkey] at hfound
  rw [dataset.field_name] at hvalue
  cases hfound
  have hint : encoded.get dataset.column = .int value := by
    rcases encodeValue_timestamp dataset.field_type hencode hvalue with he | he
    · rw [he] at haccepted ⊢
      rcases haccepted with hn | ⟨v, hv, -⟩
      · rw [hnil] at hn
        cases hn
      · rw [hv] at hencode ⊢
        cases hencode
        rfl
    · exact he
  exact ⟨hencodes, value, native, hint, hi, hnative, hnpath.trans hpath, hunix⟩

/-! ## Bounds -/

structure Bounds (rows : List Routed) (lower upper : DateTime) : Prop where
  le : ∀ r ∈ rows, lower.microseconds ≤ r.datetime.microseconds
  ge : ∀ r ∈ rows, r.datetime.microseconds ≤ upper.microseconds
  lowerMem : ∃ r ∈ rows, r.datetime = lower
  upperMem : ∃ r ∈ rows, r.datetime = upper

theorem Bounds.singleton (r : Routed) : Bounds [r] r.datetime r.datetime :=
  ⟨by simp, by simp, ⟨r, by simp⟩, ⟨r, by simp⟩⟩

theorem datetimeMin_self (d : DateTime) : datetimeMin d d = d := ite_self d

theorem datetimeMax_self (d : DateTime) : datetimeMax d d = d := ite_self d

theorem datetimeMin_eq (left right : DateTime) :
    datetimeMin left right = if right.microseconds < left.microseconds then right else left := by
  unfold datetimeMin DateTime.compare
  simp only [compare_gt_iff_gt]

theorem datetimeMax_eq (left right : DateTime) :
    datetimeMax left right = if left.microseconds < right.microseconds then right else left := by
  unfold datetimeMax DateTime.compare
  simp only [compare_lt_iff_lt]

theorem Bounds.append {rows : List Routed} {lower upper : DateTime} (h : Bounds rows lower upper) (r : Routed) :
    Bounds (rows ++ [r]) (datetimeMin lower r.datetime) (datetimeMax upper r.datetime) := by
  obtain ⟨rl, hrl, hl⟩ := h.lowerMem
  obtain ⟨ru, hru, hu⟩ := h.upperMem
  rw [datetimeMin_eq, datetimeMax_eq]
  refine ⟨?_, ?_, ?_, ?_⟩
  · intro x hx
    rcases List.mem_append.mp hx with hx | hx
    · have := h.le x hx
      split <;> omega
    · rw [List.mem_singleton.mp hx]
      split <;> omega
  · intro x hx
    rcases List.mem_append.mp hx with hx | hx
    · have := h.ge x hx
      split <;> omega
    · rw [List.mem_singleton.mp hx]
      split <;> omega
  · split
    · exact ⟨r, by simp, rfl⟩
    · exact ⟨rl, by simp [hrl], hl⟩
  · split
    · exact ⟨r, by simp, rfl⟩
    · exact ⟨ru, by simp [hru], hu⟩

/-! ## The invariant -/

/-- A reported part, its file and the rows routed to it. -/
structure Done where
  part : Part
  file : PublishedPart
  rows : List Routed

section
variable (dataset)

structure Done.Ok (d : Done) : Prop where
  key_eq : d.part.key = d.file.key
  size_eq : d.part.size = d.file.size
  count : d.part.rows = d.rows.length
  key : ∃ name, d.part.key = partKey dataset d.part.partition name
  paths : ∀ r ∈ d.rows, r.path = d.part.partition
  stored : List.Forall₂ (Stored dataset) d.rows d.file.rows
  bounds : Bounds d.rows d.part.minTimestamp d.part.maxTimestamp

/-- An entry and its native part hold the rows routed to its path since it was opened. -/
structure Holds (n : Native) (rows : List Routed) (path : String) (entry : Entry) : Prop where
  written : ∃ part written pending, n.parts[entry.writer]? = some part ∧ part.status = .opened ∧
    part.key = entry.key ∧ arrowFields dataset.schema.fields = .ok part.fields ∧ rows = written ++ pending ∧
    entry.buffer.reverse = pending.map Routed.row ∧ List.Forall₂ (Stored dataset) written part.rows
  count : entry.rows = rows.length
  routed : ∀ r ∈ rows, RoutedBy dataset r ∧ r.path = path
  partition : entry.partition = path
  key : ∃ name, entry.key = partKey dataset path name

/-- The rows of some finished parts of a path. -/
def doneRows (done : List Done) (path : String) : List Routed :=
  (done.filter fun d => d.part.partition = path).flatMap Done.rows

/-- `ready` is a path whose entry was opened at a time and has no row yet. -/
structure Invariant (ready : Option (String × DateTime)) (routed : List Routed) (done : List Done)
    (current : String → List Routed) (st : State) (n : Native) : Prop where
  reports : st.reports.reverse = done.map Done.part
  published : n.published = done.map Done.file
  ok : ∀ d ∈ done, d.Ok dataset
  active : ∀ path entry, st.active.lookup path = some entry → Holds dataset n (current path) path entry
  idle : ∀ path, st.active.lookup path = none → current path = []
  split : ∀ path, routed.filter (fun r => r.path = path) = doneRows done path ++ current path
  distinct : ∀ p q e e', st.active.lookup p = some e → st.active.lookup q = some e' → e.writer = e'.writer → p = q
  bounds : ∀ path entry, st.active.lookup path = some entry →
    Bounds (current path) entry.minTimestamp entry.maxTimestamp ∨
      current path = [] ∧ ready = some (path, entry.minTimestamp) ∧ entry.maxTimestamp = entry.minTimestamp
  settled : ∀ handle part, n.parts[handle]? = some part →
    part.status = .published ∨ ∃ path entry, st.active.lookup path = some entry ∧ entry.writer = handle

def Conserves (ready : Option (String × DateTime)) (routed : List Routed) (st : State) (n : Native) : Prop :=
  ∃ done current, Invariant dataset ready routed done current st n

end

theorem Holds.frame {n n' : Native} {rows : List Routed} {path : String} {entry : Entry}
    (h : Holds dataset n rows path entry) (hp : n'.parts[entry.writer]? = n.parts[entry.writer]?) :
    Holds dataset n' rows path entry :=
  ⟨by rw [hp]; exact h.written, h.count, h.routed, h.partition, h.key⟩

theorem Holds.writer_lt {n : Native} {rows : List Routed} {path : String} {entry : Entry}
    (h : Holds dataset n rows path entry) : entry.writer < n.parts.length := by
  obtain ⟨part, -, -, hp, -⟩ := h.written
  exact (List.getElem?_eq_some_iff.mp hp).1

variable (dataset) in
theorem init_conserves : Conserves dataset none [] init .fresh := by
  refine ⟨[], fun _ => [], rfl, rfl, by simp, ?_, fun _ _ => rfl, fun _ => rfl, ?_, ?_, ?_⟩
  · intro path entry h
    cases h
  · intro p q e e' h
    cases h
  · intro path entry h
    cases h
  · intro handle part h
    cases h

/-- The entry of a path and its native part change together. -/
theorem Invariant.replace {ready : Option (String × DateTime)} {routed : List Routed} {done : List Done}
    {current : String → List Routed} {st : State} {n n' : Native} {path : String} {entry : Entry}
    (h : Invariant dataset ready routed done current st n) (entry' : Entry) (rows routed' : List Routed) (access : Nat)
    (hready : ∀ q d, ready = some (q, d) → q = path) (hlookup : st.active.lookup path = some entry)
    (hwriter : entry'.writer = entry.writer) (hpublished : n'.published = n.published)
    (hparts : ∀ handle, handle ≠ entry.writer → n'.parts[handle]? = n.parts[handle]?)
    (hholds : Holds dataset n' rows path entry') (hbounds : Bounds rows entry'.minTimestamp entry'.maxTimestamp)
    (hsplit : ∀ p, routed'.filter (fun r => r.path = p) = doneRows done p ++ Function.update current path rows p) :
    Invariant dataset none routed' done (Function.update current path rows)
      { st with active := st.active.insert path entry', access } n' := by
  have hlookup' : ∀ q, q ≠ path → (st.active.insert path entry').lookup q = st.active.lookup q :=
    fun q hq => AList.lookup_insert_ne hq
  have hself : (st.active.insert path entry').lookup path = some entry' := AList.lookup_insert _
  refine ⟨h.reports, hpublished.trans h.published, h.ok, ?_, ?_, hsplit, ?_, ?_, ?_⟩
  · intro q e hq
    by_cases he : q = path
    · subst he
      rw [Function.update_self q rows current]
      simp only [hself, Option.some.injEq] at hq
      exact hq ▸ hholds
    · rw [Function.update_of_ne he]
      simp only [hlookup' q he] at hq
      refine (h.active q e hq).frame (hparts _ ?_)
      intro hw
      exact he (h.distinct q path e entry hq hlookup hw)
  · intro q hq
    by_cases he : q = path
    · subst he
      simp only [hself] at hq
      cases hq
    · rw [Function.update_of_ne he]
      simp only [hlookup' q he] at hq
      exact h.idle q hq
  · have hentry : ∀ q e, (st.active.insert path entry').lookup q = some e →
        ∃ e₀, st.active.lookup q = some e₀ ∧ e₀.writer = e.writer := by
      intro q e hq
      by_cases he : q = path
      · subst he
        simp only [hself, Option.some.injEq] at hq
        exact ⟨entry, hlookup, by rw [← hq, hwriter]⟩
      · simp only [hlookup' q he] at hq
        exact ⟨e, hq, rfl⟩
    intro p q e e' hp hq hw
    obtain ⟨e₀, h₀, hw₀⟩ := hentry p e hp
    obtain ⟨e₁, h₁, hw₁⟩ := hentry q e' hq
    exact h.distinct p q e₀ e₁ h₀ h₁ (by rw [hw₀, hw₁, hw])
  · intro q e hq
    by_cases he : q = path
    · subst he
      rw [Function.update_self q rows current]
      simp only [hself, Option.some.injEq] at hq
      exact Or.inl (hq ▸ hbounds)
    · rw [Function.update_of_ne he]
      simp only [hlookup' q he] at hq
      rcases h.bounds q e hq with hb | ⟨-, hr, -⟩
      · exact Or.inl hb
      · exact absurd (hready _ _ hr) he
  · intro handle part hp
    by_cases hh : handle = entry.writer
    · exact Or.inr ⟨path, entry', hself, by rw [hwriter, hh]⟩
    · rw [hparts handle hh] at hp
      rcases h.settled handle part hp with hs | ⟨q, e, hq, hw⟩
      · exact Or.inl hs
      · refine Or.inr ⟨q, e, ?_, hw⟩
        have hne : q ≠ path := by
          rintro rfl
          rw [hlookup] at hq
          cases hq
          exact hh hw.symm
        simp only [hlookup' q hne]
        exact hq

/-! ## Flushing -/

variable (dataset) in
/-- The partition column is written as 64-bit integers. -/
theorem field_integer : ∃ flat type, dataset.field.type = .flat flat ∧ flat.arrow? = some type ∧
    type.storage = .integer .int64 := by
  rcases dataset.field_type with h | ⟨timezone, h⟩
  · exact ⟨_, _, h, rfl, rfl⟩
  · exact ⟨_, _, h, rfl, rfl⟩

variable {settings : Settings} {runtime : Runtime}

theorem accepted_of_decoded {fields : List Field} {maxRows : Nat} {batches : List Batch}
    (harrow : arrowFields dataset.schema.fields = .ok fields) (hschema : ∀ batch ∈ batches, batch.schema = dataset.schema)
    (hdecoded : ∀ batch ∈ batches, ∃ record, decodeBatch batch.toNative fields maxRows = .ok record) :
    ∀ row ∈ batches.flatMap Batch.toRows, (row.get dataset.column).isIntegerOf .int64 := by
  obtain ⟨flat, type, hflat, htype, hstorage⟩ := field_integer dataset
  intro row hr
  obtain ⟨batch, hb, hr⟩ := List.mem_flatMap.mp hr
  obtain ⟨record, hd⟩ := hdecoded batch hb
  have hs := hschema batch hb
  have := decodeBatch_integer (hs ▸ harrow) hd (hs ▸ dataset.field_mem) hflat htype hstorage row hr
  rwa [dataset.field_name] at this

section
variable {ready : Option (String × DateTime)} {routed : List Routed} {done : List Done}
  {current : String → List Routed} {st st' : State} {n n' : Native} {path : String}

theorem Invariant.writer_lt (h : Invariant dataset ready routed done current st n) {entry : Entry}
    (hl : st.active.lookup path = some entry) : entry.writer < n.parts.length :=
  (h.active path entry hl).writer_lt

theorem Invariant.flush (h : Invariant dataset none routed done current st n)
    (hx : flushEntry dataset settings runtime path st n = (.ok st', n')) :
    Invariant dataset none routed done current st' n' ∧
      ∃ entry, st'.active.lookup path = some entry ∧ entry.buffer = [] := by
  obtain ⟨entry, hlookup, hx⟩ := flushEntry_ok hx
  rcases hx with ⟨hempty, rfl, rfl⟩ | ⟨batches, hbatches, hwrite, rfl⟩
  · exact ⟨h, entry, hlookup, hempty⟩
  have hholds := h.active path entry hlookup
  obtain ⟨part, written, pending, hpart, hopened, hkey, harrow, hrows, hbuffer, hstored⟩ := hholds.written
  obtain ⟨hpublished, hparts, hdecoded⟩ := writeBatches_ok batches hpart hwrite
  obtain ⟨hschema, hencoded⟩ := Input.batches_eq_ok settings.batchRowsPos dataset.names_ne_nil hbatches
  rw [hbuffer, List.forall₂_map_left_iff] at hencoded
  have haccepted := accepted_of_decoded harrow hschema hdecoded
  have hpending : List.Forall₂ (Stored dataset) pending (batches.flatMap Batch.toRows) := by
    refine forall₂_of_mem hencoded fun r hr e he hre => stored_of_accepted ?_ hre (haccepted e he)
    exact (hholds.routed r (by rw [hrows]; exact List.mem_append_right _ hr)).1
  have hlt := h.writer_lt hlookup
  have hnew : n'.parts[entry.writer]? = some (NativePart.add part (batches.flatMap Batch.toRows)) := by
    rw [hparts, List.getElem?_set_self hlt]
  have hcurrent : Function.update current path (current path) = current := Function.update_eq_self path current
  refine ⟨?_, { entry with buffer := [] }, AList.lookup_insert _, rfl⟩
  have hinv := h.replace { entry with buffer := [] } (current path) routed st.access (fun _ _ hr => by cases hr) hlookup
    rfl hpublished ?_ ?_ ?_ ?_
  · rw [hcurrent] at hinv
    exact hinv
  · intro handle hne
    rw [hparts, List.getElem?_set_ne (Ne.symm hne)]
  · refine ⟨⟨_, current path, [], hnew, hopened, hkey, harrow, by simp, rfl, ?_⟩, hholds.count, hholds.routed,
      hholds.partition, hholds.key⟩
    rw [hrows]
    exact List.rel_append hstored hpending
  · rcases h.bounds path entry hlookup with hb | ⟨-, hr, -⟩
    · exact hb
    · cases hr
  · intro p
    rw [hcurrent]
    exact h.split p

/-! ## Publishing and opening -/

theorem flushEntry_none (hx : flushEntry dataset settings runtime path st n = (.ok st', n')) (q : String)
    (hq : st.active.lookup q = none) : st'.active.lookup q = none := by
  obtain ⟨entry, hlookup, hx⟩ := flushEntry_ok hx
  rcases hx with ⟨-, rfl, -⟩ | ⟨batches, -, -, rfl⟩
  · exact hq
  · have hne : q ≠ path := by
      rintro rfl
      rw [hlookup] at hq
      cases hq
    exact (AList.lookup_insert_ne hne).trans hq

theorem publishEntry_none (hx : publishEntry dataset settings runtime path st n = (.ok st', n')) (q : String)
    (hq : q = path ∨ st.active.lookup q = none) : st'.active.lookup q = none := by
  obtain ⟨st₁, n₁, entry, size, hflush, hlookup, hclose, rfl⟩ := publishEntry_ok hx
  by_cases hne : q = path
  · rw [hne]
    exact AList.lookup_erase path st₁.active
  · refine (AList.lookup_erase_ne hne).trans (flushEntry_none hflush q ?_)
    exact hq.resolve_left hne

theorem doneRows_append (done : List Done) (d : Done) (p : String) :
    doneRows (done ++ [d]) p = doneRows done p ++ if d.part.partition = p then d.rows else [] := by
  unfold doneRows
  rw [List.filter_append, List.flatMap_append]
  by_cases h : d.part.partition = p
  · simp [h]
  · simp [h]

theorem Invariant.close (h : Invariant dataset none routed done current st n) {entry : Entry} {size : Nat}
    (hlookup : st.active.lookup path = some entry) (hempty : entry.buffer = [])
    (hclose : closeWriter runtime entry.writer n = (.ok size, n')) :
    ∃ d, Invariant dataset none routed (done ++ [d]) (Function.update current path [])
      { st with active := st.active.erase path, reports := partOf entry size :: st.reports } n' := by
  obtain ⟨part, hpart, -, hparts, hpublished⟩ := closeWriter_ok hclose
  have hholds := h.active path entry hlookup
  obtain ⟨part', written, pending, hpart', -, hkey, -, hrows, hbuffer, hstored⟩ := hholds.written
  rw [hpart] at hpart'
  cases hpart'
  have hpending : pending = [] := by
    rw [hempty] at hbuffer
    simpa using hbuffer.symm
  have hwritten : written = current path := by rw [hrows, hpending, List.append_nil]
  have hlookup' : ∀ q, q ≠ path → (st.active.erase path).lookup q = st.active.lookup q :=
    fun q hq => AList.lookup_erase_ne hq
  have hself : (st.active.erase path).lookup path = none := AList.lookup_erase path st.active
  have hwriter : ∀ q e, (st.active.erase path).lookup q = some e →
      q ≠ path ∧ st.active.lookup q = some e ∧ e.writer ≠ entry.writer := by
    intro q e hq
    have hne : q ≠ path := by
      rintro rfl
      simp only [hself] at hq
      cases hq
    simp only [hlookup' q hne] at hq
    exact ⟨hne, hq, fun hw => hne (h.distinct q path e entry hq hlookup hw)⟩
  let d : Done := ⟨partOf entry size, { key := part.key, rows := part.rows, size }, current path⟩
  refine ⟨d, ?_, ?_, ?_, ?_, ?_, ?_, ?_, ?_, ?_⟩
  · rw [List.reverse_cons, h.reports, List.map_append]
    rfl
  · rw [hpublished, h.published, List.map_append]
    rfl
  · intro d' hd
    rcases List.mem_append.mp hd with hd | hd
    · exact h.ok d' hd
    · rw [List.mem_singleton.mp hd]
      refine ⟨hkey.symm, rfl, hholds.count, ?_, ?_, ?_, ?_⟩
      · obtain ⟨name, hname⟩ := hholds.key
        refine ⟨name, ?_⟩
        show entry.key = partKey dataset entry.partition name
        rw [hholds.partition, hname]
      · intro r hr
        exact ((hholds.routed r hr).2).trans hholds.partition.symm
      · rw [hwritten] at hstored
        exact hstored
      · rcases h.bounds path entry hlookup with hb | ⟨-, hr, -⟩
        · exact hb
        · cases hr
  · intro q e hq
    obtain ⟨hne, hq, hw⟩ := hwriter q e hq
    rw [Function.update_of_ne hne]
    exact (h.active q e hq).frame (by rw [hparts, List.getElem?_set_ne (Ne.symm hw)])
  · intro q hq
    by_cases hne : q = path
    · rw [hne, Function.update_self path [] current]
    · rw [Function.update_of_ne hne]
      exact h.idle q (hlookup' q hne ▸ hq)
  · intro p
    rw [doneRows_append, h.split p]
    by_cases hp : p = path
    · subst hp
      have hd : d.part.partition = p := hholds.partition
      rw [if_pos hd, Function.update_self p [] current, List.append_nil]
    · have hd : d.part.partition ≠ p := fun he => hp (he.symm.trans hholds.partition)
      rw [if_neg hd, Function.update_of_ne hp, List.append_nil]
  · intro p q e e' hp hq hw
    exact h.distinct p q e e' (hwriter p e hp).2.1 (hwriter q e' hq).2.1 hw
  · intro q e hq
    obtain ⟨hne, hq, -⟩ := hwriter q e hq
    rw [Function.update_of_ne hne]
    exact h.bounds q e hq
  · intro handle part'' hp
    rw [hparts] at hp
    by_cases hh : handle = entry.writer
    · rw [hh, List.getElem?_set_self (h.writer_lt hlookup)] at hp
      cases hp
      exact Or.inl rfl
    · rw [List.getElem?_set_ne (Ne.symm hh)] at hp
      rcases h.settled handle part'' hp with hs | ⟨q, e, hq, hw⟩
      · exact Or.inl hs
      · refine Or.inr ⟨q, e, ?_, hw⟩
        have hne : q ≠ path := by
          rintro rfl
          rw [hlookup] at hq
          cases hq
          exact hh hw.symm
        simp only [hlookup' q hne]
        exact hq

theorem Conserves.publish (h : Conserves dataset none routed st n)
    (hx : publishEntry dataset settings runtime path st n = (.ok st', n')) : Conserves dataset none routed st' n' := by
  obtain ⟨done, current, h⟩ := h
  obtain ⟨st₁, n₁, entry, size, hflush, hlookup, hclose, rfl⟩ := publishEntry_ok hx
  obtain ⟨h₁, entry', hlookup', hempty⟩ := h.flush hflush
  rw [hlookup] at hlookup'
  cases hlookup'
  obtain ⟨d, hd⟩ := h₁.close hlookup hempty hclose
  exact ⟨_, _, hd⟩

theorem Invariant.openEntry (h : Invariant dataset none routed done current st n) {partition : Partition}
    {datetime : DateTime} (hnone : st.active.lookup partition.path = none)
    (hx : openEntry dataset settings runtime partition datetime st n = (.ok st', n')) :
    Invariant dataset (some (partition.path, datetime)) routed done current st' n' := by
  obtain ⟨name, fields, harrow, -, hpublished, hparts, rfl⟩ := openEntry_ok hx
  have hself : ∀ entry : Entry, (st.active.insert partition.path entry).lookup partition.path = some entry :=
    fun _ => AList.lookup_insert _
  have hlookup' : ∀ q (entry : Entry), q ≠ partition.path →
      (st.active.insert partition.path entry).lookup q = st.active.lookup q := fun q _ hq => AList.lookup_insert_ne hq
  have hold : ∀ handle, handle < n.parts.length → n'.parts[handle]? = n.parts[handle]? := by
    intro handle hh
    rw [hparts, List.getElem?_append_left hh]
  have hnew : n'.parts[n.parts.length]? = some (newPart settings (partKey dataset partition.path name) fields) := by
    rw [hparts]
    simp
  refine ⟨h.reports, hpublished.trans h.published, h.ok, ?_, ?_, h.split, ?_, ?_, ?_⟩
  · intro q e hq
    by_cases he : q = partition.path
    · subst he
      simp only [hself, Option.some.injEq] at hq
      subst hq
      rw [h.idle _ hnone]
      exact ⟨⟨_, [], [], hnew, rfl, rfl, harrow, rfl, rfl, .nil⟩, rfl, by simp, rfl, name, rfl⟩
    · simp only [hlookup' q _ he] at hq
      exact (h.active q e hq).frame (hold _ (h.writer_lt hq))
  · intro q hq
    by_cases he : q = partition.path
    · subst he
      simp only [hself] at hq
      cases hq
    · simp only [hlookup' q _ he] at hq
      exact h.idle q hq
  · intro p q e e' hp hq hw
    by_cases hpe : p = partition.path
    · by_cases hqe : q = partition.path
      · rw [hpe, hqe]
      · subst hpe
        simp only [hself, Option.some.injEq] at hp
        simp only [hlookup' q _ hqe] at hq
        have := h.writer_lt hq
        rw [← hw, ← hp] at this
        exact absurd this (Nat.lt_irrefl _)
    · simp only [hlookup' p _ hpe] at hp
      by_cases hqe : q = partition.path
      · subst hqe
        simp only [hself, Option.some.injEq] at hq
        have := h.writer_lt hp
        rw [hw, ← hq] at this
        exact absurd this (Nat.lt_irrefl _)
      · simp only [hlookup' q _ hqe] at hq
        exact h.distinct p q e e' hp hq hw
  · intro q e hq
    by_cases he : q = partition.path
    · subst he
      simp only [hself, Option.some.injEq] at hq
      subst hq
      exact Or.inr ⟨h.idle _ hnone, rfl, rfl⟩
    · simp only [hlookup' q _ he] at hq
      rcases h.bounds q e hq with hb | ⟨-, hr, -⟩
      · exact Or.inl hb
      · cases hr
  · intro handle part hp
    by_cases hh : handle < n.parts.length
    · rw [hold handle hh] at hp
      rcases h.settled handle part hp with hs | ⟨q, e, hq, hw⟩
      · exact Or.inl hs
      · refine Or.inr ⟨q, e, ?_, hw⟩
        have hne : q ≠ partition.path := by
          rintro rfl
          rw [hnone] at hq
          cases hq
        simp only [hlookup' q _ hne]
        exact hq
    · have hlt := (List.getElem?_eq_some_iff.mp hp).1
      rw [hparts, List.length_append] at hlt
      have he : handle = n.parts.length := by
        have : [newPart settings (partKey dataset partition.path name) fields].length = 1 := rfl
        omega
      exact Or.inr ⟨partition.path, _, hself _, he.symm⟩

theorem Conserves.openEntry (h : Conserves dataset none routed st n) {partition : Partition} {datetime : DateTime}
    (hnone : st.active.lookup partition.path = none)
    (hx : openEntry dataset settings runtime partition datetime st n = (.ok st', n')) :
    Conserves dataset (some (partition.path, datetime)) routed st' n' := by
  obtain ⟨done, current, h⟩ := h
  exact ⟨done, current, h.openEntry hnone hx⟩

/-! ## Routing -/

theorem Conserves.ensureEntry (h : Conserves dataset none routed st n) {partition : Partition} {datetime : DateTime}
    {row : Term} (hx : ensureEntry dataset settings runtime partition datetime row st n = (.ok st', n')) :
    ∃ ready, (ready = none ∨ ready = some (partition.path, datetime)) ∧ Conserves dataset ready routed st' n' := by
  rcases ensureEntry_ok hx with ⟨entry, -, -, rfl, rfl⟩ | ⟨st₁, n₁, hroom, hopen⟩
  · exact ⟨none, Or.inl rfl, h⟩
  rcases hroom with ⟨-, rfl, rfl, hnone⟩ | ⟨path, hpublish, hpath⟩
  · exact ⟨_, Or.inr rfl, h.openEntry hnone hopen⟩
  · have hnone := publishEntry_none hpublish partition.path (hpath.imp Eq.symm id)
    exact ⟨_, Or.inr rfl, (h.publish hpublish).openEntry hnone hopen⟩

theorem Bounds.next {rows : List Routed} {entry : Entry} {r : Routed}
    (h : Bounds rows entry.minTimestamp entry.maxTimestamp ∨
      rows = [] ∧ ready = some (path, entry.minTimestamp) ∧ entry.maxTimestamp = entry.minTimestamp)
    (hready : ready = none ∨ ready = some (path, r.datetime)) :
    Bounds (rows ++ [r]) (datetimeMin entry.minTimestamp r.datetime) (datetimeMax entry.maxTimestamp r.datetime) := by
  rcases h with hb | ⟨hrows, hr, hmax⟩
  · exact hb.append r
  · have hmin : entry.minTimestamp = r.datetime := by
      rcases hready with h' | h'
      · rw [h'] at hr
        cases hr
      · rw [h', Option.some.injEq, Prod.mk.injEq] at hr
        exact hr.2.symm
    rw [hrows, hmax, hmin, datetimeMin_self, datetimeMax_self]
    exact Bounds.singleton r

variable (runtime) in
/-- The state with one more row, before it is flushed. -/
theorem Invariant.append {r : Routed} (h : Invariant dataset ready routed done current st n)
    (hready : ready = none ∨ ready = some (r.path, r.datetime)) (hr : RoutedBy dataset r) {entry : Entry}
    (hlookup : st.active.lookup r.path = some entry) :
    Invariant dataset none (routed ++ [r]) done (Function.update current r.path (current r.path ++ [r]))
      { st with
        active := st.active.insert r.path
          (entry.append r.datetime r.row (runtime.externalSize r.row) (st.access + 1))
        access := st.access + 1 } n := by
  have hholds := h.active r.path entry hlookup
  obtain ⟨part, written, pending, hpart, hopened, hkey, harrow, hrows, hbuffer, hstored⟩ := hholds.written
  refine h.replace (entry.append r.datetime r.row (runtime.externalSize r.row) (st.access + 1))
    (current r.path ++ [r]) (routed ++ [r]) (st.access + 1) ?_ hlookup rfl (Eq.refl n.published) (fun _ _ => rfl) ?_
    (Bounds.next (h.bounds r.path entry hlookup) hready) ?_
  · intro q d hq
    rcases hready with h' | h'
    · rw [h'] at hq
      cases hq
    · rw [h'] at hq
      cases hq
      rfl
  · refine ⟨⟨part, written, pending ++ [r], hpart, hopened, hkey, harrow, ?_, ?_, hstored⟩, ?_, ?_,
      hholds.partition, hholds.key⟩
    · rw [hrows, List.append_assoc]
    · show (r.row :: entry.buffer).reverse = _
      rw [List.reverse_cons, hbuffer, List.map_append]
      rfl
    · show entry.rows + 1 = _
      rw [hholds.count]
      simp
    · intro x hx
      rcases List.mem_append.mp hx with hx | hx
      · exact hholds.routed x hx
      · rw [List.mem_singleton.mp hx]
        exact ⟨hr, rfl⟩
  · intro p
    rw [List.filter_append, h.split p]
    by_cases hp : r.path = p
    · subst hp
      rw [Function.update_self r.path (current r.path ++ [r]) current, List.append_assoc]
      simp
    · rw [Function.update_of_ne (Ne.symm hp)]
      simp [hp]

theorem Conserves.appendRow {r : Routed} (h : Conserves dataset ready routed st n)
    (hready : ready = none ∨ ready = some (r.path, r.datetime)) (hr : RoutedBy dataset r)
    (hx : appendRow dataset settings runtime r.path r.datetime r.row st n = (.ok st', n')) :
    Conserves dataset none (routed ++ [r]) st' n' := by
  obtain ⟨done, current, h⟩ := h
  obtain ⟨entry, st₁, hlookup, rfl, hx⟩ := appendRow_ok hx
  have hinv := h.append runtime hready hr hlookup
  rcases hx with ⟨-, rfl, rfl⟩ | hflush
  · exact ⟨_, _, hinv⟩
  · exact ⟨_, _, (hinv.flush hflush).1⟩

theorem Conserves.routeRow {row : Term} (h : Conserves dataset none routed st n)
    (hx : routeRow dataset settings runtime st row n = (.ok st', n')) :
    ∃ r : Routed, r.row = row ∧ RoutedBy dataset r ∧ Conserves dataset none (routed ++ [r]) st' n' := by
  obtain ⟨partition, datetime, st₁, n₁, hroute, hensure, happend⟩ := routeRow_ok hx
  obtain ⟨ready, hready, h₁⟩ := h.ensureEntry hensure
  let r : Routed := ⟨partition.path, datetime, row⟩
  have hr : RoutedBy dataset r := ⟨partition, hroute, rfl⟩
  exact ⟨r, rfl, hr, Conserves.appendRow (r := r) h₁ hready hr happend⟩

end

theorem Conserves.routeRows {rows : List Term} :
    ∀ {routed : List Routed} {st st' : State} {n n' : Native}, Conserves dataset none routed st n →
      routeRows dataset settings runtime rows st n = (.ok st', n') →
      ∃ more : List Routed, more.map Routed.row = rows ∧ (∀ r ∈ more, RoutedBy dataset r) ∧
        Conserves dataset none (routed ++ more) st' n' := by
  induction rows with
  | nil =>
    intro routed st st' n n' h hx
    obtain ⟨rfl, rfl⟩ := Effect.pure_eq_ok.mp hx
    exact ⟨[], rfl, by simp, by simpa using h⟩
  | cons row rows ih =>
    intro routed st st' n n' h hx
    unfold DatasetWriter.routeRows at hx
    rw [List.foldlM_cons] at hx
    obtain ⟨st₁, n₁, hrow, hrest⟩ := Effect.bind_eq_ok.mp hx
    obtain ⟨r, hr, hby, h₁⟩ := h.routeRow hrow
    obtain ⟨more, hmore, hall, h₂⟩ := ih h₁ hrest
    refine ⟨r :: more, by rw [List.map_cons, hr, hmore], ?_, by simpa using h₂⟩
    intro x hx
    rcases List.mem_cons.mp hx with rfl | hx
    · exact hby
    · exact hall x hx

theorem Conserves.writeRows {input : WriteInput} {routed : List Routed} {st st' : State} {n n' : Native}
    (h : Conserves dataset none routed st n)
    (hx : writeRows dataset settings runtime input st n = (.ok st', n')) :
    ∃ rows, ∃ more : List Routed, inputRows input = .ok rows ∧ more.map Routed.row = rows ∧
      (∀ r ∈ more, RoutedBy dataset r) ∧ Conserves dataset none (routed ++ more) st' n' := by
  obtain ⟨rows, n₁, hrows, hrest⟩ := Effect.bind_eq_ok.mp hx
  obtain ⟨hok, rfl⟩ := lift_eq_ok.mp hrows
  obtain ⟨more, hmore, hall, h'⟩ := h.routeRows hrest
  exact ⟨rows, more, TimePartition.liftError_eq_ok.mp hok, hmore, hall, h'⟩

/-! ## Closing -/

theorem Conserves.closePaths {paths : List String} :
    ∀ {routed : List Routed} {st st' : State} {n n' : Native}, Conserves dataset none routed st n →
      closePaths dataset settings runtime paths st n = (.ok st', n') →
      Conserves dataset none routed st' n' ∧
        ∀ q, q ∈ paths ∨ st.active.lookup q = none → st'.active.lookup q = none := by
  induction paths with
  | nil =>
    intro routed st st' n n' h hx
    cases hx
    exact ⟨h, fun q hq => hq.resolve_left (by simp)⟩
  | cons path paths ih =>
    intro routed st st' n n' h hx
    unfold DatasetWriter.closePaths at hx
    cases hp : publishEntry dataset settings runtime path st n with
    | mk result n₁ =>
      rw [hp] at hx
      cases result with
      | error stop => cases stop <;> cases hx
      | ok st₁ =>
        obtain ⟨h', hnone⟩ := ih (h.publish hp) hx
        refine ⟨h', fun q hq => hnone q ?_⟩
        rcases hq with hq | hq
        · rcases List.mem_cons.mp hq with rfl | hq
          · exact Or.inr (publishEntry_none hp q (Or.inl rfl))
          · exact Or.inl hq
        · exact Or.inr (publishEntry_none hp q (Or.inr hq))

theorem mem_activePaths {st : State} {path : String} {entry : Entry} (h : st.active.lookup path = some entry) :
    path ∈ activePaths st := by
  have hmem : (⟨path, entry⟩ : Sigma fun _ : String => Entry) ∈ st.active.entries := AList.mem_lookup_iff.mp h
  unfold activePaths
  exact List.mem_map.mpr ⟨_, (List.perm_insertionSort _ _).mem_iff.mpr hmem, rfl⟩

/-- After a close every row routed so far is in a finished part. -/
theorem Conserves.closeAll {routed : List Routed} {st st' : State} {n n' : Native} (h : Conserves dataset none routed st n)
    (hx : closeAll dataset settings runtime st n = (.ok st', n')) :
    (∀ q, st'.active.lookup q = none) ∧ ∃ done : List Done, st'.reports.reverse = done.map Done.part ∧
      n'.published = done.map Done.file ∧ (∀ d ∈ done, d.Ok dataset) ∧
      ∀ path, routed.filter (fun r => r.path = path) = doneRows done path := by
  obtain ⟨⟨done, current, h'⟩, hnone⟩ := h.closePaths hx
  have hall : ∀ q, st'.active.lookup q = none := by
    intro q
    apply hnone
    cases hq : st.active.lookup q with
    | none => exact Or.inr rfl
    | some entry => exact Or.inl (mem_activePaths hq)
  refine ⟨hall, done, h'.reports, h'.published, h'.ok, fun path => ?_⟩
  rw [h'.split path, h'.idle path (hall path), List.append_nil]

end DatasetWriter

end Parquex
