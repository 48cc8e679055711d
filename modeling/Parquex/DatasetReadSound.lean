import Parquex.DatasetRead
import Parquex.DatasetStreamSound
import Parquex.HalfOpen

/-!
# Reading a dataset takes every batch once

The calls of the next function, taken until the stream ends, emit what the
traversal of its partitions returns; a traversal returns the rows that the files
hold within the range.
-/

namespace Parquex

namespace DatasetStream

section
variable {settings : Settings} {source : Source} {shelf : Shelf} {plans : List String} {s s' : Enumeration}
  {state : State} {result : Except Error (List Batch)}

/-! ## Steps of a consumer -/

variable (settings source) in
/-- The batches of an enumeration, once there is enough fuel. -/
def Yields (s : Enumeration) (result : Except Error (List Batch)) : Prop :=
  ∃ enough, ∀ fuel, enough ≤ fuel → toList settings source fuel s = some result

theorem toList_succ (fuel : Nat) : toList settings source (fuel + 1) s =
    match s.phase with
    | .ended => some (.ok [])
    | .idle => toList settings source fuel (step settings source s .demand).2
    | .running _ =>
      match step settings source s .turn with
      | (.none, s) => toList settings source fuel s
      | (.batch output, s) => (toList settings source fuel s).map fun rest => rest.map (output :: ·)
      | (.raised error, _) => some (.error error) := rfl

theorem Yields.of_succ (enough : Nat)
    (h : ∀ fuel, enough ≤ fuel → toList settings source (fuel + 1) s = some result) :
    Yields settings source s result := by
  refine ⟨enough + 1, fun fuel hf => ?_⟩
  cases fuel with
  | zero => omega
  | succ fuel => exact h fuel (by omega)

theorem yields_ended (hp : s.phase = .ended) : Yields settings source s (.ok []) := by
  refine Yields.of_succ 0 fun fuel _ => ?_
  rw [toList_succ, hp]

theorem yields_idle (hp : s.phase = .idle) (h : Yields settings source (step settings source s .demand).2 result) :
    Yields settings source s result := by
  obtain ⟨enough, h⟩ := h
  refine Yields.of_succ enough fun fuel hf => ?_
  rw [toList_succ, hp]
  exact h fuel hf

theorem yields_again (hp : s.phase = .running state) (hs : step settings source s .turn = (.none, s'))
    (h : Yields settings source s' result) : Yields settings source s result := by
  obtain ⟨enough, h⟩ := h
  refine Yields.of_succ enough fun fuel hf => ?_
  rw [toList_succ, hp, hs]
  exact h fuel hf

theorem yields_batch {output : Batch} (hp : s.phase = .running state)
    (hs : step settings source s .turn = (.batch output, s')) (h : Yields settings source s' result) :
    Yields settings source s (result.map (output :: ·)) := by
  obtain ⟨enough, h⟩ := h
  refine Yields.of_succ enough fun fuel hf => ?_
  rw [toList_succ, hp, hs]
  simp only [h fuel hf, Option.map_some]

theorem yields_raised {error : Error} (hp : s.phase = .running state)
    (hs : step settings source s .turn = (.raised error, s')) : Yields settings source s (.error error) := by
  refine Yields.of_succ 0 fun fuel _ => ?_
  rw [toList_succ, hp, hs]

theorem Reached.pull (h : Reached settings source plans s) :
    Reached settings source plans (Enumeration.pull settings source s) := by
  obtain ⟨n, hs⟩ := h
  exact ⟨n + 1, by rw [Function.iterate_succ_apply', hs]⟩

theorem Reached.demand (h : Reached settings source plans s) (hp : s.phase = .idle) :
    Reached settings source plans (step settings source s .demand).2 := by
  have hpull := h.pull
  unfold Enumeration.pull at hpull
  rwa [hp] at hpull

theorem Reached.turn {reply : Reply} (h : Reached settings source plans s) (hp : s.phase = .running state)
    (hs : step settings source s .turn = (reply, s')) : Reached settings source plans s' := by
  have hpull := h.pull
  unfold Enumeration.pull at hpull
  rwa [hp, hs] at hpull

theorem Answers.list (ha : Answers settings source shelf plans) (hs : Reached settings source plans s) {path : String}
    {rest : List String} (hp : s.phase = .running { plans := path :: rest, files := [], current := none }) :
    source.list s.world.calls (partitionPrefix settings path) = shelf.list (partitionPrefix settings path) := by
  have hanswered := ha s hs
  unfold Answered at hanswered
  rwa [hp] at hanswered

theorem Answers.file (ha : Answers settings source shelf plans) (hs : Reached settings source plans s) {key : String}
    {files rest : List String} (hp : s.phase = .running { plans := rest, files := key :: files, current := none }) :
    Opens source (shelf.file key) s.world.calls key := by
  have hanswered := ha s hs
  unfold Answered at hanswered
  rw [hp] at hanswered
  cases rest <;> exact hanswered

theorem step_turn (hp : s.phase = .running state) : step settings source s .turn = turn settings source s state := by
  unfold step
  rw [hp]

/-! ## The batches of a file -/

/-- The batches of the current reader are taken up to its end. -/
theorem yields_read {current : OpenReader} {rest : Except Error (List Batch)} {natives : List Term}
    (hcurrent : state.current = some current)
    (hrest : ∀ s', Reached settings source plans s' → s'.phase = .running { state with current := none } →
      Yields settings source s' rest) :
    ∀ {s : Enumeration}, Reached settings source plans s → s.phase = .running state →
      s.world.isActive current.handle = true →
      (∀ i ≤ natives.length, source.next (s.world.calls + i) = .ok natives[i]?) →
      Yields settings source s (do
        let outputs ← natives.mapM (receive settings current.schema)
        let rest ← rest
        return (outputs.filter fun output => output.rowCount ≠ 0) ++ rest) := by
  induction natives with
  | nil =>
    intro s hs hp hactive hnext
    have hnone : source.next s.world.calls = .ok none := hnext 0 (Nat.le_refl _)
    have hturn : step settings source s .turn =
        (.none, { s with
          world := (s.world.called.close current).setCurrent none, phase := .running { state with current := none } }) := by
      rw [step_turn hp]
      simp only [turn, next, hcurrent, read, readerNext, hactive, if_true, hnone]
    have hyields := yields_again hp hturn (hrest _ (hs.turn hp hturn) rfl)
    cases rest with
    | error error => exact hyields
    | ok rest => exact hyields
  | cons native natives ih =>
    intro s hs hp hactive hnext
    have hsome : source.next s.world.calls = .ok (some native) := hnext 0 (Nat.zero_le _)
    have hafter : ∀ i ≤ natives.length, source.next (s.world.called.calls + i) = .ok natives[i]? := by
      intro i hi
      have := hnext (i + 1) (by simpa using hi)
      rw [List.getElem?_cons_succ] at this
      rw [← this]
      congr 1
      show s.world.calls + 1 + i = s.world.calls + (i + 1)
      omega
    rw [List.mapM_cons]
    cases hr : receive settings current.schema native with
    | error error =>
      have hturn : step settings source s .turn = (.raised error, finish s s.accumulator s.world.called) := by
        rw [step_turn hp]
        simp only [turn, next, hcurrent, read, readerNext, hactive, if_true, hsome, hr]
      exact yields_raised hp hturn
    | ok output =>
      by_cases hempty : output.rowCount = 0
      · have hturn : step settings source s .turn =
            (.none, { s with world := s.world.called, phase := .running state }) := by
          rw [step_turn hp]
          simp only [turn, next, hcurrent, read, readerNext, hactive, if_true, hsome, hr, hempty]
        have hyields := yields_again hp hturn (ih (hs.turn hp hturn) rfl hactive hafter)
        convert hyields using 1
        cases natives.mapM (receive settings current.schema) with
        | error error => rfl
        | ok outputs => simp [bind, Except.bind, pure, Except.pure, hempty]
      · have hturn : step settings source s .turn =
            (.batch output, { world := s.world.called, accumulator := state, phase := .idle }) := by
          rw [step_turn hp]
          simp only [turn, next, hcurrent, read, readerNext, hactive, if_true, hsome, hr, hempty, if_false]
        have hdemanded := (hs.turn hp hturn).demand rfl
        have hyields := yields_batch hp hturn (yields_idle rfl (ih hdemanded rfl hactive hafter))
        convert hyields using 1
        cases natives.mapM (receive settings current.schema) with
        | error error => rfl
        | ok outputs => cases rest <;> simp [bind, Except.bind, pure, Except.pure, Except.map, hempty]

/-! ## The files of the partitions -/

theorem isActive_opened (w : World) (current : Option OpenReader) :
    (World.setCurrent { w.called with active := w.active ++ [true] } current).isActive w.active.length = true := by
  rw [World.isActive_iff]
  simp [World.setCurrent]

/-- The listed files are read one after another. -/
theorem yields_files (ha : Answers settings source shelf plans) {pending : List String}
    {rest : Except Error (List Batch)}
    (hrest : ∀ s', Reached settings source plans s' →
      s'.phase = .running { plans := pending, files := [], current := none } → Yields settings source s' rest)
    (files : List String) :
    ∀ {s : Enumeration}, Reached settings source plans s →
      s.phase = .running { plans := pending, files, current := none } →
      Yields settings source s (do
        let batches ← traverseFiles settings shelf files
        let rest ← rest
        return batches ++ rest) := by
  induction files with
  | nil =>
    intro s hs hp
    cases rest with
    | error error => exact hrest s hs hp
    | ok rest => exact hrest s hs hp
  | cons key files ih =>
    intro s hs hp
    obtain ⟨hfields, hbatches⟩ := ha.file hs hp
    unfold traverseFiles fileBatches
    cases hschema : Schema.fromNative (shelf.file key).fields with
    | error error =>
      have hturn : step settings source s .turn = (.raised error,
          finish s s.accumulator { s.world.called with active := s.world.active ++ [true] }) := by
        rw [step_turn hp]
        simp only [turn, next, openStream, hfields, hschema]
      exact yields_raised hp hturn
    | ok schema =>
      have hturn : step settings source s .turn = (.none, { s with
          world := World.setCurrent { s.world.called with active := s.world.active ++ [true] }
            (some { handle := s.world.active.length, schema })
          phase := .running { plans := pending, files, current := some { handle := s.world.active.length, schema } } }) := by
        rw [step_turn hp]
        simp only [turn, next, openStream, hfields, hschema]
      have hyields := yields_again hp hturn (yields_read rfl
        (fun s' hs' hp' => ih hs' hp') (hs.turn hp hturn) rfl (isActive_opened s.world _) hbatches)
      convert hyields using 1
      simp only [bind, Except.bind, pure, Except.pure]
      cases (shelf.file key).batches.mapM (receive settings schema) with
      | error error => rfl
      | ok outputs =>
        cases traverseFiles settings shelf files with
        | error error => rfl
        | ok batches => cases rest <;> simp

/-- The planned partitions are listed one after another. -/
theorem yields_plans (ha : Answers settings source shelf plans) (pending : List String) :
    ∀ {s : Enumeration}, Reached settings source plans s →
      s.phase = .running { plans := pending, files := [], current := none } →
      Yields settings source s (traverse settings shelf pending) := by
  induction pending with
  | nil =>
    intro s hs hp
    have hturn : step settings source s .turn =
        (.none, finish s { plans := [], files := [], current := none } s.world) := by
      rw [step_turn hp]
      simp only [turn, next]
    exact yields_again hp hturn (yields_ended rfl)
  | cons path pending ih =>
    intro s hs hp
    have hlist := ha.list hs hp
    unfold traverse
    cases hkeys : shelf.list (partitionPrefix settings path) with
    | error error =>
      have hturn : step settings source s .turn = (.raised error, finish s s.accumulator s.world.called) := by
        rw [step_turn hp]
        simp only [turn, next, hlist, hkeys]
      exact yields_raised hp hturn
    | ok keys =>
      have hturn : step settings source s .turn = (.none, { s with
          world := s.world.called
          phase := .running { plans := pending, files := parquetFiles keys, current := none } }) := by
        rw [step_turn hp]
        simp only [turn, next, hlist, hkeys]
      exact yields_again hp hturn
        (yields_files ha (fun s' hs' hp' => ih hs' hp') (parquetFiles keys) (hs.turn hp hturn) rfl)

/-- A stream that a store answers emits what the traversal of its partitions returns. -/
theorem toList_eq_traverse (ha : Answers settings source shelf plans) :
    Yields settings source (start plans) (traverse settings shelf plans) := by
  have hstart : Reached settings source plans (start plans) := ⟨0, rfl⟩
  exact yields_idle rfl (yields_plans ha plans (hstart.demand rfl) rfl)

end

/-! ## The rows of a batch -/

theorem filterM_some {α : Type} {f : α → Option Bool} {g : α → Bool} {l : List α} (h : ∀ a ∈ l, f a = some (g a)) :
    l.filterM f = some (l.filter g) := by
  have haux : ∀ acc, List.filterAuxM f l acc = some ((l.filter g).reverse ++ acc) := by
    induction l with
    | nil => exact fun acc => rfl
    | cons a l ih =>
      intro acc
      rw [List.filterAuxM, h a List.mem_cons_self]
      simp only [Option.bind_eq_bind, Option.bind_some]
      rw [ih fun b hb => h b (List.mem_cons_of_mem a hb)]
      cases hg : g a <;> simp [hg]
  unfold List.filterM
  rw [haux]
  simp

theorem lookup_select {names : List String} {name : String} (h : name ∈ names) (row : Row) :
    (row.select names).lookup name = some (row.get name) := lookup_map_of_mem _ h

theorem get_select {names : List String} {name : String} (h : name ∈ names) (row : Row) :
    (row.select names).get name = row.get name := Row.get_map _ h

theorem decodeRow_select {schema : Schema} {names : List String} (h : ∀ name ∈ schema.names, name ∈ names) (row : Row) :
    Finite.decodeRow schema (row.select names) = Finite.decodeRow schema row :=
  List.map_congr_left fun field hf => by rw [get_select (h field.name (List.mem_map_of_mem hf))]

section
variable (settings : Settings)

/-- The columns that the stream needs of a file. -/
structure Covers (names : List String) : Prop where
  column : settings.dataset.column ∈ names
  output : ∀ name ∈ settings.outputSchema.names, name ∈ names
  predicate : ∀ predicate, settings.predicate = some predicate → predicate.column ∈ names

variable {settings} {names : List String} (hcovers : Covers settings names)
include hcovers

theorem keepRow_select (row : Row) : keepRow settings (row.select names) = some (selected settings row) := by
  unfold keepRow selected
  rw [lookup_select hcovers.column]
  simp only [Option.bind_eq_bind, Option.bind_some]
  cases hr : inRange (row.get settings.dataset.column) settings.from' settings.until' with
  | false => simp
  | true =>
    cases hp : settings.predicate with
    | none => simp
    | some predicate => simp [lookup_select (hcovers.predicate predicate hp)]

theorem selected_select (row : Row) : selected settings (row.select names) = selected settings row := by
  unfold selected
  rw [get_select hcovers.column]
  congr 1
  cases hp : settings.predicate with
  | none => rfl
  | some predicate => simp [get_select (hcovers.predicate predicate hp)]

/-- A batch with the columns that the stream needs is filtered, and the output columns are kept. -/
theorem filterBatch_select (hnodup : settings.outputSchema.names.Nodup) (hne : settings.outputSchema.names ≠ [])
    {batch : Batch} {rows : List Row} (hrows : batch.toRows = rows.map (Row.select names)) :
    ∃ output, filterBatch settings batch = .ok output ∧ output.schema = settings.outputSchema ∧
      output.toRows = (rows.filter (selected settings)).map (Row.select settings.outputSchema.names) := by
  have hfilter : batch.toRows.filterM (keepRow settings) =
      some ((rows.filter (selected settings)).map (Row.select names)) := by
    rw [hrows, filterM_some (g := selected settings), List.filter_map]
    · congr 2
      exact List.filter_congr fun row _ => selected_select hcovers row
    · intro row hrow
      obtain ⟨row, -, rfl⟩ := List.mem_map.mp hrow
      rw [keepRow_select hcovers, selected_select hcovers]
  generalize hkept : rows.filter (selected settings) = kept at hfilter ⊢
  have hcolumn : ∀ field ∈ settings.outputSchema.fields, outputColumn (kept.map (Row.select names)) field =
      some (field.name, .list (kept.map fun row => row.get field.name)) := by
    intro field hf
    have hmem := hcovers.output field.name (List.mem_map_of_mem hf)
    have hvalues : (kept.map (Row.select names)).mapM (fun row => row.lookup field.name) =
        some (kept.map fun row => row.get field.name) := by
      rw [mapM_eq_some, List.forall₂_map_left_iff, List.forall₂_map_right_iff, List.forall₂_same]
      exact fun row _ => lookup_select hmem row
    unfold outputColumn
    rw [hvalues]
    rfl
  have hcolumns : settings.outputSchema.fields.mapM (outputColumn (kept.map (Row.select names))) =
      some (columnsOf settings.outputSchema (kept.map (Row.select settings.outputSchema.names))) := by
    unfold columnsOf Schema.names
    rw [mapM_eq_some, List.map_map, List.forall₂_map_right_iff, List.forall₂_same]
    intro field hf
    rw [hcolumn field hf, Function.comp_apply, List.map_map]
    congr 3
    exact List.map_congr_left fun row _ => (get_select (List.mem_map_of_mem hf) row).symm
  have hnamed : ∀ row ∈ kept.map (Row.select settings.outputSchema.names),
      row.map Prod.fst = settings.outputSchema.names := by
    intro row hrow
    obtain ⟨row, -, rfl⟩ := List.mem_map.mp hrow
    simp [Row.select, Function.comp_def]
  obtain ⟨output, hnew, hschema, -, -, htoRows⟩ := Batch.new_columnsOf hnodup hne hnamed
  refine ⟨output, ?_, hschema, htoRows⟩
  unfold filterBatch
  simp only [hfilter, hcolumns, Option.bind_eq_bind, Option.bind_some]
  rw [Input.mapNew_of_nodup (by simpa [columnsOf, Function.comp_def] using hnodup)]
  exact hnew

/-! ## The rows of a traversal -/

omit hcovers in
theorem decodeRows_append (left right : List Batch) :
    Finite.decodeRows (left ++ right) = Finite.decodeRows left ++ Finite.decodeRows right := List.flatMap_append

omit hcovers in
/-- Batches without rows do not matter. -/
theorem decodeRows_filter (batches : List Batch) :
    Finite.decodeRows (batches.filter fun batch => batch.rowCount ≠ 0) = Finite.decodeRows batches := by
  induction batches with
  | nil => rfl
  | cons batch batches ih =>
    have hcons := decodeRows_append [batch] batches
    by_cases hempty : batch.rowCount = 0
    · have hnone : Finite.decodeRows [batch] = [] := by simp [Finite.decodeRows, Batch.toRows, hempty]
      rw [List.filter_cons_of_neg (by simpa using hempty), ih]
      rw [hnone, List.nil_append] at hcons
      exact hcons.symm
    · rw [List.filter_cons_of_pos (by simpa using hempty)]
      have hsplit := decodeRows_append [batch] (batches.filter fun batch => batch.rowCount ≠ 0)
      rw [ih] at hsplit
      exact hsplit.trans hcons.symm

/-- A file is emitted as its selected rows. -/
theorem fileBatches_returns (hnodup : settings.outputSchema.names.Nodup) (hne : settings.outputSchema.names ≠ [])
    {reading : FileReading} {rows : List Row} (h : reading.Returns names rows) :
    ∃ batches, fileBatches settings reading = .ok batches ∧ Finite.decodeRows batches =
      (rows.filter (selected settings)).map (Finite.decodeRow settings.outputSchema) := by
  obtain ⟨schema, batches, hschema, hnames, hbatches, hrows⟩ := h
  have houtputs : ∃ outputs, reading.batches.mapM (receive settings schema) = .ok outputs ∧ Finite.decodeRows outputs =
      (rows.filter (selected settings)).map (Finite.decodeRow settings.outputSchema) := by
    clear hschema
    generalize reading.batches = natives at hbatches
    induction hbatches generalizing rows with
    | nil =>
      rw [List.flatMap_nil, eq_comm, List.map_eq_nil_iff] at hrows
      exact ⟨[], rfl, by rw [hrows]; rfl⟩
    | @cons native batch natives batches hhead _ ih =>
      rw [List.flatMap_cons, eq_comm, List.map_eq_append_iff] at hrows
      obtain ⟨first, others, rfl, hfirst, hothers⟩ := hrows
      obtain ⟨outputs, houtputs, hdecoded⟩ := ih hothers.symm
      obtain ⟨output, hfilter, houtput, htoRows⟩ := filterBatch_select hcovers hnodup hne hfirst.symm
      have hreceive : receive settings schema native = .ok output := by
        unfold receive
        rw [hhead]
        exact hfilter
      refine ⟨output :: outputs, ?_, ?_⟩
      · rw [List.mapM_cons, hreceive, houtputs]
        rfl
      · have hone : Finite.decodeRows [output] =
            (first.filter (selected settings)).map (Finite.decodeRow settings.outputSchema) := by
          unfold Finite.decodeRows
          rw [List.flatMap_singleton, houtput, htoRows, List.map_map]
          exact List.map_congr_left fun row _ => decodeRow_select (fun name hname => hname) row
        rw [List.filter_append, List.map_append, ← hdecoded, ← hone]
        exact decodeRows_append [output] outputs
  obtain ⟨outputs, houtputs, hdecoded⟩ := houtputs
  refine ⟨outputs.filter fun output => output.rowCount ≠ 0, ?_, by rw [decodeRows_filter, hdecoded]⟩
  unfold fileBatches
  rw [hschema]
  simp only [bind, Except.bind, houtputs, pure, Except.pure]

theorem traverseFiles_returns (hnodup : settings.outputSchema.names.Nodup) (hne : settings.outputSchema.names ≠ [])
    {shelf : Shelf} {contents : String → List Row} {files : List String}
    (h : ∀ key ∈ files, (shelf.file key).Returns names (contents key)) :
    ∃ batches, traverseFiles settings shelf files = .ok batches ∧ Finite.decodeRows batches =
      (files.flatMap fun key => (contents key).filter (selected settings)).map
        (Finite.decodeRow settings.outputSchema) := by
  induction files with
  | nil => exact ⟨[], rfl, rfl⟩
  | cons key files ih =>
    obtain ⟨first, hfirst, hrows⟩ := fileBatches_returns hcovers hnodup hne (h key List.mem_cons_self)
    obtain ⟨rest, hrest, hothers⟩ := ih fun key hkey => h key (List.mem_cons_of_mem _ hkey)
    refine ⟨first ++ rest, ?_, ?_⟩
    · unfold traverseFiles
      rw [hfirst, hrest]
      rfl
    · rw [decodeRows_append, hrows, hothers, List.flatMap_cons, List.map_append]

/-- Partitions that are listed are emitted as the selected rows of their files. -/
theorem traverse_returns (hnodup : settings.outputSchema.names.Nodup) (hne : settings.outputSchema.names ≠ [])
    {shelf : Shelf} {contents : String → List Row} {keys : String → List String} {plans : List String}
    (hlist : ∀ path ∈ plans, shelf.list (partitionPrefix settings path) = .ok (keys path))
    (hfiles : ∀ path ∈ plans, ∀ key ∈ parquetFiles (keys path), (shelf.file key).Returns names (contents key)) :
    ∃ batches, traverse settings shelf plans = .ok batches ∧ Finite.decodeRows batches =
      (plans.flatMap fun path => (parquetFiles (keys path)).flatMap fun key =>
        (contents key).filter (selected settings)).map (Finite.decodeRow settings.outputSchema) := by
  induction plans with
  | nil => exact ⟨[], rfl, rfl⟩
  | cons path plans ih =>
    obtain ⟨first, hfirst, hrows⟩ := traverseFiles_returns hcovers hnodup hne (hfiles path List.mem_cons_self)
    obtain ⟨rest, hrest, hothers⟩ := ih (fun path hpath => hlist path (List.mem_cons_of_mem _ hpath))
      fun path hpath => hfiles path (List.mem_cons_of_mem _ hpath)
    refine ⟨first ++ rest, ?_, ?_⟩
    · unfold traverse
      rw [hlist path List.mem_cons_self]
      simp only [bind, Except.bind, hfirst, hrest, pure, Except.pure]
    · rw [decodeRows_append, hrows, hothers, List.flatMap_cons, List.map_append]

omit hcovers in
/-- A partition that cannot be listed ends the traversal. -/
theorem traverse_error {shelf : Shelf} {plans : List String} {path : String} {error : Error} (hpath : path ∈ plans)
    (herror : shelf.list (partitionPrefix settings path) = .error error) :
    ∃ error, traverse settings shelf plans = .error error := by
  induction plans with
  | nil => cases hpath
  | cons first plans ih =>
    unfold traverse
    cases hlist : shelf.list (partitionPrefix settings first) with
    | error error => exact ⟨error, rfl⟩
    | ok keys =>
      have hmem : path ∈ plans := by
        rcases List.mem_cons.mp hpath with rfl | hmem
        · rw [herror] at hlist
          cases hlist
        · exact hmem
      obtain ⟨error, hrest⟩ := ih hmem
      cases hfiles : traverseFiles settings shelf (parquetFiles keys) with
      | error error => exact ⟨error, by simp only [bind, Except.bind, hfiles]⟩
      | ok batches => exact ⟨error, by simp only [bind, Except.bind, hfiles, hrest]⟩

end

/-- A read returns the rows of the traversal. -/
theorem read_eq_traverse {dataset : Dataset} {options : Options} {settings : Settings} {plans : List Partition}
    {source : Source} {shelf : Shelf} (hopen : openWith dataset options = .ok (settings, plans))
    (ha : Answers settings source shelf (plans.map Partition.path)) :
    ∃ enough, ∀ fuel, enough ≤ fuel → dataset.read options source fuel =
      some (TimePartition.liftError
        ((traverse settings shelf (plans.map Partition.path)).map Finite.decodeRows)) := by
  obtain ⟨enough, h⟩ := toList_eq_traverse ha
  refine ⟨enough, fun fuel hf => ?_⟩
  unfold Dataset.read
  simp only [hopen, h fuel hf, Option.map_some]

end DatasetStream

end Parquex
