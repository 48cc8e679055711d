import Parquex.Reader

/-!
# The queue of an open reader

What a reader has delivered and what it has queued are the non-empty images of
what it has consumed. The queue keeps its bound and its accounts, the end of the
file stays the end, and a closed reader only cancels.
-/

namespace Parquex

/-! ## Images -/

section
variable {predicate : Option CompiledPredicate} {outputIndices : List Nat} {memorySize : RecordBatch → Nat}

/-- What one answer of the underlying reader adds to the queue. -/
def outcome (predicate : Option CompiledPredicate) (outputIndices : List Nat)
    (result : Except ParquetError RecordBatch) : Except NativeFailure (Option RecordBatch) :=
  match result with
  | .error _ => .error ReaderState.decodingFailed
  | .ok batch =>
    match applyPredicateAndProjection batch predicate outputIndices with
    | .error failure => .error failure
    | .ok batch => .ok (if batch.numRows = 0 then none else some batch)

/-- The non-empty filtered and projected image of a batch consumed without error. -/
def imageOf (predicate : Option CompiledPredicate) (outputIndices : List Nat)
    (result : Except ParquetError RecordBatch) : Option RecordBatch :=
  (outcome predicate outputIndices result).toOption.join

theorem imageOf_numRows {result : Except ParquetError RecordBatch} {batch : RecordBatch}
    (h : imageOf predicate outputIndices result = some batch) : batch.numRows ≠ 0 := by
  unfold imageOf outcome at h
  cases result with
  | error e => simp [Except.toOption] at h
  | ok input =>
    simp only at h
    cases hb : applyPredicateAndProjection input predicate outputIndices with
    | error failure => rw [hb] at h; simp [Except.toOption] at h
    | ok image =>
      rw [hb] at h
      by_cases h0 : image.numRows = 0
      · simp [Except.toOption, h0] at h
      · simp only [Except.toOption, h0, if_false, Option.join_some, Option.some.injEq] at h
        rw [← h]
        exact h0

end

namespace ReaderState

variable {m : RecordBatch → Nat}

def queuedBytes (m : RecordBatch → Nat) (state : ReaderState) : Nat := (state.queue.map m).sum

/-- What one answer of the underlying reader does to the state. -/
theorem consume_eq (state : ReaderState) (result : Except ParquetError RecordBatch) :
    state.consume m result =
      match outcome state.predicate state.outputIndices result with
      | .error failure => (some failure, state)
      | .ok none => (none, state)
      | .ok (some batch) => (none, state.push m batch) := by
  cases result with
  | error e => rfl
  | ok batch =>
    simp only [consume, outcome]
    cases applyPredicateAndProjection batch state.predicate state.outputIndices with
    | error failure => rfl
    | ok image => by_cases h0 : image.numRows = 0 <;> simp [h0]

/-! ## The states of a call -/

/-- The states that the filling loop goes through. -/
def fillStates (m : RecordBatch → Nat) : List (Except ParquetError RecordBatch) → ReaderState → List ReaderState
  | [], state => if state.wants then [{ state with eof := true }] else []
  | result :: results, state =>
    if state.wants then
      let (failure, state) := ({ state with reader := some results }).consume m result
      state :: (if failure.isSome then [] else fillStates m results state)
    else []

/-- The states that a call goes through. -/
def callStates (m : RecordBatch → Nat) (state : ReaderState) (call : ReaderCall) : List ReaderState :=
  let filling :=
    match call, state.cancelled || !state.active, state.reader with
    | .next, false, some results => state.fillStates m results
    | _, _, _ => []
  filling ++ [((readerMachine m).step state call).2]

/-- The states of a run, those inside its calls too. -/
def statesSeen (m : RecordBatch → Nat) : ReaderState → List ReaderCall → List ReaderState
  | state, [] => [state]
  | state, call :: calls =>
    state :: (state.callStates m call ++ statesSeen m ((readerMachine m).step state call).2 calls)

/-! ## Accounts -/

/-- The accounts of the queue are right and within their bounds. -/
structure Counted (m : RecordBatch → Nat) (state : ReaderState) : Prop where
  bytes : state.currentBufferedBytes = state.queuedBytes m
  peakBytes : state.queuedBytes m ≤ state.peakBufferedBytes
  peakBatches : state.queue.length ≤ state.peakBufferedBatches
  bound : state.queue.length ≤ state.prefetchDepth

/-- The larger of a first number and those of a list. -/
def maxOf {α : Type} (f : α → Nat) (l : List α) (first : Nat) : Nat := l.foldl (fun peak a => max peak (f a)) first

/-- The peaks grew to the largest queues that were seen. -/
structure Peaked (m : RecordBatch → Nat) (state : ReaderState) (seen : List ReaderState) (state' : ReaderState) :
    Prop where
  bytes : state'.peakBufferedBytes = maxOf (queuedBytes m) seen state.peakBufferedBytes
  batches : state'.peakBufferedBatches = maxOf (fun state => state.queue.length) seen state.peakBufferedBatches

theorem Peaked.trans {s s' s'' : ReaderState} {seen seen' : List ReaderState} (h : Peaked m s seen s')
    (h' : Peaked m s' seen' s'') : Peaked m s (seen ++ seen') s'' where
  bytes := by rw [h'.bytes, h.bytes, maxOf, maxOf, maxOf, List.foldl_append]
  batches := by rw [h'.batches, h.batches, maxOf, maxOf, maxOf, List.foldl_append]

/-- A state whose queue is within its peaks raises none. -/
theorem Counted.peaked {s s' : ReaderState} (h : s'.Counted m) (hbytes : s'.peakBufferedBytes = s.peakBufferedBytes)
    (hbatches : s'.peakBufferedBatches = s.peakBufferedBatches) : Peaked m s [s'] s' where
  bytes := by
    have := h.peakBytes
    simp only [maxOf, List.foldl_cons, List.foldl_nil]
    omega
  batches := by
    have := h.peakBatches
    simp only [maxOf, List.foldl_cons, List.foldl_nil]
    omega

/-- The settings of a reader and its place in its life. -/
structure Same (state state' : ReaderState) : Prop where
  predicate : state'.predicate = state.predicate
  outputIndices : state'.outputIndices = state.outputIndices
  prefetchDepth : state'.prefetchDepth = state.prefetchDepth
  active : state'.active = state.active
  cancelled : state'.cancelled = state.cancelled

theorem Same.refl (state : ReaderState) : Same state state := ⟨rfl, rfl, rfl, rfl, rfl⟩

theorem Same.trans {s s' s'' : ReaderState} (h : Same s s') (h' : Same s' s'') : Same s s'' :=
  ⟨h'.predicate.trans h.predicate, h'.outputIndices.trans h.outputIndices, h'.prefetchDepth.trans h.prefetchDepth,
    h'.active.trans h.active, h'.cancelled.trans h.cancelled⟩

theorem queuedBytes_push (state : ReaderState) (batch : RecordBatch) :
    (state.push m batch).queuedBytes m = state.queuedBytes m + m batch := by
  simp [queuedBytes, push]

theorem Counted.push {state : ReaderState} (h : state.Counted m) (hwants : state.wants = true) (batch : RecordBatch) :
    (state.push m batch).Counted m where
  bytes := by rw [queuedBytes_push, ← h.bytes]; rfl
  peakBytes := by
    rw [queuedBytes_push, ← h.bytes]
    exact Nat.le_max_right _ _
  peakBatches := by
    simp only [ReaderState.push, List.length_append, List.length_cons, List.length_nil]
    exact Nat.le_max_right _ _
  bound := by
    simp only [wants, Bool.and_eq_true, decide_eq_true_eq] at hwants
    simp only [ReaderState.push, List.length_append, List.length_cons, List.length_nil]
    omega

theorem peaked_push {state : ReaderState} (h : state.Counted m) (batch : RecordBatch) :
    Peaked m state [state.push m batch] (state.push m batch) where
  bytes := by
    simp only [maxOf, List.foldl_cons, List.foldl_nil, queuedBytes_push, ← h.bytes]
    rfl
  batches := by simp [maxOf, ReaderState.push]

/-! ## Filling -/

/-- What the filling loop has done: some results are consumed, and their images are queued. -/
structure Filled (m : RecordBatch → Nat) (state : ReaderState) (results : List (Except ParquetError RecordBatch))
    (state' : ReaderState) : Prop where
  consumed : ∃ consumed rest, results = consumed ++ rest ∧ state'.reader = some rest ∧
    state'.queue = state.queue ++ consumed.filterMap (imageOf state.predicate state.outputIndices) ∧
    (state'.eof = true → state.eof = true ∨ rest = [])
  counted : state'.Counted m
  same : Same state state'
  seen : ∀ seen ∈ state.fillStates m results, seen.Counted m ∧ seen.prefetchDepth = state.prefetchDepth
  peaked : Peaked m state (state.fillStates m results) state'

theorem fill_stop {state : ReaderState} (hwants : state.wants = false)
    (results : List (Except ParquetError RecordBatch)) : state.fill m results = (none, state) := by
  cases results <;> exact if_neg (ne_true_of_eq_false hwants)

theorem fillStates_stop {state : ReaderState} (hwants : state.wants = false)
    (results : List (Except ParquetError RecordBatch)) : state.fillStates m results = [] := by
  cases results <;> exact if_neg (ne_true_of_eq_false hwants)

theorem fill_eof {state : ReaderState} (hwants : state.wants = true) :
    state.fill m [] = (none, { state with eof := true }) := if_pos hwants

theorem fillStates_eof {state : ReaderState} (hwants : state.wants = true) :
    state.fillStates m [] = [{ state with eof := true }] := if_pos hwants

theorem filled_stop {state : ReaderState} {results : List (Except ParquetError RecordBatch)}
    (hr : state.reader = some results) (h : state.Counted m) (hwants : state.wants = false) :
    Filled m state results (state.fill m results).2 := by
  rw [fill_stop hwants]
  refine ⟨⟨[], results, rfl, hr, by simp, .inl⟩, h, Same.refl _, ?_, ?_⟩
  · simp [fillStates_stop hwants]
  · rw [fillStates_stop hwants]
    exact ⟨rfl, rfl⟩

theorem filled_eof {state : ReaderState} (hr : state.reader = some []) (h : state.Counted m)
    (hwants : state.wants = true) : Filled m state [] (state.fill m []).2 := by
  have hcounted : ({ state with eof := true } : ReaderState).Counted m := ⟨h.bytes, h.peakBytes, h.peakBatches, h.bound⟩
  rw [fill_eof hwants]
  refine ⟨⟨[], [], rfl, hr, by simp, fun _ => .inr rfl⟩, hcounted, ⟨rfl, rfl, rfl, rfl, rfl⟩, ?_, ?_⟩
  · simp only [fillStates_eof hwants, List.mem_singleton, forall_eq]
    exact ⟨hcounted, trivial⟩
  · rw [fillStates_eof hwants]
    exact hcounted.peaked rfl rfl

/-- One answer of the underlying reader, then the rest of the loop. -/
theorem filled_cons {state next : ReaderState} {result : Except ParquetError RecordBatch}
    {results : List (Except ParquetError RecordBatch)} {state' : ReaderState} {seen : List ReaderState}
    (hnext : Same state next) (hqueue : next.queue = state.queue ++
      [result].filterMap (imageOf state.predicate state.outputIndices)) (heof : next.eof = state.eof)
    (hstates : state.fillStates m (result :: results) = next :: seen) (hcounted : next.Counted m)
    (hpeaked : Peaked m state [next] next)
    (hrest : ∃ consumed rest, results = consumed ++ rest ∧ state'.reader = some rest ∧
      state'.queue = next.queue ++ consumed.filterMap (imageOf next.predicate next.outputIndices) ∧
      (state'.eof = true → next.eof = true ∨ rest = []))
    (hcounted' : state'.Counted m) (hsame' : Same next state')
    (hseen : ∀ s ∈ seen, s.Counted m ∧ s.prefetchDepth = next.prefetchDepth) (hpeaked' : Peaked m next seen state') :
    Filled m state (result :: results) state' where
  consumed := by
    obtain ⟨consumed, rest, hresults, hreader, hq, he⟩ := hrest
    refine ⟨result :: consumed, rest, by rw [hresults]; rfl, hreader, ?_, by rw [← heof]; exact he⟩
    rw [hq, hqueue, hnext.predicate, hnext.outputIndices, List.append_assoc, ← List.filterMap_append]
    rfl
  counted := hcounted'
  same := hnext.trans hsame'
  seen := by
    rw [hstates]
    simp only [List.mem_cons, forall_eq_or_imp]
    refine ⟨⟨hcounted, hnext.prefetchDepth⟩, fun s hs => ?_⟩
    rw [← hnext.prefetchDepth]
    exact hseen s hs
  peaked := by
    rw [hstates]
    exact hpeaked.trans hpeaked'

theorem fill_filled (results : List (Except ParquetError RecordBatch)) (state : ReaderState)
    (hr : state.reader = some results) (h : state.Counted m) : Filled m state results (state.fill m results).2 := by
  induction results generalizing state with
  | nil =>
    cases hwants : state.wants with
    | false => exact filled_stop hr h hwants
    | true => exact filled_eof hr h hwants
  | cons result results ih =>
    cases hwants : state.wants with
    | false => exact filled_stop hr h hwants
    | true =>
      have hcounted : ({ state with reader := some results } : ReaderState).Counted m :=
        ⟨h.bytes, h.peakBytes, h.peakBatches, h.bound⟩
      have hsame : Same state { state with reader := some results } := ⟨rfl, rfl, rfl, rfl, rfl⟩
      have hfill := fill.eq_2 m state result results
      have hstates := fillStates.eq_2 m state result results
      simp only [hwants, if_true, consume_eq] at hfill hstates
      cases hout : outcome state.predicate state.outputIndices result with
      | error failure =>
        rw [hout] at hfill hstates
        simp only [Option.isSome_some, if_true] at hstates
        rw [hfill]
        refine filled_cons hsame ?_ rfl hstates hcounted (hcounted.peaked rfl rfl) ?_ hcounted (Same.refl _) ?_ ?_
        · simp [imageOf, hout, Except.toOption]
        · exact ⟨[], results, rfl, rfl, by simp, .inl⟩
        · simp
        · exact ⟨rfl, rfl⟩
      | ok image =>
        cases image with
        | none =>
          rw [hout] at hfill hstates
          simp only [Option.isSome_none, Bool.false_eq_true, if_false] at hstates
          have hih := ih { state with reader := some results } rfl hcounted
          rw [hfill]
          refine filled_cons hsame ?_ rfl hstates hcounted (hcounted.peaked rfl rfl) hih.consumed hih.counted hih.same
            hih.seen hih.peaked
          simp [imageOf, hout, Except.toOption]
        | some batch =>
          rw [hout] at hfill hstates
          simp only [Option.isSome_none, Bool.false_eq_true, if_false] at hstates
          have hpush := hcounted.push hwants batch
          have hih := ih (({ state with reader := some results } : ReaderState).push m batch) rfl hpush
          have hnext : Same state (({ state with reader := some results } : ReaderState).push m batch) :=
            ⟨rfl, rfl, rfl, rfl, rfl⟩
          rw [hfill]
          refine filled_cons hnext ?_ rfl hstates hpush ?_ hih.consumed hih.counted hih.same
            hih.seen hih.peaked
          · simp [imageOf, hout, Except.toOption, push]
          · exact ⟨(peaked_push hcounted batch).bytes, (peaked_push hcounted batch).batches⟩

/-- A loop that meets no failure ends when nothing more is wanted. -/
theorem fill_wants (results : List (Except ParquetError RecordBatch)) (state : ReaderState)
    (h : (state.fill m results).1 = none) : (state.fill m results).2.wants = false := by
  induction results generalizing state with
  | nil =>
    cases hwants : state.wants with
    | false => rw [fill_stop hwants]; exact hwants
    | true =>
      rw [fill_eof hwants]
      simp [wants]
  | cons result results ih =>
    cases hwants : state.wants with
    | false => rw [fill_stop hwants]; exact hwants
    | true =>
      rw [fill] at h ⊢
      simp only [hwants, if_true] at h ⊢
      cases hconsume : ({ state with reader := some results } : ReaderState).consume m result with
      | mk failure next =>
        rw [hconsume] at h
        cases failure with
        | none => exact ih next h
        | some failure => cases h

/-! ## A call -/

/-- The reader is open. -/
structure Running (state : ReaderState) : Prop where
  active : state.active = true
  cancelled : state.cancelled = false

structure Closed (state : ReaderState) : Prop where
  active : state.active = false
  cancelled : state.cancelled = true
  queue : state.queue = []
  bytes : state.currentBufferedBytes = 0

theorem Counted.pop {state : ReaderState} (h : state.Counted m) :
    (state.pop m).2.Counted m ∧ Peaked m state [(state.pop m).2] (state.pop m).2 ∧ Same state (state.pop m).2 := by
  have hbytes := h.bytes
  have hpeakBytes := h.peakBytes
  have hpeakBatches := h.peakBatches
  have hbound := h.bound
  cases hq : state.queue with
  | nil =>
    simp only [ReaderState.pop, hq]
    exact ⟨h, h.peaked rfl rfl, Same.refl _⟩
  | cons batch queue =>
    simp only [queuedBytes, hq, List.map_cons, List.sum_cons, List.length_cons] at hbytes hpeakBytes hpeakBatches hbound
    have hcounted : (state.pop m).2.Counted m := by
      simp only [ReaderState.pop, hq]
      constructor <;> simp only [queuedBytes] <;> omega
    refine ⟨hcounted, hcounted.peaked ?_ ?_, ?_⟩
    · simp only [ReaderState.pop, hq]
    · simp only [ReaderState.pop, hq]
    · simp only [ReaderState.pop, hq]
      exact ⟨rfl, rfl, rfl, rfl, rfl⟩

/-- The batch of an answer. -/
def answered (answer : Except NativeFailure (Option RecordBatch)) : List RecordBatch := answer.toOption.join.toList

/-- What a call on an open reader does. -/
structure Called (m : RecordBatch → Nat) (state : ReaderState) (results : List (Except ParquetError RecordBatch))
    (answer : Except NativeFailure (Option RecordBatch)) (state' : ReaderState) : Prop where
  consumed : ∃ consumed rest, results = consumed ++ rest ∧ state'.reader = some rest ∧
    answered answer ++ state'.queue =
      state.queue ++ consumed.filterMap (imageOf state.predicate state.outputIndices)
  counted : state'.Counted m
  same : Same state state'
  seen : ∀ seen ∈ state.callStates m .next, seen.Counted m ∧ seen.prefetchDepth = state.prefetchDepth
  peaked : Peaked m state (state.callStates m .next) state'
  ended : answer = .ok none → state'.queue = [] ∧ state'.wants = false

theorem callStates_next {state : ReaderState} {results : List (Except ParquetError RecordBatch)} (hrun : state.Running)
    (hr : state.reader = some results) :
    state.callStates m .next = state.fillStates m results ++ [(state.nextBatch m).2] := by
  simp [callStates, hrun.active, hrun.cancelled, hr, readerMachine]

theorem nextBatch_running {state : ReaderState} {results : List (Except ParquetError RecordBatch)}
    (hrun : state.Running) (hr : state.reader = some results) :
    state.nextBatch m =
      match (state.fill m results).1 with
      | some failure => (.error failure, (state.fill m results).2)
      | none => (.ok ((state.fill m results).2.pop m).1, ((state.fill m results).2.pop m).2) := by
  cases hfill : (state.fill m results).1 with
  | none => simp [nextBatch, hrun.active, hrun.cancelled, hr, hfill]
  | some failure => simp [nextBatch, hrun.active, hrun.cancelled, hr, hfill]

theorem nextBatch_called {state : ReaderState} {results : List (Except ParquetError RecordBatch)}
    (hrun : state.Running) (hr : state.reader = some results) (h : state.Counted m) :
    Called m state results (state.nextBatch m).1 (state.nextBatch m).2 := by
  have hfilled := fill_filled results state hr h
  have hwants := fill_wants (m := m) results state
  have hnext := nextBatch_running (m := m) hrun hr
  have hstates := callStates_next (m := m) hrun hr
  obtain ⟨consumed, rest, hresults, hreader, hqueue, -⟩ := hfilled.consumed
  cases hfail : (state.fill m results).1 with
  | some failure =>
    rw [hfail] at hnext
    simp only at hnext
    rw [hnext] at hstates ⊢
    refine ⟨⟨consumed, rest, hresults, hreader, hqueue⟩, hfilled.counted, hfilled.same, ?_, ?_, nofun⟩
    · rw [hstates]
      intro seen hseen
      rcases List.mem_append.mp hseen with hseen | hseen
      · exact hfilled.seen seen hseen
      · rw [List.mem_singleton.mp hseen]
        exact ⟨hfilled.counted, hfilled.same.prefetchDepth⟩
    · rw [hstates]
      exact hfilled.peaked.trans (hfilled.counted.peaked rfl rfl)
  | none =>
    rw [hfail] at hnext
    simp only at hnext
    obtain ⟨hcounted, hpeaked, hsame⟩ := hfilled.counted.pop
    rw [hnext] at hstates ⊢
    refine ⟨⟨consumed, rest, hresults, ?_, ?_⟩, hcounted, hfilled.same.trans hsame, ?_, ?_, ?_⟩
    · rw [← hreader]
      unfold pop
      split <;> rfl
    · rw [← hqueue]
      unfold pop
      split <;> simp_all [answered, Except.toOption]
    · rw [hstates]
      intro seen hseen
      rcases List.mem_append.mp hseen with hseen | hseen
      · exact hfilled.seen seen hseen
      · rw [List.mem_singleton.mp hseen]
        exact ⟨hcounted, (hfilled.same.trans hsame).prefetchDepth⟩
    · rw [hstates]
      exact hfilled.peaked.trans hpeaked
    · intro hanswer
      have hstop := hwants hfail
      unfold pop at hanswer ⊢
      split
      · next hq => exact ⟨hq, hstop⟩
      · next hq => rw [hq] at hanswer; cases hanswer

/-- At the end of the file the queue is empty and stays so. -/
theorem nextBatch_ended {state : ReaderState} {results : List (Except ParquetError RecordBatch)}
    (hrun : state.Running) (hr : state.reader = some results) (hqueue : state.queue = [])
    (hwants : state.wants = false) : state.nextBatch m = (.ok none, state) := by
  rw [nextBatch_running hrun hr, fill_stop hwants]
  simp [pop, hqueue]

/-! ## Runs -/

/-- A reader is open with its underlying reader, or closed. -/
def Live (state : ReaderState) : Prop := (state.Running ∧ ∃ results, state.reader = some results) ∨ state.Closed

theorem nextBatch_closed {state : ReaderState} (h : state.Closed) :
    state.nextBatch m = (.error (.cancelled .readerNext), state) := by
  simp [nextBatch, h.cancelled]

theorem close_closed {state : ReaderState} (h : state.Closed) : state.close = (false, state) := by
  simp [close, h.active]

theorem close_running {state : ReaderState} (h : state.Running) :
    state.close.2.Closed ∧ state.close.2.prefetchDepth = state.prefetchDepth ∧
      state.close.2.peakBufferedBytes = state.peakBufferedBytes ∧
      state.close.2.peakBufferedBatches = state.peakBufferedBatches := by
  simp only [close, h.active, Bool.not_true, Bool.false_eq_true, if_false]
  exact ⟨⟨rfl, rfl, rfl, rfl⟩, trivial, trivial, trivial⟩

theorem Closed.counted {state : ReaderState} (h : state.Closed) : state.Counted m where
  bytes := by rw [h.bytes, queuedBytes, h.queue]; rfl
  peakBytes := by rw [queuedBytes, h.queue]; exact Nat.zero_le _
  peakBatches := by rw [h.queue]; exact Nat.zero_le _
  bound := by rw [h.queue]; exact Nat.zero_le _

/-- A closed reader answers every call without a change. -/
theorem step_closed {state : ReaderState} (h : state.Closed) (call : ReaderCall) :
    ((readerMachine m).step state call).2 = state := by
  cases call with
  | next => simp [readerMachine, nextBatch_closed h]
  | close => simp [readerMachine, close_closed h]

theorem callStates_closed {state : ReaderState} (h : state.Closed) (call : ReaderCall) :
    state.callStates m call = [state] := by
  cases call with
  | next => simp [callStates, h.cancelled, step_closed h]
  | close => simp [callStates, step_closed h]

/-- What every call keeps, whatever it answers. -/
structure Stepped (m : RecordBatch → Nat) (state : ReaderState) (call : ReaderCall) (state' : ReaderState) : Prop where
  live : state'.Live
  counted : state'.Counted m
  prefetchDepth : state'.prefetchDepth = state.prefetchDepth
  seen : ∀ seen ∈ state.callStates m call, seen.Counted m ∧ seen.prefetchDepth = state.prefetchDepth
  peaked : Peaked m state (state.callStates m call) state'

theorem step_stepped {state : ReaderState} (hlive : state.Live) (h : state.Counted m) (call : ReaderCall) :
    Stepped m state call ((readerMachine m).step state call).2 := by
  rcases hlive with ⟨hrun, results, hr⟩ | hclosed
  · cases call with
    | next =>
      have hcalled := nextBatch_called hrun hr h
      obtain ⟨consumed, rest, -, hreader, -⟩ := hcalled.consumed
      refine ⟨.inl ⟨⟨?_, ?_⟩, rest, hreader⟩, hcalled.counted, hcalled.same.prefetchDepth, hcalled.seen, hcalled.peaked⟩
      · exact hcalled.same.active.trans hrun.active
      · exact hcalled.same.cancelled.trans hrun.cancelled
    | close =>
      obtain ⟨hclosed, hdepth, hbytes, hbatches⟩ := close_running hrun
      have hstates : state.callStates m .close = [state.close.2] := by simp [callStates, readerMachine]
      refine ⟨.inr hclosed, hclosed.counted, hdepth, ?_, ?_⟩
      · rw [hstates]
        simp only [List.mem_singleton, forall_eq]
        exact ⟨hclosed.counted, hdepth⟩
      · rw [hstates]
        exact hclosed.counted.peaked hbytes hbatches
  · rw [step_closed hclosed]
    refine ⟨.inr hclosed, h, rfl, ?_, ?_⟩
    · rw [callStates_closed hclosed]
      simp only [List.mem_singleton, forall_eq]
      exact ⟨h, trivial⟩
    · rw [callStates_closed hclosed]
      exact h.peaked rfl rfl

theorem statesSeen_counted (calls : List ReaderCall) {state : ReaderState} (hlive : state.Live) (h : state.Counted m) :
    ∀ seen ∈ state.statesSeen m calls, seen.Counted m ∧ seen.prefetchDepth = state.prefetchDepth := by
  induction calls generalizing state with
  | nil =>
    simp only [statesSeen, List.mem_singleton, forall_eq]
    exact ⟨h, trivial⟩
  | cons call calls ih =>
    have hstep := step_stepped hlive h call
    intro seen hseen
    simp only [statesSeen, List.mem_cons, List.mem_append] at hseen
    rcases hseen with rfl | hseen | hseen
    · exact ⟨h, rfl⟩
    · exact hstep.seen seen hseen
    · rw [← hstep.prefetchDepth]
      exact ih hstep.live hstep.counted seen hseen

theorem statesSeen_peaked (calls : List ReaderCall) {state : ReaderState} (hlive : state.Live) (h : state.Counted m) :
    Peaked m state (state.statesSeen m calls) ((readerMachine m).run state calls) := by
  induction calls generalizing state with
  | nil => exact h.peaked rfl rfl
  | cons call calls ih =>
    have hstep := step_stepped hlive h call
    exact (h.peaked rfl rfl).trans (hstep.peaked.trans (ih hstep.live hstep.counted))

end ReaderState

/-! ## What a reader has delivered -/

def ReaderReply.batches : ReaderReply → List RecordBatch
  | .batch answer => ReaderState.answered answer
  | .closed _ => []

def deliveredBatches (history : List (ReaderCall × ReaderReply)) : List RecordBatch :=
  history.flatMap fun entry => entry.2.batches

section
variable {m : RecordBatch → Nat} {results : List (Except ParquetError RecordBatch)} {depth : Nat}
  {predicate : Option CompiledPredicate} {outputIndices : List Nat}

def openedReader (results : List (Except ParquetError RecordBatch)) (depth : Nat)
    (predicate : Option CompiledPredicate) (outputIndices : List Nat) : ReaderState :=
  { reader := some results, prefetchDepth := depth, predicate, outputIndices }

theorem openedReader_counted : (openedReader results depth predicate outputIndices).Counted m :=
  ⟨rfl, Nat.le_refl _, Nat.le_refl _, Nat.zero_le _⟩

theorem openedReader_live : (openedReader results depth predicate outputIndices).Live := .inl ⟨⟨rfl, rfl⟩, results, rfl⟩

/-- What a history of calls has taken out of the underlying reader. -/
structure Tracked (m : RecordBatch → Nat) (results : List (Except ParquetError RecordBatch))
    (predicate : Option CompiledPredicate) (outputIndices : List Nat) (history : List (ReaderCall × ReaderReply))
    (state : ReaderState) : Prop where
  counted : state.Counted m
  running : .close ∉ history.map Prod.fst → state.Running ∧ state.predicate = predicate ∧
    state.outputIndices = outputIndices ∧ ∃ consumed rest, results = consumed ++ rest ∧ state.reader = some rest ∧
      deliveredBatches history ++ state.queue = consumed.filterMap (imageOf predicate outputIndices)
  closed : .close ∈ history.map Prod.fst → state.Closed
  images : ∀ batch ∈ deliveredBatches history, ∃ result ∈ results, imageOf predicate outputIndices result = some batch

theorem deliveredBatches_append (history : List (ReaderCall × ReaderReply)) (entry : ReaderCall × ReaderReply) :
    deliveredBatches (history ++ [entry]) = deliveredBatches history ++ entry.2.batches := by
  simp [deliveredBatches]

theorem tracked_step (history : List (ReaderCall × ReaderReply)) (state : ReaderState) (call : ReaderCall)
    (h : Tracked m results predicate outputIndices history state) :
    Tracked m results predicate outputIndices (history ++ [(call, ((readerMachine m).step state call).1)])
      ((readerMachine m).step state call).2 := by
  by_cases hclose : .close ∈ history.map Prod.fst
  · have hclosed := h.closed hclose
    have hbatches : ((readerMachine m).step state call).1.batches = [] := by
      cases call with
      | next => simp [readerMachine, ReaderState.nextBatch_closed hclosed, ReaderReply.batches, ReaderState.answered,
          Except.toOption]
      | close => simp [readerMachine, ReaderReply.batches]
    rw [ReaderState.step_closed hclosed]
    refine ⟨h.counted, fun hnot => ?_, fun _ => hclosed, ?_⟩
    · exact absurd (by simp [hclose]) hnot
    · rw [deliveredBatches_append, hbatches, List.append_nil]
      exact h.images
  · obtain ⟨hrun, hpredicate, hindices, consumed, rest, hresults, hreader, hdelivered⟩ := h.running hclose
    cases call with
    | next =>
      have hcalled := ReaderState.nextBatch_called hrun hreader h.counted
      obtain ⟨more, rest', hrest, hreader', hqueue⟩ := hcalled.consumed
      rw [hpredicate, hindices] at hqueue
      have hall : deliveredBatches (history ++ [(.next, ((readerMachine m).step state .next).1)]) ++
          (state.nextBatch m).2.queue = (consumed ++ more).filterMap (imageOf predicate outputIndices) := by
        rw [deliveredBatches_append, List.append_assoc, List.filterMap_append, ← hdelivered, List.append_assoc, ← hqueue]
        rfl
      refine ⟨hcalled.counted, fun _ => ⟨⟨?_, ?_⟩, ?_, ?_, consumed ++ more, rest', ?_, hreader', hall⟩, ?_, ?_⟩
      · exact hcalled.same.active.trans hrun.active
      · exact hcalled.same.cancelled.trans hrun.cancelled
      · exact hcalled.same.predicate.trans hpredicate
      · exact hcalled.same.outputIndices.trans hindices
      · rw [hresults, hrest, List.append_assoc]
      · intro hin
        simp only [List.map_append, List.map_cons, List.map_nil, List.mem_append, List.mem_singleton, reduceCtorEq,
          or_false] at hin
        exact absurd hin hclose
      · intro batch hbatch
        have hmem := List.mem_append_left (state.nextBatch m).2.queue hbatch
        rw [hall] at hmem
        obtain ⟨result, hresult, himage⟩ := List.mem_filterMap.mp hmem
        refine ⟨result, ?_, himage⟩
        rw [hresults, hrest, ← List.append_assoc]
        exact List.mem_append_left _ hresult
    | close =>
      have hclosed := (ReaderState.close_running hrun).1
      refine ⟨hclosed.counted, fun hnot => absurd (by simp) hnot, fun _ => hclosed, ?_⟩
      rw [deliveredBatches_append]
      simpa [readerMachine, ReaderReply.batches] using h.images

theorem tracked (results : List (Except ParquetError RecordBatch)) (depth : Nat)
    (predicate : Option CompiledPredicate) (outputIndices : List Nat) (calls : List ReaderCall) :
    Tracked m results predicate outputIndices
      ((readerMachine m).trace (openedReader results depth predicate outputIndices) calls)
      ((readerMachine m).run (openedReader results depth predicate outputIndices) calls) := by
  apply (readerMachine m).trace_inv
  · refine ⟨openedReader_counted, fun _ => ⟨⟨rfl, rfl⟩, rfl, rfl, [], results, rfl, rfl, rfl⟩, ?_, ?_⟩
    · intro h
      cases h
    · intro batch h
      cases h
  · exact tracked_step

theorem run_ended {state : ReaderState} (hnext : (readerMachine m).step state .next = (.batch (.ok none), state))
    {calls : List ReaderCall} (hclose : .close ∉ calls) : (readerMachine m).run state calls = state := by
  induction calls with
  | nil => rfl
  | cons call calls ih =>
    simp only [List.mem_cons, not_or] at hclose
    cases call with
    | next =>
      change (readerMachine m).run ((readerMachine m).step state .next).2 calls = state
      rw [hnext]
      exact ih hclose.2
    | close => exact absurd rfl hclose.1

/-- Once the end of the file is answered, every later call answers it. -/
theorem ended_stays {state : ReaderState} (hlive : state.Live) (hcounted : state.Counted m)
    (hend : ((readerMachine m).step state .next).1 = .batch (.ok none)) {calls : List ReaderCall}
    (hclose : .close ∉ calls) :
    ((readerMachine m).step ((readerMachine m).run state (.next :: calls)) .next).1 = .batch (.ok none) := by
  have hanswer : (state.nextBatch m).1 = .ok none := ReaderReply.batch.inj hend
  rcases hlive with ⟨hrun, results, hr⟩ | hclosed
  · have hcalled := ReaderState.nextBatch_called hrun hr hcounted
    obtain ⟨hqueue, hwants⟩ := hcalled.ended hanswer
    obtain ⟨consumed, rest, -, hreader, -⟩ := hcalled.consumed
    have hrun' : (state.nextBatch m).2.Running :=
      ⟨hcalled.same.active.trans hrun.active, hcalled.same.cancelled.trans hrun.cancelled⟩
    have hnext := ReaderState.nextBatch_ended (m := m) hrun' hreader hqueue hwants
    have hstep : (readerMachine m).step (state.nextBatch m).2 .next = (.batch (.ok none), (state.nextBatch m).2) := by
      simp only [readerMachine, hnext]
    change ((readerMachine m).step ((readerMachine m).run (state.nextBatch m).2 calls) .next).1 = _
    rw [run_ended hstep hclose, hstep]
  · rw [ReaderState.nextBatch_closed hclosed] at hanswer
    cases hanswer

theorem close_closes {state : ReaderState} (hlive : state.Live) : ((readerMachine m).step state .close).2.Closed := by
  rcases hlive with ⟨hrun, -⟩ | hclosed
  · exact (ReaderState.close_running hrun).1
  · rw [ReaderState.step_closed hclosed]
    exact hclosed

theorem closed_cancels {state : ReaderState} (h : state.Closed) (calls : List ReaderCall) :
    ∀ entry ∈ (readerMachine m).trace state calls, entry.1 = .next →
      entry.2 = .batch (.error (.cancelled .readerNext)) := by
  refine (readerMachine m).forall_trace (I := ReaderState.Closed)
    (Q := fun call reply => call = .next → reply = .batch (.error (.cancelled .readerNext))) h ?_ ?_ calls
  · intro state call h
    rw [ReaderState.step_closed h]
    exact h
  · intro state call h hcall
    rw [hcall]
    simp [readerMachine, ReaderState.nextBatch_closed h]

theorem run_closed {state : ReaderState} (h : state.Closed) (calls : List ReaderCall) :
    ((readerMachine m).run state calls).Closed :=
  (readerMachine m).run_inv h (fun state call h => by rw [ReaderState.step_closed h]; exact h) calls

theorem run_live {state : ReaderState} (hlive : state.Live) (h : state.Counted m) (calls : List ReaderCall) :
    ((readerMachine m).run state calls).Live ∧ ((readerMachine m).run state calls).Counted m :=
  (readerMachine m).run_inv (I := fun state => state.Live ∧ state.Counted m) ⟨hlive, h⟩
    (fun _ call h => ⟨(ReaderState.step_stepped h.1 h.2 call).live, (ReaderState.step_stepped h.1 h.2 call).counted⟩) calls

/-- What is delivered and queued, the bounds and accounts of the queue, and the two ends of a reader. -/
theorem reader_queue_invariant (m : RecordBatch → Nat) (results : List (Except ParquetError RecordBatch)) (depth : Nat)
    (predicate : Option CompiledPredicate) (outputIndices : List Nat) (calls : List ReaderCall) :
    let start := openedReader results depth predicate outputIndices
    let state := (readerMachine m).run start calls
    let delivered := deliveredBatches ((readerMachine m).trace start calls)
    (.close ∉ calls → ∃ consumed rest, results = consumed ++ rest ∧ state.reader = some rest ∧
      delivered ++ state.queue = consumed.filterMap (imageOf predicate outputIndices)) ∧
    (∀ batch ∈ delivered, batch.numRows ≠ 0) ∧
    (∀ seen ∈ start.statesSeen m calls, seen.queue.length ≤ depth ∧
      seen.currentBufferedBytes = (seen.queue.map m).sum) ∧
    state.peakBufferedBytes =
      ReaderState.maxOf (fun seen => (seen.queue.map m).sum) (start.statesSeen m calls) 0 ∧
    state.peakBufferedBatches = ReaderState.maxOf (fun seen => seen.queue.length) (start.statesSeen m calls) 0 ∧
    (∀ before between after, calls = before ++ .next :: between ++ .next :: after → .close ∉ between →
      ((readerMachine m).step ((readerMachine m).run start before) .next).1 = .batch (.ok none) →
      ((readerMachine m).step ((readerMachine m).run start (before ++ .next :: between)) .next).1 = .batch (.ok none)) ∧
    (∀ before after, calls = before ++ .close :: after →
      (∀ entry ∈ (readerMachine m).trace ((readerMachine m).run start (before ++ [.close])) after, entry.1 = .next →
        entry.2 = .batch (.error (.cancelled .readerNext))) ∧
      state.queue = [] ∧ state.currentBufferedBytes = 0) := by
  intro start state delivered
  have htracked := tracked (m := m) results depth predicate outputIndices calls
  have hcalls : ((readerMachine m).trace start calls).map Prod.fst = calls := (readerMachine m).map_fst_trace start calls
  have hlive : start.Live := openedReader_live
  have hpeaked := ReaderState.statesSeen_peaked (m := m) calls hlive openedReader_counted
  refine ⟨?_, ?_, ?_, hpeaked.bytes, hpeaked.batches, ?_, ?_⟩
  · intro hclose
    rw [← hcalls] at hclose
    obtain ⟨-, -, -, hconsumed⟩ := htracked.running hclose
    exact hconsumed
  · intro batch hbatch
    obtain ⟨result, -, himage⟩ := htracked.images batch hbatch
    exact imageOf_numRows himage
  · intro seen hseen
    obtain ⟨hcounted, hdepth⟩ := ReaderState.statesSeen_counted calls openedReader_live openedReader_counted seen hseen
    exact ⟨hcounted.bound.trans_eq hdepth, hcounted.bytes⟩
  · intro before between after hcalls hclose hend
    obtain ⟨hlive, hcounted⟩ := run_live (m := m) openedReader_live openedReader_counted before
    rw [Machine.run_append]
    exact ended_stays hlive hcounted hend hclose
  · intro before after hcalls
    obtain ⟨hlive, -⟩ := run_live (m := m) openedReader_live openedReader_counted before
    have hclosed : ((readerMachine m).run start (before ++ [.close])).Closed := by
      rw [Machine.run_append]
      exact close_closes hlive
    have hstate : state = (readerMachine m).run ((readerMachine m).run start (before ++ [.close])) after := by
      rw [← Machine.run_append, List.append_assoc]
      exact congrArg ((readerMachine m).run start) hcalls
    have hfinal := run_closed (m := m) hclosed after
    rw [← hstate] at hfinal
    exact ⟨closed_cancels hclosed after, hfinal.queue, hfinal.bytes⟩

end

end Parquex
