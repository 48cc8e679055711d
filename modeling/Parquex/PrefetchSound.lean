import Parquex.Prefetch
import Parquex.ReaderSound

/-!
# How far prefetching shows

The answers of a reader up to the first failure or the end. A failure that the
filling loop meets is answered before the batches that are queued already, so the
depth of the queue shows exactly when a failure follows a batch.
-/

namespace Parquex

namespace ReaderState

/-- The answers of successive calls up to the first failure or the end of the file. -/
def answers (m : RecordBatch → Nat) : Nat → ReaderState → List (Except NativeFailure (Option RecordBatch))
  | 0, _ => []
  | fuel + 1, state =>
    match state.nextBatch m with
    | (.ok (some batch), state) => .ok (some batch) :: answers m fuel state
    | (answer, _) => [answer]

variable {m : RecordBatch → Nat}

/-- What the underlying reader has yet to give, up to its first failure. -/
structure Ahead (state : ReaderState) (items : List RecordBatch) (failure : Option NativeFailure) : Prop where
  rest : ∃ results, state.reader = some results ∧
    untilFailure (results.map (outcome state.predicate state.outputIndices)) = (items, failure) ∧
    (state.eof = true → results = [])

theorem not_wants_of_full {state : ReaderState} (h : state.prefetchDepth ≤ state.queue.length) :
    state.wants = false := by
  simp [wants, h]

theorem fill_ahead (results : List (Except ParquetError RecordBatch)) (state : ReaderState)
    (hr : state.reader = some results) (heof : state.eof = true → results = []) {items : List RecordBatch}
    {failure : Option NativeFailure}
    (h : untilFailure (results.map (outcome state.predicate state.outputIndices)) = (items, failure)) :
    (∃ next, state.fill m results = (none, next) ∧
      next.queue = state.queue ++ items.take (state.prefetchDepth - state.queue.length) ∧
      Ahead next (items.drop (state.prefetchDepth - state.queue.length)) failure ∧
      (state.prefetchDepth - state.queue.length ≤ items.length ∨ failure = none)) ∨
    (∃ stop next, failure = some stop ∧ items.length < state.prefetchDepth - state.queue.length ∧
      state.fill m results = (some stop, next)) := by
  induction results generalizing state items failure with
  | nil =>
    simp only [List.map_nil, untilFailure, Prod.mk.injEq] at h
    obtain ⟨rfl, rfl⟩ := h
    left
    cases hwants : state.wants with
    | false => exact ⟨state, fill_stop hwants _, by simp, ⟨[], hr, by simp [untilFailure], fun _ => rfl⟩, .inr rfl⟩
    | true =>
      exact ⟨{ state with eof := true }, fill_eof hwants, by simp,
        ⟨[], hr, by simp [untilFailure], fun _ => rfl⟩, .inr rfl⟩
  | cons result results ih =>
    have hopen : state.eof = false := by
      cases he : state.eof with
      | false => rfl
      | true => cases heof he
    cases hwants : state.wants with
    | false =>
      have hfull : state.prefetchDepth - state.queue.length = 0 := by
        simp only [wants, hopen, Bool.not_false, Bool.and_true, decide_eq_false_iff_not] at hwants
        omega
      rw [hfull]
      exact .inl ⟨state, fill_stop hwants _, by simp, ⟨_, hr, h, heof⟩, .inl (Nat.zero_le _)⟩
    | true =>
      have hroom : state.queue.length < state.prefetchDepth := by
        simp only [wants, hopen, Bool.not_false, Bool.and_true, decide_eq_true_eq] at hwants
        exact hwants
      have hfill := fill.eq_2 m state result results
      simp only [hwants, if_true, consume_eq] at hfill
      rw [List.map_cons] at h
      cases hout : outcome state.predicate state.outputIndices result with
      | error stop =>
        rw [hout] at h hfill
        simp only [untilFailure, Prod.mk.injEq] at h
        obtain ⟨rfl, rfl⟩ := h
        exact .inr ⟨stop, _, rfl, by simpa using Nat.sub_pos_of_lt hroom, hfill⟩
      | ok image =>
        cases image with
        | none =>
          rw [hout] at h hfill
          have hih := ih { state with reader := some results } rfl (by simp [hopen]) h
          rw [hfill]
          exact hih
        | some batch =>
          rw [hout] at h hfill
          simp only [untilFailure, Prod.mk.injEq] at h
          obtain ⟨rfl, rfl⟩ := h
          have hroom' : state.prefetchDepth - state.queue.length =
              state.prefetchDepth - (state.queue ++ [batch]).length + 1 := by
            rw [List.length_append, List.length_singleton]
            omega
          have hih := ih (({ state with reader := some results } : ReaderState).push m batch) rfl (by simp [push, hopen])
            rfl
          rw [hfill, hroom']
          rcases hih with ⟨next, hnext, hqueue, hahead, hlength⟩ | ⟨stop, next, hfailure, hlength, hnext⟩
          · refine .inl ⟨next, hnext, ?_, hahead, ?_⟩
            · rw [hqueue]
              simp [push]
            · exact hlength.imp_left fun h => by rw [List.length_cons]; exact Nat.succ_le_succ h
          · exact .inr ⟨stop, next, hfailure, by rw [List.length_cons]; exact Nat.succ_lt_succ hlength, hnext⟩

/-! ## Answers -/

/-- The answer at the end of the items. -/
def ending (failure : Option NativeFailure) : Except NativeFailure (Option RecordBatch) :=
  match failure with
  | none => .ok none
  | some failure => .error failure

/-- The answers of a reader that has some batches queued and some ahead. -/
theorem answers_eq (fuel : Nat) {state : ReaderState} {items : List RecordBatch} {failure : Option NativeFailure}
    (hrun : state.Running) (hcounted : state.Counted m) (hahead : state.Ahead items failure)
    (hdepth : 1 ≤ state.prefetchDepth) (hfuel : state.queue.length + items.length < fuel) :
    state.answers m fuel =
      (handed state.prefetchDepth (state.queue ++ items) failure).map (fun batch => .ok (some batch)) ++
        [ending failure] := by
  induction fuel generalizing state items with
  | zero => exact absurd hfuel (Nat.not_lt_zero _)
  | succ fuel ih =>
    obtain ⟨results, hr, hitems, heof⟩ := hahead.rest
    have hbound := hcounted.bound
    have hfilled := fill_filled results state hr hcounted
    have hnext := nextBatch_running (m := m) hrun hr
    rcases fill_ahead (m := m) results state hr heof hitems with
      ⟨next, hfill, hqueue, hahead', hlength⟩ | ⟨stop, next, hfailure, hlength, hfill⟩
    · rw [hfill] at hnext hfilled
      simp only at hnext hfilled
      have hsplit : next.queue ++ items.drop (state.prefetchDepth - state.queue.length) = state.queue ++ items := by
        rw [hqueue, List.append_assoc, List.take_append_drop]
      cases hq : next.queue with
      | nil =>
        -- nothing is queued after filling, so nothing is ahead either
        have hnil : state.queue ++ items = [] := by
          rw [hq] at hqueue
          obtain ⟨hempty, htake⟩ := List.append_eq_nil_iff.mp hqueue.symm
          rw [hempty, List.length_nil, Nat.sub_zero] at htake
          rcases List.take_eq_nil_iff.mp htake with h0 | h0
          · omega
          · rw [hempty, h0]
            rfl
        have hnone : failure = none := by
          rcases hlength with hle | hnone
          · have hlen := congrArg List.length hnil
            simp only [List.length_append, List.length_nil] at hlen
            omega
          · exact hnone
        rw [hnil, hnone, answers, hnext]
        simp [pop, hq, handed, ending]
      | cons batch queue =>
        obtain ⟨hcounted', -, hsame⟩ := hfilled.counted.pop
        have hsame' := hfilled.same.trans hsame
        have hpop : (next.pop m).1 = some batch ∧ (next.pop m).2.queue = queue ∧
            (next.pop m).2.reader = next.reader ∧ (next.pop m).2.eof = next.eof := by
          simp [pop, hq]
        have hahead'' : (next.pop m).2.Ahead (items.drop (state.prefetchDepth - state.queue.length)) failure := by
          obtain ⟨rest, hrest, huntil, hend⟩ := hahead'.rest
          refine ⟨rest, hpop.2.2.1.trans hrest, ?_, ?_⟩
          · rw [hsame.predicate, hsame.outputIndices]
            exact huntil
          · rw [hpop.2.2.2]
            exact hend
        have hrest : state.queue ++ items =
            batch :: (queue ++ items.drop (state.prefetchDepth - state.queue.length)) := by
          rw [← hsplit, hq]
          rfl
        have hlen := congrArg List.length hrest
        simp only [List.length_append, List.length_cons] at hlen
        have hrun' : (next.pop m).2.Running :=
          ⟨hsame'.active.trans hrun.active, hsame'.cancelled.trans hrun.cancelled⟩
        have hih := ih hrun' hcounted' hahead'' (by rw [hsame'.prefetchDepth]; exact hdepth)
          (by rw [hpop.2.1]; omega)
        rw [hpop.2.1, hsame'.prefetchDepth] at hih
        rw [answers, hnext]
        simp only [hpop.1]
        rw [hih, hrest, handed_cons]
        · rfl
        · rcases hlength with hle | hnone
          · right
            rw [List.length_append] at *
            omega
          · exact .inl hnone
    · rw [hfill] at hnext
      have hshort : handed state.prefetchDepth (state.queue ++ items) failure = [] := by
        apply handed_short
        · rw [List.length_append]
          omega
        · rw [hfailure]
          simp
      rw [hshort, answers, hnext, hfailure]
      rfl

end ReaderState

section
variable {m : RecordBatch → Nat} {results : List (Except ParquetError RecordBatch)} {depth fuel : Nat}
  {predicate : Option CompiledPredicate} {outputIndices : List Nat}

theorem length_untilFailure {ε β : Type} (l : List (Except ε (Option β))) : (untilFailure l).1.length ≤ l.length := by
  induction l with
  | nil => exact Nat.le_refl 0
  | cons result l ih =>
    cases result with
    | error failure => exact Nat.zero_le _
    | ok image =>
      cases image with
      | none => exact ih.trans (Nat.le_succ _)
      | some item => exact Nat.succ_le_succ ih

theorem openedReader_answers (hdepth : 1 ≤ depth) (hfuel : results.length < fuel) :
    (openedReader results depth predicate outputIndices).answers m fuel =
      (handed depth (untilFailure (results.map (outcome predicate outputIndices))).1
        (untilFailure (results.map (outcome predicate outputIndices))).2).map (fun batch => .ok (some batch)) ++
          [ReaderState.ending (untilFailure (results.map (outcome predicate outputIndices))).2] := by
  have hlength := length_untilFailure (results.map (outcome predicate outputIndices))
  rw [List.length_map] at hlength
  refine ReaderState.answers_eq fuel ⟨rfl, rfl⟩ openedReader_counted ⟨results, rfl, rfl, nofun⟩ hdepth ?_
  exact (Nat.zero_add _).trans_lt (hlength.trans_lt hfuel)

/-- The answers up to the first failure or the end depend on the depth exactly when a failure follows a batch. -/
theorem prefetch_transparent_iff (m : RecordBatch → Nat) (results : List (Except ParquetError RecordBatch))
    (depth : Nat) (predicate : Option CompiledPredicate) (outputIndices : List Nat) (hdepth : 1 ≤ depth) (fuel : Nat)
    (hfuel : results.length < fuel) :
    let answers := fun depth => (openedReader results depth predicate outputIndices).answers m fuel
    let ahead := untilFailure (results.map (outcome predicate outputIndices))
    (∃ given, answers depth = List.map (fun batch => .ok (some batch)) given ++ [ReaderState.ending ahead.2]) ∧
    (answers depth = answers 1 ↔ depth = 1 ∨ ahead.2 = none ∨ ahead.1 = []) := by
  intro answers ahead
  have hdeep : answers depth = _ := openedReader_answers hdepth hfuel
  have hone : answers 1 = _ := openedReader_answers (Nat.le_refl 1) hfuel
  refine ⟨⟨_, hdeep⟩, ?_⟩
  rw [hdeep, hone, List.append_left_inj, ← handed_eq_iff hdepth]
  exact List.map_inj_right fun a b h => Option.some.inj (Except.ok.inj h)

/-- A batch of one row. -/
def oneRow : RecordBatch where
  schema := [.mk "id" (.scalar (.integer .int64)) false]
  columns := [.flat (.integer .int64) (.integers [some 1])]
  numRows := 1

theorem prefetch_transparent_iff_two :
    let answers := fun depth => (openedReader [.ok oneRow] depth none [0]).answers (fun _ => 64) 2
    answers 2 = answers 1 :=
  (prefetch_transparent_iff (fun _ => 64) [.ok oneRow] 2 none [0] (by decide) 2 (by decide)).2.mpr (.inr (.inl rfl))

/-- A batch that is followed by a failure is delivered at depth one and lost at depth two. -/
theorem prefetch_shows :
    let answers := fun depth => (openedReader [.ok oneRow, .error .other] depth none [0]).answers (fun _ => 64) 3
    answers 1 = [.ok (some oneRow), .error ReaderState.decodingFailed] ∧
      answers 2 = [.error ReaderState.decodingFailed] ∧ answers 2 ≠ answers 1 := by
  refine ⟨rfl, rfl, fun h => ?_⟩
  have hlength := congrArg List.length h
  exact absurd hlength (by decide)

end

end Parquex
