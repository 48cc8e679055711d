import Parquex.EventTime
import Parquex.Fallible

/-!
# Time partitions fail safely

A call for a partition or a plan encodes its timestamps in the unit of the
specification and hands them to the native planner, which takes them as 64-bit
integers. Exactly the calls whose integers do not fit raise.
-/

namespace Parquex

namespace TimePartition

variable (spec : TimePartition)

theorem normalizeTimestamp_eq_ok {timestamp : Term} {encoded : Int} {datetime : DateTime}
    (h : spec.normalizeTimestamp timestamp = .ok (encoded, datetime)) :
    encodeTimestamp timestamp spec.timestampUnit = .ok encoded := by
  obtain ⟨value, hv, h⟩ := except_bind_eq_ok.mp h
  obtain ⟨d, -, h⟩ := except_map_eq_ok.mp h
  rw [hv, (Prod.mk.inj h).1]

/-! ## Calls and what they hand to the planner -/

theorem liftError_ne_raised {α : Type} (x : Except Error α) : liftError x ≠ .error .raised := by
  cases x <;> simp [liftError]

theorem nativeResult_ne_raised {α : Type} (x : Except NativeFailure α) : nativeResult x ≠ .error .raised := by
  cases x <;> simp [nativeResult]

theorem bind_eq_raised {α β : Type} {x : Except (Stop Error) α} {f : α → Except (Stop Error) β}
    (hx : x ≠ .error .raised) : x >>= f = .error .raised ↔ ∃ a, x = .ok a ∧ f a = .error .raised := by
  cases x with
  | error stop =>
    simp only [bind, Except.bind, reduceCtorEq, false_and, exists_false, iff_false]
    exact fun h => hx (by rw [Except.error.inj h])
  | ok a => simp [bind, Except.bind]

theorem mapM_ne_raised {α β : Type} {f : α → Except (Stop Error) β} (hf : ∀ a, f a ≠ .error .raised) (as : List α) :
    as.mapM f ≠ .error .raised := by
  induction as with
  | nil => simp [pure, Except.pure]
  | cons a as ih =>
    rw [List.mapM_cons, ne_eq, bind_eq_raised (hf a)]
    rintro ⟨b, -, h⟩
    obtain ⟨bs, -, h⟩ := (bind_eq_raised ih).mp h
    cases h

theorem forTimestamp_eq_raised (timestamp : Term) : spec.forTimestamp timestamp = .error .raised ↔
    ∃ encoded, encodeTimestamp timestamp spec.timestampUnit = .ok encoded ∧ inI64 encoded = false := by
  unfold forTimestamp
  rw [bind_eq_raised (liftError_ne_raised _)]
  simp only [liftError_eq_ok]
  refine exists_congr fun encoded => and_congr_right fun _ => ?_
  cases hi : inI64 encoded with
  | false => simp [throw, throwThe, MonadExceptOf.throw, bind, Except.bind]
  | true =>
    simp only [Bool.not_true, Bool.false_eq_true, if_false, reduceCtorEq, iff_false]
    rw [bind_eq_raised (nativeResult_ne_raised _)]
    rintro ⟨native, -, h⟩
    exact liftError_ne_raised _ h

theorem path_eq_raised (timestamp : Term) :
    spec.path timestamp = .error .raised ↔ spec.forTimestamp timestamp = .error .raised := by
  unfold path
  cases spec.forTimestamp timestamp with
  | error stop => simp [bind, Except.bind]
  | ok partition => simp [bind, Except.bind, pure, Except.pure]

theorem plan_bind (from' until' : Term) {maxPartitions : Int} (hl : 0 < maxPartitions) :
    spec.plan from' until' maxPartitions = (do
      let f ← liftError (encodeTimestamp from' spec.timestampUnit)
      let u ← liftError (encodeTimestamp until' spec.timestampUnit)
      if !inI64 f || !inI64 u || decide (2 ^ 64 ≤ maxPartitions) then .error .raised
      else do
        let native ← nativeResult (Parquex.plan f u spec.timestampUnit spec.granularity maxPartitions.toNat)
        native.mapM fun entry => liftError (Partition.fromNative entry)) := by
  unfold plan
  simp only [hl, not_true_eq_false, if_false]
  refine bind_congr fun f => bind_congr fun u => ?_
  cases !inI64 f || !inI64 u || decide (2 ^ 64 ≤ maxPartitions) <;> rfl

/-- A plan raises on what does not fit, when it comes to hand anything on. -/
theorem plan_eq_raised (from' until' : Term) (maxPartitions : Int) :
    spec.plan from' until' maxPartitions = .error .raised ↔ 0 < maxPartitions ∧ ∃ f u,
      encodeTimestamp from' spec.timestampUnit = .ok f ∧ encodeTimestamp until' spec.timestampUnit = .ok u ∧
      ¬(inI64 f = true ∧ inI64 u = true ∧ maxPartitions < 2 ^ 64) := by
  by_cases hl : 0 < maxPartitions
  · rw [plan_bind spec from' until' hl, bind_eq_raised (liftError_ne_raised _)]
    simp only [bind_eq_raised (liftError_ne_raised _), liftError_eq_ok, hl, true_and]
    refine exists_congr fun f => ⟨?_, ?_⟩
    · intro ⟨hf, u, hu, h⟩
      refine ⟨u, hf, hu, fun ⟨hf', hu', hm⟩ => ?_⟩
      have hm' : decide ((2 : Int) ^ 64 ≤ maxPartitions) = false := decide_eq_false (by omega)
      simp only [hf', hu', hm', Bool.not_true, Bool.or_self, Bool.false_eq_true, if_false] at h
      obtain ⟨native, -, h⟩ := (bind_eq_raised (nativeResult_ne_raised _)).mp h
      exact mapM_ne_raised (fun entry => liftError_ne_raised _) native h
    · intro ⟨u, hf, hu, hw⟩
      refine ⟨hf, u, hu, ?_⟩
      have hwide : (!inI64 f || !inI64 u || decide ((2 : Int) ^ 64 ≤ maxPartitions)) = true := by
        cases hf' : inI64 f <;> cases hu' : inI64 u <;> simp_all
      simp only [hwide, if_true]
  · simp only [hl, false_and, iff_false]
    unfold plan
    simp [hl, throw, throwThe, MonadExceptOf.throw, bind, Except.bind]

theorem plan_eq_ok {from' until' : Term} {maxPartitions : Int} {plans : List Partition}
    (h : spec.plan from' until' maxPartitions = .ok plans) :
    0 < maxPartitions ∧ ∃ f u native, encodeTimestamp from' spec.timestampUnit = .ok f ∧
      encodeTimestamp until' spec.timestampUnit = .ok u ∧
      Parquex.plan f u spec.timestampUnit spec.granularity maxPartitions.toNat = .ok native ∧
      List.Forall₂ (fun native partition => Partition.fromNative native = .ok partition) native plans := by
  by_cases hl : 0 < maxPartitions
  · rw [plan_bind spec from' until' hl] at h
    obtain ⟨f, hf, h⟩ := except_bind_eq_ok.mp h
    obtain ⟨u, hu, h⟩ := except_bind_eq_ok.mp h
    cases hw : !inI64 f || !inI64 u || decide ((2 : Int) ^ 64 ≤ maxPartitions) with
    | true =>
      simp only [hw, if_true] at h
      cases h
    | false =>
      simp only [hw, Bool.false_eq_true, if_false] at h
      obtain ⟨native, hn, h⟩ := except_bind_eq_ok.mp h
      have hall := mapM_eq_ok.mp h
      simp only [liftError_eq_ok] at hall
      exact ⟨hl, f, u, native, liftError_eq_ok.mp hf, liftError_eq_ok.mp hu, nativeResult_eq_ok.mp hn, hall⟩
  · unfold plan at h
    simp [hl, throw, throwThe, MonadExceptOf.throw, bind, Except.bind] at h

/-! ## Calls that fail safely -/

/-- A timestamp whose ticks fit the native integer. -/
def Fits (timestamp : Term) : Prop :=
  ∀ encoded, encodeTimestamp timestamp spec.timestampUnit = .ok encoded → inI64 encoded = true

/-- The limit that the options of a plan give. -/
def planLimit (options : List (String × Term)) : Option Int :=
  if (options.map Prod.fst).diff ["max_partitions"] = [] then ((options.lookup "max_partitions").getD (.int 10000)).int?
  else none

theorem forTimestamp_safe_iff (timestamp : Term) : spec.forTimestamp timestamp ≠ .error .raised ↔ spec.Fits timestamp := by
  rw [ne_eq, forTimestamp_eq_raised]
  simp only [Fits, not_exists, not_and, Bool.not_eq_false]

theorem planWith_cases (from' until' : Term) (options : List (String × Term)) :
    (∃ limit, planLimit options = some limit ∧
      spec.planWith from' until' options = spec.plan from' until' limit) ∨
    planLimit options = none ∧ ∃ error, spec.planWith from' until' options = .error (.error error) := by
  unfold planWith planLimit
  by_cases hkeys : (options.map Prod.fst).diff ["max_partitions"] = []
  · simp only [hkeys, if_true]
    cases (options.lookup "max_partitions").getD (.int 10000) <;> simp [Term.int?]
  · simp only [hkeys, if_false]
    exact Or.inr ⟨trivial, _, rfl⟩

theorem planWith_eq_raised (from' until' : Term) (options : List (String × Term)) :
    spec.planWith from' until' options = .error .raised ↔
      ∃ limit, planLimit options = some limit ∧ spec.plan from' until' limit = .error .raised := by
  rcases spec.planWith_cases from' until' options with ⟨limit, hl, h⟩ | ⟨hl, error, h⟩ <;> simp [hl, h]

theorem planWith_eq_ok {from' until' : Term} {options : List (String × Term)} {plans : List Partition}
    (hok : spec.planWith from' until' options = .ok plans) :
    ∃ limit, planLimit options = some limit ∧ spec.plan from' until' limit = .ok plans := by
  rcases spec.planWith_cases from' until' options with ⟨limit, hl, h⟩ | ⟨hl, error, h⟩
  · exact ⟨limit, hl, h ▸ hok⟩
  · rw [h] at hok
    cases hok

/-- Each operation fails safely exactly when what it hands to the planner fits. -/
theorem fails_safely_iff (timestamp from' until' : Term) (options : List (String × Term)) :
    (spec.forTimestamp timestamp ≠ .error .raised ↔ spec.Fits timestamp) ∧
    (spec.path timestamp ≠ .error .raised ↔ spec.Fits timestamp) ∧
    (spec.planWith from' until' options ≠ .error .raised ↔ ∀ limit f u, planLimit options = some limit → 0 < limit →
      encodeTimestamp from' spec.timestampUnit = .ok f → encodeTimestamp until' spec.timestampUnit = .ok u →
      inI64 f = true ∧ inI64 u = true ∧ limit < 2 ^ 64) := by
  refine ⟨spec.forTimestamp_safe_iff timestamp, ?_, ?_⟩
  · rw [ne_eq, path_eq_raised]
    exact spec.forTimestamp_safe_iff timestamp
  · rw [ne_eq, planWith_eq_raised]
    constructor
    · intro h limit f u hlimit hpos hf hu
      by_contra hw
      exact h ⟨limit, hlimit, (spec.plan_eq_raised from' until' limit).mpr ⟨hpos, f, u, hf, hu, hw⟩⟩
    · intro h ⟨limit, hlimit, hraised⟩
      obtain ⟨hpos, f, u, hf, hu, hw⟩ := (spec.plan_eq_raised from' until' limit).mp hraised
      exact hw (h limit f u hlimit hpos hf hu)

end TimePartition

/-- Partitions of an hour over timestamps in nanoseconds. -/
def hourlyNanoseconds : TimePartition := { column := "at", granularity := .hour, timestampUnit := .nanosecond }

/-- The last second of the year 9999 is a time of the library, but does not fit in nanoseconds. -/
theorem last_second_raises :
    ¬ ∀ (spec : TimePartition) (timestamp : DateTime), spec.forTimestamp (.dateTime timestamp) ≠ .error .raised ∧
      spec.path (.dateTime timestamp) ≠ .error .raised ∧
      spec.planWith (.dateTime timestamp) (.dateTime timestamp) [] ≠ .error .raised := by
  intro h
  refine (h hourlyNanoseconds ⟨253402300799000000, 0⟩).1 ?_
  rw [TimePartition.forTimestamp_eq_raised]
  exact ⟨253402300799000000000, by decide, by decide⟩

end Parquex
