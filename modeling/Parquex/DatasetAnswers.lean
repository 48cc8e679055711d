import Parquex.DatasetRange

/-!
# A source of a shelf

The calls that a stream makes for some partitions come one after another, so a shelf
can answer them by their number.
-/

namespace Parquex

namespace DatasetStream

section
variable (settings : Settings) (shelf : Shelf)

/-- The answers to the calls for a file: its reader is opened and returns its batches, then its end. -/
def fileAnswers (key : String) : List (Option Term) := none :: ((shelf.file key).batches.map some ++ [none])

def listedFiles (path : String) : List String :=
  match shelf.list (partitionPrefix settings path) with
  | .ok keys => parquetFiles keys
  | .error _ => []

/-- The answers to the calls for a partition: it is listed, then its files are read. -/
def planAnswers (path : String) : List (Option Term) :=
  none :: (listedFiles settings shelf path).flatMap (fileAnswers shelf)

/-- A source that returns the batches of a shelf by the number of the call. -/
def Shelf.source (plans : List String) : Source where
  list := fun _ text => shelf.list text
  openReader := fun _ key => .ok (shelf.file key).fields
  next := fun call => .ok ((plans.flatMap (planAnswers settings shelf)).getD call none)

/-- The answers that are left for a state. -/
def Left (answers : List (Option Term)) (state : State) : Prop :=
  ∃ natives : List Term, answers =
    (match state.current with
      | none => []
      | some _ => natives.map some ++ [none]) ++
    (state.files.flatMap (fileAnswers shelf) ++ state.plans.flatMap (planAnswers settings shelf))

/-- The answers from the next call on are those that are left. -/
def Follows (answers : List (Option Term)) (s : Enumeration) : Prop :=
  match s.phase with
  | .idle => Left settings shelf (answers.drop s.world.calls) s.accumulator
  | .running state => Left settings shelf (answers.drop s.world.calls) state
  | .ended => True

end

section
variable {settings : Settings} {shelf : Shelf} {plans : List String} {answers : List (Option Term)} {s : Enumeration}
  {state : State}

theorem drop_succ {answer : Option Term} {rest : List (Option Term)} {calls : Nat}
    (h : answers.drop calls = answer :: rest) : answers.drop (calls + 1) = rest ∧ answers.getD calls none = answer := by
  refine ⟨?_, ?_⟩
  · rw [← List.drop_drop, h, List.drop_one, List.tail_cons]
  · rw [List.getD_eq_getElem?_getD, ← Nat.add_zero calls, ← List.getElem?_drop, h]
    rfl

theorem follows_turn (hp : s.phase = .running state)
    (h : Follows settings shelf (plans.flatMap (planAnswers settings shelf)) s) :
    Follows settings shelf (plans.flatMap (planAnswers settings shelf))
      (turn settings (shelf.source settings plans) s state).2 := by
  unfold Follows at h
  rw [hp] at h
  obtain ⟨natives, hleft⟩ := h
  unfold turn
  obtain ⟨pending, files, current⟩ := state
  cases current with
  | some current =>
    simp only [next, read, readerNext]
    cases hactive : s.world.isActive current.handle with
    | false => trivial
    | true =>
      cases natives with
      | nil =>
        obtain ⟨hrest, hnone⟩ := drop_succ hleft
        have hnext : (shelf.source settings plans).next s.world.calls = .ok none := congrArg Except.ok hnone
        simp only [if_true, hnext]
        exact ⟨[], hrest⟩
      | cons native natives =>
        obtain ⟨hrest, hsome⟩ := drop_succ hleft
        have hnext : (shelf.source settings plans).next s.world.calls = .ok (some native) := congrArg Except.ok hsome
        simp only [if_true, hnext]
        cases receive settings current.schema native with
        | error error => trivial
        | ok output =>
          by_cases hempty : output.rowCount = 0
          · simp only [hempty, if_true]
            exact ⟨natives, hrest⟩
          · simp only [hempty, if_false]
            exact ⟨natives, hrest⟩
  | none =>
    cases files with
    | cons key files =>
      simp only [List.flatMap_cons, fileAnswers, List.nil_append, List.cons_append] at hleft
      obtain ⟨hrest, -⟩ := drop_succ hleft
      have hopen : (shelf.source settings plans).openReader s.world.calls key = .ok (shelf.file key).fields := rfl
      simp only [next, openStream, hopen]
      cases Schema.fromNative (shelf.file key).fields with
      | error error => trivial
      | ok schema =>
        refine ⟨(shelf.file key).batches, hrest.trans ?_⟩
        simp only [List.append_assoc]
    | nil =>
      cases pending with
      | nil => trivial
      | cons path pending =>
        obtain ⟨hrest, -⟩ := drop_succ hleft
        have hlist : (shelf.source settings plans).list s.world.calls (partitionPrefix settings path) =
            shelf.list (partitionPrefix settings path) := rfl
        simp only [next, hlist]
        cases hkeys : shelf.list (partitionPrefix settings path) with
        | error error => trivial
        | ok keys =>
          refine ⟨[], ?_⟩
          unfold listedFiles at hrest
          rw [hkeys] at hrest
          exact hrest

theorem follows_reached (h : Reached settings (shelf.source settings plans) plans s) :
    Follows settings shelf (plans.flatMap (planAnswers settings shelf)) s := by
  obtain ⟨n, rfl⟩ := h
  induction n with
  | zero => exact ⟨[], rfl⟩
  | succ n ih =>
    rw [Function.iterate_succ_apply']
    generalize (Enumeration.pull settings (shelf.source settings plans))^[n] (start plans) = s at ih
    unfold Enumeration.pull
    cases hp : s.phase with
    | idle =>
      unfold Follows at ih
      rw [hp] at ih
      unfold step
      rw [hp]
      exact ih
    | running state =>
      simp only [step_turn hp]
      exact follows_turn hp ih
    | ended => exact ih

/-- A shelf answers a stream by the number of the call. -/
theorem answers_source (settings : Settings) (shelf : Shelf) (plans : List String) :
    Answers settings (shelf.source settings plans) shelf plans := by
  intro s hs
  have hfollows := follows_reached hs
  unfold Answered
  split
  · rfl
  · next key files hphase =>
    unfold Follows at hfollows
    rw [hphase] at hfollows
    obtain ⟨natives, hleft⟩ := hfollows
    refine ⟨rfl, fun i hi => ?_⟩
    obtain ⟨hrest, -⟩ := drop_succ hleft
    refine congrArg Except.ok ?_
    rw [List.getD_eq_getElem?_getD, ← List.getElem?_drop, hrest]
    rcases Nat.lt_or_eq_of_le hi with hlt | rfl
    · simp [List.getElem?_append, hlt]
    · simp
  · trivial

end

end DatasetStream

end Parquex
