import Parquex.Machine
import Mathlib.Data.Set.Card

/-!
# Counted resources

A machine that counts the active resources of each kind, adding one when a resource
becomes active and taking one when it is released. As long as every step that moves
a counter also moves the resource it stands for, the counters are right after every
run, and no resource is taken twice.
-/

namespace Parquex

/-- What a step does to a counter. -/
inductive CounterMove
  | keep
  | add
  | sub
  deriving DecidableEq, Repr

/-- The counter is an unsigned word of 64 bits; one taken from nothing wraps around. -/
def fetchSub (n : Nat) : Nat := if n = 0 then 2 ^ 64 - 1 else n - 1

def CounterMove.apply : CounterMove → Nat → Nat
  | .keep, n => n
  | .add, n => n + 1
  | .sub, n => fetchSub n

/-- One step of one resource, which becomes active at most once and for the first time with the counter's add. -/
structure Turn {τ : Type*} (active past : τ → Bool) (before : τ) (result : τ × CounterMove) : Prop where
  keep : result.2 = .keep → active result.1 = active before
  add : result.2 = .add → active before = false ∧ active result.1 = true ∧ past before = false ∧ past result.1 = true
  sub : result.2 = .sub → active before = true ∧ active result.1 = false
  past : past before = true → past result.1 = true

section
variable {τ : Type*} {active past : τ → Bool} {before after : τ}

theorem Turn.kept (ha : active after = active before) (hp : past before = true → past after = true) :
    Turn active past before (after, .keep) :=
  ⟨fun _ => ha, nofun, nofun, hp⟩

/-- What a step finishes is released if it is active. -/
theorem Turn.finished {finishes : Bool} (ha : active after = (active before && !finishes))
    (hp : past before = true → past after = true) :
    Turn active past before (after, if active before && finishes then .sub else .keep) := by
  cases hb : active before with
  | false =>
    rw [hb, Bool.false_and] at ha
    exact Turn.kept (ha.trans hb.symm) hp
  | true =>
    rw [hb, Bool.true_and] at ha
    cases finishes with
    | true => exact ⟨nofun, nofun, fun _ => ⟨hb, ha⟩, hp⟩
    | false => exact Turn.kept (ha.trans hb.symm) hp

end

/-- How the resources and the counters of a machine are read off its states and replies. -/
structure Accounts (σ ρ ι κ : Type*) where
  kind : ι → κ
  active : σ → ι → Bool
  /-- The resource has been active, or will never be. -/
  past : σ → ι → Bool
  counter : σ → κ → Nat
  resource : ρ → ι
  move : ρ → CounterMove

namespace Accounts

variable {σ ε ρ ι κ : Type*} [DecidableEq ι] [DecidableEq κ] (A : Accounts σ ρ ι κ) (M : Machine σ ε ρ)

/-- A step moves one resource, and its counter with it. -/
structure Moves (s : σ) (reply : ρ) (s' : σ) : Prop where
  others : ∀ i, i ≠ A.resource reply → A.active s' i = A.active s i ∧ A.past s' i = A.past s i
  counter : ∀ k, A.counter s' k =
    if k = A.kind (A.resource reply) then (A.move reply).apply (A.counter s k) else A.counter s k
  keep : A.move reply = .keep → A.active s' (A.resource reply) = A.active s (A.resource reply)
  add : A.move reply = .add → A.active s (A.resource reply) = false ∧ A.active s' (A.resource reply) = true ∧
    A.past s (A.resource reply) = false ∧ A.past s' (A.resource reply) = true
  sub : A.move reply = .sub → A.active s (A.resource reply) = true ∧ A.active s' (A.resource reply) = false
  past : A.past s (A.resource reply) = true → A.past s' (A.resource reply) = true

def Lawful : Prop := ∀ s e, A.Moves s (M.step s e).1 (M.step s e).2

/-- The active resources of a kind. -/
def activeSet (s : σ) (k : κ) : Set ι := {i | A.kind i = k ∧ A.active s i = true}

/-- How often the counter of a resource was moved so for it. -/
def times (history : List (ε × ρ)) (move : CounterMove) (i : ι) : Nat :=
  history.countP fun entry => decide (A.resource entry.2 = i ∧ A.move entry.2 = move)

/-- A first state, in which no resource has been active. -/
def Fresh (s : σ) : Prop := ∀ i, A.active s i = false ∧ A.past s i = false

section
variable {A} {M}

/-! ## Steps -/

variable {s s' : σ} {reply : ρ}

omit [DecidableEq ι] in
/-- The turn of the one resource that a step moves. -/
theorem Moves.of_turn {τ : Type*} {active past : τ → Bool} {before after : τ}
    (h : Turn active past before (after, A.move reply))
    (hbefore : A.active s (A.resource reply) = active before ∧ A.past s (A.resource reply) = past before)
    (hafter : A.active s' (A.resource reply) = active after ∧ A.past s' (A.resource reply) = past after)
    (hothers : ∀ i, i ≠ A.resource reply → A.active s' i = A.active s i ∧ A.past s' i = A.past s i)
    (hcounter : ∀ k, A.counter s' k =
      if k = A.kind (A.resource reply) then (A.move reply).apply (A.counter s k) else A.counter s k) :
    A.Moves s reply s' where
  others := hothers
  counter := hcounter
  keep hm := by
    rw [hbefore.1, hafter.1]
    exact h.keep hm
  add hm := by
    rw [hbefore.1, hafter.1, hbefore.2, hafter.2]
    exact h.add hm
  sub hm := by
    rw [hbefore.1, hafter.1]
    exact h.sub hm
  past hp := by
    rw [hbefore.2] at hp
    rw [hafter.2]
    exact h.past hp

theorem Moves.past_mono (h : A.Moves s reply s') {i : ι} (hp : A.past s i = true) : A.past s' i = true := by
  by_cases hi : i = A.resource reply
  · rw [hi] at hp ⊢
    exact h.past hp
  · rw [(h.others i hi).2]
    exact hp

theorem Moves.activeSet_eq (h : A.Moves s reply s') (k : κ) :
    A.activeSet s' k =
      if k = A.kind (A.resource reply) then
        match A.move reply with
        | .keep => A.activeSet s k
        | .add => insert (A.resource reply) (A.activeSet s k)
        | .sub => A.activeSet s k \ {A.resource reply}
      else A.activeSet s k := by
  have hother : ∀ i, i ≠ A.resource reply → (i ∈ A.activeSet s' k ↔ i ∈ A.activeSet s k) := by
    intro i hi
    simp only [activeSet, Set.mem_ofPred_eq, (h.others i hi).1]
  split
  · rename_i hk
    cases hm : A.move reply with
    | keep =>
      ext i
      by_cases hi : i = A.resource reply
      · simp only [activeSet, Set.mem_ofPred_eq, hi, h.keep hm]
      · exact hother i hi
    | add =>
      ext i
      by_cases hi : i = A.resource reply
      · simp [activeSet, hi, hk, (h.add hm).2.1]
      · rw [hother i hi, Set.mem_insert_iff]
        simp [hi]
    | sub =>
      ext i
      by_cases hi : i = A.resource reply
      · simp [activeSet, hi, (h.sub hm).2]
      · rw [hother i hi, Set.mem_sdiff]
        simp [hi]
  · rename_i hk
    ext i
    by_cases hi : i = A.resource reply
    · simp only [activeSet, Set.mem_ofPred_eq, hi]
      exact ⟨fun ha => absurd ha.1.symm hk, fun ha => absurd ha.1.symm hk⟩
    · exact hother i hi

/-- Counters that were right before a step are right after it; what is taken was there. -/
theorem Moves.counted (h : A.Moves s reply s') {start : κ → Nat} (hfinite : ∀ k, (A.activeSet s k).Finite)
    (hcounter : ∀ k, A.counter s k = start k + (A.activeSet s k).ncard) :
    (∀ k, (A.activeSet s' k).Finite) ∧ (∀ k, A.counter s' k = start k + (A.activeSet s' k).ncard) ∧
      (A.move reply = .sub → 0 < A.counter s (A.kind (A.resource reply))) := by
  have hmem : A.move reply = .sub → A.resource reply ∈ A.activeSet s (A.kind (A.resource reply)) :=
    fun hm => ⟨rfl, (h.sub hm).1⟩
  have hpos : A.move reply = .sub → 0 < (A.activeSet s (A.kind (A.resource reply))).ncard := by
    intro hm
    exact (Set.ncard_pos (hfinite _)).mpr ⟨_, hmem hm⟩
  refine ⟨fun k => ?_, fun k => ?_, fun hm => ?_⟩
  · rw [h.activeSet_eq]
    split
    · split
      · exact hfinite k
      · exact (hfinite k).insert _
      · exact (hfinite k).sdiff
    · exact hfinite k
  · rw [h.counter, h.activeSet_eq]
    split
    · rename_i hk
      subst hk
      cases hm : A.move reply with
      | keep => exact hcounter _
      | add =>
        have hnot : A.resource reply ∉ A.activeSet s (A.kind (A.resource reply)) := by
          intro ha
          have hinactive := (h.add hm).1
          rw [ha.2] at hinactive
          cases hinactive
        simp only [CounterMove.apply]
        rw [hcounter, Set.ncard_insert_of_notMem hnot (hfinite _), Nat.add_assoc]
      | sub =>
        have hp := hpos hm
        simp only [CounterMove.apply, fetchSub]
        rw [hcounter, Set.ncard_sdiff_singleton_of_mem (hmem hm), if_neg (by omega)]
        omega
    · exact hcounter k
  · rw [hcounter]
    have hp := hpos hm
    omega

/-- One resource is added at most once, and taken as often as it was added, unless it is still active. -/
structure Tally (A : Accounts σ ρ ι κ) (history : List (ε × ρ)) (s : σ) (i : ι) : Prop where
  balance : A.times history .add i = A.times history .sub i + if A.active s i = true then 1 else 0
  once : A.times history .add i ≤ 1
  fresh : A.past s i = false → A.times history .add i = 0

omit [DecidableEq κ] in
theorem times_concat (history : List (ε × ρ)) (e : ε) (reply : ρ) (move : CounterMove) (i : ι) :
    A.times (history ++ [(e, reply)]) move i =
      A.times history move i + if A.resource reply = i ∧ A.move reply = move then 1 else 0 := by
  unfold times
  rw [List.countP_append, List.countP_singleton]
  simp

theorem Tally.step {history : List (ε × ρ)} {i : ι} (ht : A.Tally history s i) (h : A.Moves s reply s') (e : ε) :
    A.Tally (history ++ [(e, reply)]) s' i := by
  by_cases hi : i = A.resource reply
  · subst hi
    cases hm : A.move reply with
    | keep =>
      refine ⟨?_, ?_, fun hp => ?_⟩
      · simpa [times_concat, hm, h.keep hm] using ht.balance
      · simpa [times_concat, hm] using ht.once
      · have hold : A.past s (A.resource reply) = false := by
          by_contra hne
          rw [h.past (by simpa using hne)] at hp
          cases hp
        simpa [times_concat, hm] using ht.fresh hold
    | add =>
      obtain ⟨hinactive, hactive, hnew, hpast⟩ := h.add hm
      have hzero := ht.fresh hnew
      have hbalance := ht.balance
      rw [hinactive, hzero] at hbalance
      refine ⟨?_, ?_, fun hp => ?_⟩
      · have hnone : A.times history .sub (A.resource reply) = 0 := by simpa using hbalance.symm
        simp [times_concat, hm, hactive, hzero, hnone]
      · simp [times_concat, hm, hzero]
      · rw [hpast] at hp
        cases hp
    | sub =>
      obtain ⟨hactive, hinactive⟩ := h.sub hm
      refine ⟨?_, ?_, fun hp => ?_⟩
      · simpa [times_concat, hm, hactive, hinactive] using ht.balance
      · simpa [times_concat, hm] using ht.once
      · have hold : A.past s (A.resource reply) = false := by
          by_contra hne
          rw [h.past (by simpa using hne)] at hp
          cases hp
        simpa [times_concat, hm] using ht.fresh hold
  · have hne : A.resource reply ≠ i := fun he => hi he.symm
    obtain ⟨ha, hp⟩ := h.others i hi
    refine ⟨?_, ?_, fun hold => ?_⟩
    · simpa [times_concat, hne, ha] using ht.balance
    · simpa [times_concat, hne] using ht.once
    · rw [hp] at hold
      simpa [times_concat, hne] using ht.fresh hold

/-! ## Runs -/

omit [DecidableEq ι] [DecidableEq κ] in
theorem Fresh.activeSet_eq (h : A.Fresh s) (k : κ) : A.activeSet s k = ∅ := by
  ext i
  simp [activeSet, (h i).1]

theorem Lawful.counted (hl : A.Lawful M) (h : A.Fresh s) (es : List ε) :
    (∀ k, (A.activeSet (M.run s es) k).Finite) ∧
      ∀ k, A.counter (M.run s es) k = A.counter s k + (A.activeSet (M.run s es) k).ncard := by
  refine M.run_inv (I := fun t => (∀ k, (A.activeSet t k).Finite) ∧
    ∀ k, A.counter t k = A.counter s k + (A.activeSet t k).ncard) ⟨fun k => ?_, fun k => ?_⟩ (fun t e ht => ?_) es
  · rw [h.activeSet_eq]
    exact Set.finite_empty
  · rw [h.activeSet_eq, Set.ncard_empty, Nat.add_zero]
  · obtain ⟨hfinite, hcounter, -⟩ := (hl t e).counted ht.1 ht.2
    exact ⟨hfinite, hcounter⟩

/-- Nothing is taken from a counter that stands at zero. -/
theorem Lawful.taken (hl : A.Lawful M) (h : A.Fresh s) {before : List ε} {e : ε}
    (hm : A.move (M.step (M.run s before) e).1 = .sub) :
    0 < A.counter (M.run s before) (A.kind (A.resource (M.step (M.run s before) e).1)) := by
  obtain ⟨hfinite, hcounter⟩ := hl.counted h before
  exact ((hl _ e).counted hfinite hcounter).2.2 hm

theorem Lawful.tally (hl : A.Lawful M) (h : A.Fresh s) (es : List ε) (i : ι) :
    A.Tally (M.trace s es) (M.run s es) i := by
  refine M.trace_inv (I := fun history t => A.Tally history t i) ?_ (fun history t e ht => ht.step (hl t e) e) es
  exact ⟨by simp [times, (h i).1], by simp [times], fun _ => rfl⟩

end

end Accounts

end Parquex
