import Mathlib.Data.List.TakeDrop

/-!
# Reading ahead

A consumer that keeps a queue of some depth full is handed an item only when the
items that fill the queue behind it are there. A failure ahead then comes before
the items that are still queued.
-/

namespace Parquex

section
variable {ε β : Type} {depth : Nat} {items : List β} {failure : Option ε}

/-- The items before the first failure, and that failure. -/
def untilFailure : List (Except ε (Option β)) → List β × Option ε
  | [] => ([], none)
  | .error failure :: _ => ([], some failure)
  | .ok none :: results => untilFailure results
  | .ok (some item) :: results => (item :: (untilFailure results).1, (untilFailure results).2)

/-- The items handed out before the end or the failure. -/
def handed (depth : Nat) (items : List β) (failure : Option ε) : List β :=
  match failure with
  | none => items
  | some _ => items.take (items.length - (depth - 1))

theorem handed_cons (item : β) (h : failure = none ∨ depth - 1 ≤ items.length) :
    handed depth (item :: items) failure = item :: handed depth items failure := by
  cases failure with
  | none => rfl
  | some failure =>
    have hle : depth - 1 ≤ items.length := h.resolve_left (by simp)
    simp only [handed, List.length_cons]
    rw [Nat.succ_sub hle, List.take_succ_cons]

theorem handed_short (hitems : items.length ≤ depth - 1) (hfailure : failure ≠ none) :
    handed depth items failure = [] := by
  cases failure with
  | none => exact absurd rfl hfailure
  | some failure => simp [handed, Nat.sub_eq_zero_of_le hitems]

/-- Reading further ahead hands out the same items only without a failure or without items. -/
theorem handed_eq_iff (hdepth : 1 ≤ depth) :
    handed depth items failure = handed 1 items failure ↔ depth = 1 ∨ failure = none ∨ items = [] := by
  cases failure with
  | none => simp [handed]
  | some failure =>
    simp only [handed, Nat.sub_self, Nat.sub_zero, List.take_length, List.take_eq_self_iff, reduceCtorEq, false_or]
    constructor
    · intro h
      cases items with
      | nil => exact .inr rfl
      | cons item items =>
        rw [List.length_cons] at h
        exact .inl (by omega)
    · rintro (rfl | rfl)
      · simp
      · simp

end

end Parquex
