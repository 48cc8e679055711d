import Mathlib.Init

/-!
# Fallible computations with a state

A computation that may fail keeps what it did to the state also when it fails. A
success is inverted step by step; what every step preserves, also when it fails,
the whole preserves.
-/

namespace Parquex

def Effect (σ ε α : Type) := σ → Except ε α × σ

namespace Effect

variable {σ ε α β : Type}

protected def pure (a : α) : Effect σ ε α := fun s => (.ok a, s)

protected def bind (x : Effect σ ε α) (f : α → Effect σ ε β) : Effect σ ε β := fun s =>
  match x s with
  | (.ok a, s) => f a s
  | (.error e, s) => (.error e, s)

instance : Monad (Effect σ ε) where
  pure := Effect.pure
  bind := Effect.bind

def fail (e : ε) : Effect σ ε α := fun s => (.error e, s)

/-- A computation that leaves the state alone. -/
def ofExcept (x : Except ε α) : Effect σ ε α := fun s => (x, s)

/-! ## Inversion -/

theorem bind_eq_ok {x : Effect σ ε α} {f : α → Effect σ ε β} {s s' : σ} {b : β} :
    (x >>= f) s = (.ok b, s') ↔ ∃ a s₁, x s = (.ok a, s₁) ∧ f a s₁ = (.ok b, s') := by
  change Effect.bind x f s = _ ↔ _
  unfold Effect.bind
  cases hx : x s with
  | mk result s₁ =>
    cases result with
    | error e => simp
    | ok a => exact ⟨fun h => ⟨a, s₁, rfl, h⟩, fun ⟨_, _, ha, h⟩ => by cases ha; exact h⟩

theorem bind_eq_error {x : Effect σ ε α} {f : α → Effect σ ε β} {s s' : σ} {e : ε} :
    (x >>= f) s = (.error e, s') ↔
      x s = (.error e, s') ∨ ∃ a s₁, x s = (.ok a, s₁) ∧ f a s₁ = (.error e, s') := by
  change Effect.bind x f s = _ ↔ _
  unfold Effect.bind
  cases hx : x s with
  | mk result s₁ =>
    cases result with
    | error e' => simp
    | ok a =>
      refine ⟨fun h => Or.inr ⟨a, s₁, rfl, h⟩, fun h => ?_⟩
      rcases h with h | ⟨_, _, ha, h⟩
      · cases h
      · cases ha
        exact h

theorem bind_ok {x : Effect σ ε α} {f : α → Effect σ ε β} {s s' : σ} {a : α} (h : x s = (.ok a, s')) :
    (x >>= f) s = f a s' := by
  change Effect.bind x f s = _
  unfold Effect.bind
  rw [h]

theorem bind_error {x : Effect σ ε α} {f : α → Effect σ ε β} {s s' : σ} {e : ε} (h : x s = (.error e, s')) :
    (x >>= f) s = (.error e, s') := bind_eq_error.mpr (Or.inl h)

theorem pure_eq_ok {a b : α} {s s' : σ} : (pure a : Effect σ ε α) s = (.ok b, s') ↔ a = b ∧ s = s' := by
  change (Except.ok a, s) = _ ↔ _
  simp

theorem bind_pure_snd {x : Effect σ ε α} {f : α → β} {s : σ} : ((x >>= fun a => pure (f a)) s).2 = (x s).2 := by
  change (Effect.bind x _ s).2 = _
  unfold Effect.bind
  cases x s with
  | mk result s' => cases result <;> rfl

theorem ofExcept_eq_ok {x : Except ε α} {s s' : σ} {a : α} : ofExcept x s = (.ok a, s') ↔ x = .ok a ∧ s = s' := by
  change (x, s) = _ ↔ _
  simp

/-! ## What a computation preserves -/

/-- Whatever comes of it, the state after it satisfies what the state before did. -/
def Preserves (I : σ → Prop) (x : Effect σ ε α) : Prop := ∀ s, I s → I (x s).2

section
variable {I : σ → Prop} {x : Effect σ ε α}

theorem preserves_pure {a : α} : Preserves I (pure a : Effect σ ε α) := fun _ hs => hs

theorem preserves_fail {e : ε} : Preserves I (fail e : Effect σ ε α) := fun _ hs => hs

theorem preserves_ofExcept {y : Except ε α} : Preserves I (ofExcept y) := fun _ hs => hs

/-- What holds after the first of two computations and is kept by the second holds after both. -/
theorem Preserves.after {f : α → Effect σ ε β} (hf : ∀ a, Preserves I (f a)) {s : σ} (h : I (x s).2) :
    I ((x >>= f) s).2 := by
  change I (Effect.bind x f s).2
  unfold Effect.bind
  cases hr : x s with
  | mk result s' =>
    rw [hr] at h
    cases result with
    | ok a => exact hf a s' h
    | error e => exact h

/-- What holds when the first of two computations ends, and when the second ends after its success. -/
theorem holds_bind {P : σ → Prop} {f : α → Effect σ ε β} {s : σ} (hx : P (x s).2)
    (hf : ∀ a s', x s = (.ok a, s') → P (f a s').2) : P ((x >>= f) s).2 := by
  change P (Effect.bind x f s).2
  unfold Effect.bind
  cases hr : x s with
  | mk result s' =>
    rw [hr] at hx
    cases result with
    | ok a => exact hf a s' hr
    | error e => exact hx

theorem Preserves.bind {f : α → Effect σ ε β} (hx : Preserves I x) (hf : ∀ a, Preserves I (f a)) :
    Preserves I (x >>= f) := fun s hs => Preserves.after hf (hx s hs)

theorem preserves_foldlM {f : β → α → Effect σ ε β} (hf : ∀ b a, Preserves I (f b a)) :
    ∀ (items : List α) (b : β), Preserves I (items.foldlM f b)
  | [], _ => preserves_pure
  | item :: items, b => by
    rw [List.foldlM_cons]
    exact (hf b item).bind fun b' => preserves_foldlM hf items b'

end

end Effect

end Parquex
