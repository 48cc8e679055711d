import Parquex.Machine

/-!
# Specifications

A specification says which replies to an event a state allows, and what the event
and its reply make of the state. A machine that follows it in every step follows
it in every run; where only one reply is allowed, all such machines reply alike.
-/

namespace Parquex

structure Specification (τ ε ρ : Type*) where
  Allows : τ → ε → ρ → Prop
  next : τ → ε → ρ → τ

namespace Specification

variable {τ ε ρ : Type*} (S : Specification τ ε ρ)

def after (t : τ) (history : List (ε × ρ)) : τ := history.foldl (fun t entry => S.next t entry.1 entry.2) t

theorem after_concat (t : τ) (history : List (ε × ρ)) (e : ε) (r : ρ) :
    S.after t (history ++ [(e, r)]) = S.next (S.after t history) e r := by
  simp [after]

end Specification

namespace Machine

variable {σ σ' τ ε ρ : Type*}

/-- Each event of a kind is answered as the specification allows it, and the states stay related. -/
structure Follows (M : Machine σ ε ρ) (S : Specification τ ε ρ) (R : σ → τ → Prop) (P : ε → Prop) : Prop where
  allowed : ∀ s t e, R s t → P e → S.Allows t e (M.step s e).1
  related : ∀ s t e, R s t → P e → R (M.step s e).2 (S.next t e (M.step s e).1)

section
variable {M : Machine σ ε ρ} {M' : Machine σ' ε ρ} {S : Specification τ ε ρ} {R : σ → τ → Prop} {R' : σ' → τ → Prop}
  {P : ε → Prop} {s : σ} {s' : σ'} {t : τ} {es : List ε}

theorem Follows.run (h : M.Follows S R P) (hs : R s t) (hes : ∀ e ∈ es, P e) :
    R (M.run s es) (S.after t (M.trace s es)) := by
  refine M.trace_inv_of (I := fun history s => R s (S.after t history)) hs ?_ hes
  intro history s e he hr
  rw [S.after_concat]
  exact h.related s _ e hr he

theorem Follows.mono {Q : ε → Prop} (h : M.Follows S R P) (hq : ∀ e, Q e → P e) : M.Follows S R Q :=
  ⟨fun s t e hr he => h.allowed s t e hr (hq e he), fun s t e hr he => h.related s t e hr (hq e he)⟩

end

end Machine

end Parquex
