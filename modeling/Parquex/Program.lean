import Parquex.Specification

/-!
# Programs over a machine

A program makes calls, each of them chosen by the replies to those before it, and
comes to a result. Run over a machine that follows a specification, it comes to a
result that the specification allows.
-/

namespace Parquex

inductive Program (ε ρ α : Type)
  | done (result : α)
  | call (event : ε) (next : ρ → Program ε ρ α)

namespace Program

section
variable {σ τ ε ρ α : Type} (M : Machine σ ε ρ) (S : Specification τ ε ρ)

def run (s : σ) : Program ε ρ α → α
  | .done result => result
  | .call event next => (next (M.step s event).1).run (M.step s event).2

/-- A result that the program comes to when every reply is allowed. -/
inductive Yields : τ → Program ε ρ α → α → Prop
  | done (t : τ) (result : α) : Yields t (.done result) result
  | call {t : τ} {event : ε} {next : ρ → Program ε ρ α} {reply : ρ} {result : α} :
    S.Allows t event reply → Yields (S.next t event reply) (next reply) result → Yields t (.call event next) result

end

section
variable {σ τ ε ρ α : Type} {M : Machine σ ε ρ} {S : Specification τ ε ρ} {R : σ → τ → Prop} {t : τ}

theorem run_yields (h : M.Follows S R fun _ => True) (program : Program ε ρ α) {s : σ} (hs : R s t) :
    Yields S t program (program.run M s) := by
  induction program generalizing s t with
  | done result => exact .done t result
  | call event next ih =>
    exact .call (h.allowed s t event hs trivial) (ih _ (h.related s t event hs trivial))

end

end Program

end Parquex
