import Mathlib.Data.List.Induction

/-!
# State machines

A machine answers each event with a reply and a next state. What holds of the
first state and is kept by every step holds after every run, also when it speaks
about the events and replies so far.
-/

namespace Parquex

structure Machine (σ ε ρ : Type*) where
  step : σ → ε → ρ × σ

namespace Machine

section
variable {σ ε ρ : Type*} (M : Machine σ ε ρ)

def run (s : σ) : List ε → σ
  | [] => s
  | e :: es => run (M.step s e).2 es

/-- The events of a run with their replies. -/
def trace (s : σ) : List ε → List (ε × ρ)
  | [] => []
  | e :: es => (e, (M.step s e).1) :: trace (M.step s e).2 es

def replies (s : σ) (es : List ε) : List ρ := (M.trace s es).map Prod.snd

theorem map_fst_trace (s : σ) (es : List ε) : (M.trace s es).map Prod.fst = es := by
  induction es generalizing s with
  | nil => rfl
  | cons e es ih => rw [trace, List.map_cons, ih]

theorem replies_cons (s : σ) (e : ε) (es : List ε) :
    M.replies s (e :: es) = (M.step s e).1 :: M.replies (M.step s e).2 es := rfl

theorem run_append (s : σ) (es fs : List ε) : M.run s (es ++ fs) = M.run (M.run s es) fs := by
  induction es generalizing s with
  | nil => rfl
  | cons e es ih => exact ih _

theorem trace_append (s : σ) (es fs : List ε) :
    M.trace s (es ++ fs) = M.trace s es ++ M.trace (M.run s es) fs := by
  induction es generalizing s with
  | nil => rfl
  | cons e es ih =>
    simp only [List.cons_append, trace, run, ih]

/-- An invariant of the history and the state holds after every run of events that keep it. -/
theorem trace_inv_of {s : σ} {I : List (ε × ρ) → σ → Prop} {P : ε → Prop} (h0 : I [] s)
    (hstep : ∀ history s e, P e → I history s → I (history ++ [(e, (M.step s e).1)]) (M.step s e).2)
    {es : List ε} (hes : ∀ e ∈ es, P e) : I (M.trace s es) (M.run s es) := by
  induction es using List.reverseRecOn with
  | nil => exact h0
  | append_singleton es e ih =>
    rw [trace_append, run_append]
    exact hstep _ _ e (hes e (by simp)) (ih fun e he => hes e (by simp [he]))

theorem trace_inv {s : σ} {I : List (ε × ρ) → σ → Prop} (h0 : I [] s)
    (hstep : ∀ history s e, I history s → I (history ++ [(e, (M.step s e).1)]) (M.step s e).2) (es : List ε) :
    I (M.trace s es) (M.run s es) :=
  M.trace_inv_of (P := fun _ => True) h0 (fun history s e _ h => hstep history s e h) fun _ _ => trivial

theorem run_inv {s : σ} {I : σ → Prop} (h0 : I s) (hstep : ∀ s e, I s → I (M.step s e).2) (es : List ε) :
    I (M.run s es) :=
  M.trace_inv (I := fun _ s => I s) h0 (fun _ s e h => hstep s e h) es

/-- What an invariant says of every reply holds all along a run. -/
theorem forall_trace {s : σ} {I : σ → Prop} {Q : ε → ρ → Prop} (h0 : I s) (hstep : ∀ s e, I s → I (M.step s e).2)
    (hreply : ∀ s e, I s → Q e (M.step s e).1) (es : List ε) : ∀ entry ∈ M.trace s es, Q entry.1 entry.2 := by
  induction es generalizing s with
  | nil => intro entry he; cases he
  | cons e es ih =>
    intro entry he
    rcases List.mem_cons.mp he with rfl | he
    · exact hreply s e h0
    · exact ih (hstep s e h0) entry he

/-- An event that leaves its state alone can be left out of a run. -/
theorem run_skip {s : σ} {es : List ε} {e : ε} (h : (M.step (M.run s es) e).2 = M.run s es) (fs : List ε) :
    M.run s (es ++ e :: fs) = M.run s (es ++ fs) := by
  rw [run_append, run_append]
  change M.run (M.step (M.run s es) e).2 fs = _
  rw [h]

/-! ## Conditions on the steps of a run -/

/-- A condition on each event of a run, and on what led to it. -/
def Along (C : List (ε × ρ) → σ → ε → Prop) (s : σ) (es : List ε) : Prop :=
  ∀ before e after, es = before ++ e :: after → C (M.trace s before) (M.run s before) e

section
variable {M} {s : σ} {es : List ε} {C Q : List (ε × ρ) → σ → ε → Prop} {I : List (ε × ρ) → σ → Prop}

theorem Along.left {fs : List ε} (h : M.Along C s (es ++ fs)) : M.Along C s es := by
  intro before e after he
  exact h before e (after ++ fs) (by rw [he, List.append_assoc, List.cons_append])

theorem along_concat {e : ε} : M.Along C s (es ++ [e]) ↔ M.Along C s es ∧ C (M.trace s es) (M.run s es) e := by
  refine ⟨fun h => ⟨h.left, h es e [] rfl⟩, fun ⟨h, he⟩ before e' after hsplit => ?_⟩
  rcases List.eq_nil_or_concat after with rfl | ⟨after, last, rfl⟩
  · obtain ⟨rfl, hlast⟩ := List.append_inj' hsplit rfl
    cases hlast
    exact he
  · rw [List.concat_eq_append, ← List.cons_append, ← List.append_assoc] at hsplit
    obtain ⟨rfl, -⟩ := List.append_inj' hsplit rfl
    exact h before e' after rfl

/-- What the steps that meet a condition keep holds after a run of such steps. -/
theorem Along.inv (hes : M.Along C s es) (h0 : I [] s)
    (hstep : ∀ history s e, C history s e → I history s → I (history ++ [(e, (M.step s e).1)]) (M.step s e).2) :
    I (M.trace s es) (M.run s es) := by
  induction es using List.reverseRecOn with
  | nil => exact h0
  | append_singleton es e ih =>
    rw [trace_append, run_append]
    exact hstep _ _ e (hes es e [] rfl) (ih hes.left)

/-- What an invariant says of every step that meets a condition holds of every step of a run of such steps. -/
theorem Along.imp_inv (hes : M.Along C s es) (h0 : I [] s)
    (hstep : ∀ history s e, C history s e → I history s → I (history ++ [(e, (M.step s e).1)]) (M.step s e).2)
    (hq : ∀ history s e, C history s e → I history s → Q history s e) : M.Along Q s es := by
  intro before e after he
  subst he
  exact hq _ _ e (hes before e after rfl) (Along.inv hes.left h0 hstep)

end

end

end Machine

end Parquex
