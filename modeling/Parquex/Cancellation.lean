import Parquex.Machine
import Parquex.NativeFailure
import Mathlib.Logic.Function.Basic

/-!
# Cancellation tokens

Calls that cancel a token and calls that wait for that, each cut at its atomic steps.
A notification reaches the futures that exist when it is given and leaves nothing
behind, so a future created after it waits for the next one.
-/

namespace Parquex

/-! ## The state -/

/-- How far a call of `cancel` is. -/
inductive CancelPhase
  | idle | stored | completed
  deriving DecidableEq, Repr

/-- How far a call of `cancelled` is; a future that exists may hold a notification. -/
inductive WaitPhase
  | idle | loaded
  | created (notified : Bool)
  | waiting (notified : Bool)
  | returned | dropped
  deriving DecidableEq, Repr

structure CancellationToken where
  cancelled : Bool
  cancels : Nat → CancelPhase
  waiters : Nat → WaitPhase

/-- One atomic step of a call. -/
inductive TokenEvent
  | store (call : Nat)
  | notifyWaiters (call : Nat)
  | load (call : Nat)
  | notified (call : Nat)
  /-- The future is polled for the first time. -/
  | wait (call : Nat)
  | wake (call : Nat)
  /-- Another branch has won, and the call is given up between two polls. -/
  | drop (call : Nat)
  deriving DecidableEq, Repr

/-! ## The steps -/

def WaitPhase.notify : WaitPhase → WaitPhase
  | .created _ => .created true
  | .waiting _ => .waiting true
  | phase => phase

def WaitPhase.poll : WaitPhase → WaitPhase
  | .created true => .returned
  | .created false => .waiting false
  | phase => phase

def WaitPhase.wake : WaitPhase → WaitPhase
  | .waiting true => .returned
  | phase => phase

def WaitPhase.drop : WaitPhase → WaitPhase
  | .waiting _ => .dropped
  | phase => phase

namespace CancellationToken

def default : CancellationToken where
  cancelled := false
  cancels _ := .idle
  waiters _ := .idle

variable (s : CancellationToken)

def check (operation : Operation) : Except NativeFailure Unit :=
  if s.cancelled then .error (.cancelled operation) else .ok ()

def setWaiter (call : Nat) (phase : WaitPhase) : CancellationToken :=
  { s with waiters := Function.update s.waiters call phase }

/-- A step that is not the next of its call does nothing. -/
def step : TokenEvent → CancellationToken
  | .store call =>
    if s.cancels call = .idle then
      { s with cancelled := true, cancels := Function.update s.cancels call .stored }
    else s
  | .notifyWaiters call =>
    if s.cancels call = .stored then
      { s with waiters := fun waiter => (s.waiters waiter).notify,
               cancels := Function.update s.cancels call .completed }
    else s
  | .load call =>
    if s.waiters call = .idle then s.setWaiter call (if s.cancelled then .returned else .loaded) else s
  | .notified call => if s.waiters call = .loaded then s.setWaiter call (.created false) else s
  | .wait call => s.setWaiter call (s.waiters call).poll
  | .wake call => s.setWaiter call (s.waiters call).wake
  | .drop call => s.setWaiter call (s.waiters call).drop

def machine : Machine CancellationToken TokenEvent Unit where
  step s e := ((), s.step e)

/-- No call waits without a notification once a call of `cancel` has completed. -/
def NoLostWakeup : Prop :=
  ∀ cancel waiter, s.cancels cancel = .completed → s.waiters waiter ≠ .waiting false

/-- A call that found the flag unset creates its future before any call of `cancel` has completed. -/
def InTime (event : TokenEvent) : Prop :=
  ∀ call, event = .notified call → s.waiters call = .loaded → ∀ cancel, s.cancels cancel ≠ .completed

/-- Nor does a future that is still to be polled lack one. -/
def Notified : Prop :=
  ∀ cancel waiter, s.cancels cancel = .completed →
    s.waiters waiter ≠ .waiting false ∧ s.waiters waiter ≠ .created false

end CancellationToken

/-! ## Steps -/

namespace WaitPhase

theorem notify_ne (phase : WaitPhase) : phase.notify ≠ .waiting false ∧ phase.notify ≠ .created false := by
  cases phase <;> simp [notify]

section
variable {phase : WaitPhase} (h : phase ≠ .waiting false ∧ phase ≠ .created false)
include h

/-- Only a future without a notification starts to wait. -/
theorem poll_ne : phase.poll ≠ .waiting false ∧ phase.poll ≠ .created false := by
  cases phase with
  | created notified => cases notified <;> simp_all [poll]
  | _ => simp_all [poll]

theorem wake_ne : phase.wake ≠ .waiting false ∧ phase.wake ≠ .created false := by
  cases phase with
  | waiting notified => cases notified <;> simp_all [wake]
  | _ => simp_all [wake]

theorem drop_ne : phase.drop ≠ .waiting false ∧ phase.drop ≠ .created false := by
  cases phase <;> simp_all [drop]

end

end WaitPhase

namespace CancellationToken

variable {s : CancellationToken}

theorem Notified.noLostWakeup (h : s.Notified) : s.NoLostWakeup := fun cancel waiter hc => (h cancel waiter hc).1

theorem notified_default : default.Notified := by
  intro cancel waiter hc
  cases hc

/-- A step of one waiting call keeps the others as they are. -/
theorem Notified.setWaiter (h : s.Notified) {call : Nat} {phase : WaitPhase}
    (hphase : ∀ cancel, s.cancels cancel = .completed → phase ≠ .waiting false ∧ phase ≠ .created false) :
    (s.setWaiter call phase).Notified := by
  intro cancel waiter hc
  unfold CancellationToken.setWaiter at hc ⊢
  by_cases hw : waiter = call
  · subst hw
    simp only [Function.update_self]
    exact hphase cancel hc
  · simp only [Function.update_of_ne hw]
    exact h cancel waiter hc

theorem Notified.step (h : s.Notified) {event : TokenEvent} (htime : s.InTime event) : (s.step event).Notified := by
  cases event with
  | store call =>
    simp only [CancellationToken.step]
    split
    · intro cancel waiter hc
      by_cases hcall : cancel = call
      · subst hcall
        simp at hc
      · simp only [Function.update_of_ne hcall] at hc
        exact h cancel waiter hc
    · exact h
  | notifyWaiters call =>
    simp only [CancellationToken.step]
    split
    · exact fun _ waiter _ => (s.waiters waiter).notify_ne
    · exact h
  | load call =>
    simp only [CancellationToken.step]
    split
    · refine h.setWaiter fun _ _ => ?_
      split <;> simp
    · exact h
  | notified call =>
    simp only [CancellationToken.step]
    split
    · next hloaded => exact h.setWaiter fun cancel hc => absurd hc (htime call rfl hloaded cancel)
    · exact h
  | wait call => exact h.setWaiter fun cancel hc => WaitPhase.poll_ne (h cancel call hc)
  | wake call => exact h.setWaiter fun cancel hc => WaitPhase.wake_ne (h cancel call hc)
  | drop call => exact h.setWaiter fun cancel hc => WaitPhase.drop_ne (h cancel call hc)

/-! ## The flag -/

/-- Every call of `cancel` that has begun has set the flag. -/
def Flagged (s : CancellationToken) : Prop := ∀ cancel, s.cancels cancel ≠ .idle → s.cancelled = true

theorem Flagged.step (h : s.Flagged) (event : TokenEvent) : (s.step event).Flagged := by
  cases event with
  | store call =>
    simp only [CancellationToken.step]
    split
    · exact fun _ _ => rfl
    · exact h
  | notifyWaiters call =>
    simp only [CancellationToken.step]
    split
    · next hstored => exact fun _ _ => h call (by rw [hstored]; decide)
    · exact h
  | load call =>
    simp only [CancellationToken.step]
    split <;> exact h
  | notified call =>
    simp only [CancellationToken.step]
    split <;> exact h
  | wait call => exact h
  | wake call => exact h
  | drop call => exact h

theorem flagged_run (events : List TokenEvent) : (machine.run default events).Flagged :=
  machine.run_inv (I := Flagged) (fun _ hc => absurd rfl hc) (fun _ event h => h.step event) events

/-- Once a call of `cancel` has begun, every check fails and a call that starts to wait returns at once. -/
theorem observed_of_cancelled {events : List TokenEvent} {cancel : Nat}
    (h : (machine.run default events).cancels cancel ≠ .idle) :
    (∀ operation, (machine.run default events).check operation = .error (.cancelled operation)) ∧
      ∀ call, (machine.run default events).waiters call = .idle →
        ((machine.run default events).step (.load call)).waiters call = .returned := by
  have hflag := flagged_run events cancel h
  constructor
  · intro operation
    unfold check
    rw [if_pos hflag]
  · intro call hidle
    simp only [CancellationToken.step]
    rw [if_pos hidle, if_pos hflag]
    exact Function.update_self ..

/-! ## Runs -/

/-- A future created too late waits although a call of `cancel` has completed. -/
theorem lost_of_late {event : TokenEvent} (hlate : ¬ s.InTime event) :
    ∃ call, ¬ ((s.step event).step (.wait call)).NoLostWakeup := by
  unfold InTime at hlate
  push Not at hlate
  obtain ⟨call, rfl, hloaded, cancel, hc⟩ := hlate
  refine ⟨call, fun hsafe => hsafe cancel call ?_ ?_⟩
  · simpa [CancellationToken.step, hloaded, CancellationToken.setWaiter] using hc
  · simp [CancellationToken.step, hloaded, CancellationToken.setWaiter, WaitPhase.poll]

/-- No wake-up is lost all along a run whose futures are created in time, and any other run has a part after which
the next step loses one. -/
theorem no_lost_wakeup (events : List TokenEvent) :
    (machine.Along (fun _ s event => s.InTime event) default events →
      ∀ before after, events = before ++ after → (machine.run default before).NoLostWakeup) ∧
    (¬ machine.Along (fun _ s event => s.InTime event) default events →
      ∃ before after call, events = before ++ after ∧
        ¬ (machine.run default (before ++ [.wait call])).NoLostWakeup) := by
  constructor
  · intro htimes before after hsplit
    subst hsplit
    have hkept : (machine.run default before).Notified :=
      Machine.Along.inv (I := fun _ s => s.Notified) htimes.left notified_default
        fun _ s event htime hs => hs.step htime
    exact hkept.noLostWakeup
  · intro hlate
    unfold Machine.Along at hlate
    push Not at hlate
    obtain ⟨before, event, after, hsplit, hevent⟩ := hlate
    obtain ⟨call, hlost⟩ := lost_of_late hevent
    refine ⟨before ++ [event], after, call, by rw [hsplit]; simp, ?_⟩
    rw [Machine.run_append, Machine.run_append]
    exact hlost

/-- The flag is read, the token is cancelled to the end, and only then is the future created. -/
theorem wakeup_lost :
    ¬ ∀ events, (machine.run default events).NoLostWakeup := by
  intro hall
  have hsafe := hall [.load 0, .store 0, .notifyWaiters 0, .notified 0, .wait 0]
  exact hsafe 0 0 (by decide) (by decide)

end CancellationToken

end Parquex
