import Mathlib

/-! # Transition systems

A transition system is a set of initial states with a partial step function: `step s a` is the state
that action `a` leads to, or `none` where `a` cannot happen in `s`. Choices that an execution makes
are part of the action. `restrict` keeps the steps that meet a condition, so that a property of the
restricted system is one of all executions whose steps meet it.

* `Reachable.invariant`: what holds initially and is preserved by the steps holds of every
  reachable state.
* `run_invariant`, `Reachable.of_run`: the same for the state that a list of actions leads to.
-/

namespace Infinity.Foundations

/-- A transition system over states `σ` and actions `α`. -/
structure TransitionSystem (σ α : Type*) where
  Initial : σ → Prop
  step : σ → α → Option σ

namespace TransitionSystem

variable {σ α : Type*} (sys : TransitionSystem σ α)

/-- The states that runs lead to. -/
inductive Reachable : σ → Prop where
  | initial {s : σ} : sys.Initial s → Reachable s
  | step {s s' : σ} (a : α) : Reachable s → sys.step s a = some s' → Reachable s'

/-- The system with those steps only that meet a condition on state and action. -/
def restrict (ok : σ → α → Prop) [∀ s a, Decidable (ok s a)] : TransitionSystem σ α where
  Initial := sys.Initial
  step s a := if ok s a then sys.step s a else none

def run (s : σ) : List α → Option σ
  | [] => some s
  | a :: as => (sys.step s a).bind fun s' => run s' as

variable {sys}

/-- **Invariants hold of every reachable state.** -/
theorem Reachable.invariant {inv : σ → Prop} (hinit : ∀ s, sys.Initial s → inv s)
    (hstep : ∀ s a s', inv s → sys.step s a = some s' → inv s') {s : σ} (h : sys.Reachable s) :
    inv s := by
  induction h with
  | initial hs => exact hinit _ hs
  | step a _ hs ih => exact hstep _ a _ ih hs

/-- What the steps preserve holds after a run. -/
theorem run_invariant {P : σ → Prop} (hstep : ∀ s a s', P s → sys.step s a = some s' → P s')
    {s' : σ} : ∀ (as : List α) {s : σ}, P s → sys.run s as = some s' → P s'
  | [], s, hs, h => by
    cases h
    exact hs
  | a :: as, s, hs, h => by
    obtain ⟨t, ht, hrest⟩ := Option.bind_eq_some_iff.mp h
    exact run_invariant hstep as (hstep s a t hs ht) hrest

theorem Reachable.of_run {s s' : σ} (as : List α) (hs : sys.Reachable s)
    (h : sys.run s as = some s') : sys.Reachable s' :=
  run_invariant (fun _ a _ hs hstep => hs.step a hstep) as hs h

section Restrict

variable {ok : σ → α → Prop} [∀ s a, Decidable (ok s a)]

theorem restrict_step_eq_some {s s' : σ} {a : α} :
    (sys.restrict ok).step s a = some s' ↔ ok s a ∧ sys.step s a = some s' := by
  change (if ok s a then sys.step s a else none) = some s' ↔ _
  split
  next h => exact ⟨fun hs => ⟨h, hs⟩, And.right⟩
  next h => exact ⟨nofun, fun hs => absurd hs.1 h⟩

end Restrict

end TransitionSystem

end Infinity.Foundations
