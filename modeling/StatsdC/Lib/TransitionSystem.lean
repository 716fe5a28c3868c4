import Mathlib.Init

/-!
# Labelled transition systems and their runs

A `TransitionSystem σ ι` has initial states and steps labelled by actions.  A run is the list of
the actions taken from an initial state, oldest first, so that a statement about a run can speak
of everything that happened in it.  A state is reachable if there is a run to it.

The rules here are the ones every state machine needs.

* An invariant is proved once for the initial states and once for a step (`Run.invariant`,
  `Reachable.invariant`).  The invariant of a run may mention the list of the actions, and the one
  of a reachable state may not.
* A property of the runs all of whose steps meet a side condition is an invariant of the
  restricted system (`restrict`, `Run.of_restrict`).
* A step that is a function with a guard is a relation by `guarded`, and `guarded_eq_some` gives
  the guard back.

Concurrency is a matter of how large the steps are made.  Threads are modelled by a system in
which each step is a step of one of them, so that the runs are their interleavings; how much of a
program one step covers is said where the system is defined.
-/

/-- Initial states, and steps labelled by the action taken.  A step is a relation, so that it may
fail or have several outcomes. -/
structure TransitionSystem (σ ι : Type*) where
  init : σ → Prop
  step : σ → ι → σ → Prop

namespace TransitionSystem
variable {σ ι : Type*} (S : TransitionSystem σ ι)

/-- `Run as s`: the actions `as`, taken in order from an initial state, lead to
`s`. -/
inductive Run : List ι → σ → Prop
  | start {s : σ} : S.init s → Run [] s
  | next {as : List ι} {s s' : σ} {a : ι} : Run as s → S.step s a s' → Run (as ++ [a]) s'

/-- `s` is the state after some run. -/
def Reachable (s : σ) : Prop := ∃ as, S.Run as s

/-- The system whose steps are those of `S` that meet the condition `C`, a
condition on the state before the step and the action taken. -/
def restrict (C : σ → ι → Prop) : TransitionSystem σ ι where
  init := S.init
  step s a s' := S.step s a s' ∧ C s a

variable {S}

theorem Reachable.start {s : σ} (h : S.init s) : S.Reachable s := ⟨[], .start h⟩

theorem Reachable.next {s s' : σ} {a : ι} (h : S.Reachable s) (hs : S.step s a s') :
    S.Reachable s' := by
  obtain ⟨as, hr⟩ := h
  exact ⟨as ++ [a], hr.next hs⟩

/-- **The invariant rule**: what holds initially and is kept by every step holds
after every run. -/
theorem Run.invariant {I : List ι → σ → Prop} (hinit : ∀ s, S.init s → I [] s)
    (hstep : ∀ as s a s', I as s → S.step s a s' → I (as ++ [a]) s')
    {as : List ι} {s : σ} (h : S.Run as s) : I as s := by
  induction h with
  | start hs => exact hinit _ hs
  | next _ hs ih => exact hstep _ _ _ _ ih hs

/-- The invariant rule for a property of states alone: it holds initially, and every step keeps it.
-/
theorem Reachable.invariant {I : σ → Prop} (hinit : ∀ s, S.init s → I s)
    (hstep : ∀ s a s', I s → S.step s a s' → I s') {s : σ} (h : S.Reachable s) : I s := by
  obtain ⟨as, hr⟩ := h
  exact hr.invariant (I := fun _ s => I s) hinit (fun _ s a s' hi hs => hstep s a s' hi hs)

/-- Where steps are computed by `f`, so are runs. -/
theorem Reachable.foldlM {f : σ → ι → Option σ} (hf : ∀ s a s', f s a = some s' → S.step s a s')
    {s s' : σ} (h : S.Reachable s) {as : List ι} (has : as.foldlM f s = some s') :
    S.Reachable s' := by
  induction as generalizing s with
  | nil =>
    obtain rfl := Option.some.inj has
    exact h
  | cons a as ih =>
    rw [List.foldlM_cons, Option.bind_eq_bind, Option.bind_eq_some_iff] at has
    obtain ⟨t, ht, has⟩ := has
    exact ih (h.next (hf s a t ht)) has

/-- A run of the restricted system is a run of the system, which is how a condition on steps is
dropped. -/
theorem Run.of_restrict {C : σ → ι → Prop} {as : List ι} {s : σ}
    (h : (S.restrict C).Run as s) : S.Run as s := by
  induction h with
  | start hs => exact .start hs
  | next _ hs ih => exact ih.next hs.1

/-- The steps that `f` computes, where they meet `C`. -/
def guarded (f : σ → ι → Option σ) (C : σ → ι → Prop) [∀ s a, Decidable (C s a)] (s : σ) (a : ι) :
    Option σ := if C s a then f s a else none

theorem guarded_eq_some {f : σ → ι → Option σ} {C : σ → ι → Prop} [∀ s a, Decidable (C s a)]
    {s s' : σ} {a : ι} (h : guarded f C s a = some s') : f s a = some s' ∧ C s a := by
  unfold guarded at h
  split at h
  · exact ⟨h, ‹_›⟩
  · cases h

end TransitionSystem
