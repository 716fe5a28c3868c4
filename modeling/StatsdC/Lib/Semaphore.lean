import Mathlib.Algebra.BigOperators.Group.Finset.Piecewise
import Mathlib.Data.Fintype.Basic

/-!
# Threads over counting semaphores

Threads that wait and post on counting semaphores and that can be cancelled.  As POSIX has it, a
cancellation is a request, on which the thread acts at its next cancellation point; waiting is one.
What a thread has still to do is a list of operations, and the semaphores that it has waited for
and not posted yet are noted beside it.  A step is one operation of one thread, so that any
interleaving of the threads is a run, and a thread that finds a semaphore at zero has no step.

A program takes part by saying which lists of operations its threads can have.  Where critical
sections are not nested (`Thread.Shape`), no unit of a semaphore is ever lost or made: its value
and the units noted beside the threads add up to what it started with (`Sound`), and every step
keeps this (`Sound.exec`, `Sound.run`, `Sound.enter`).  So a semaphore that starts at one excludes,
unless a thread was cancelled with a unit in its hands.

If moreover no thread is cancelled on the way through a critical section (`Safe`), whoever waits
waits for threads that can run and post (`Safe.waits`): a unit that is missing is in the hands of
a thread that is not cancelled, and that has only plain operations between itself and its post.

Fairness is not assumed and nothing is said about time.  What is shown is that the waiting cannot
be for ever by the semaphores alone.
-/

namespace Semaphore

/-- An operation of a thread.  A wait that cannot go on has no step, and so the thread stays where
it is. -/
inductive Op (τ σ : Type) where
  | wait (l : σ)
  | post (l : σ)
  /-- A post that no wait of the thread precedes. -/
  | bare (l : σ)
  /-- A cancellation point that is not a wait. -/
  | point
  | start (t : τ)
  | cancel (t : τ)
  /-- The end of the process. -/
  | exit
  deriving DecidableEq

inductive Status where
  | unstarted
  | running
  | cancelled
  deriving DecidableEq

/-- A thread: what it has to do, the semaphores it is between its wait and its post on,
and whether there is a request to cancel it. -/
structure Thread (τ σ : Type) where
  status : Status
  ops : List (Op τ σ)
  inside : List σ
  pending : Bool

/-- The values of the semaphores, the threads, and whether the process has ended.  Nothing else is
shared. -/
structure State (τ σ : Type) where
  value : σ → Nat
  threads : τ → Thread τ σ
  exited : Bool

variable {τ σ : Type}

/-- A cancellation point: a wait, or a call that is one. -/
def Op.isPoint : Op τ σ → Bool
  | .wait _ | .point => true
  | _ => false

/-- The thread runs from now on, if it has not been started before. -/
def Thread.begin (th : Thread τ σ) : Thread τ σ :=
  if th.status = .unstarted then { th with status := .running } else th

/-- A request to cancel the thread, which takes effect at its next cancellation point. -/
def Thread.request (th : Thread τ σ) : Thread τ σ :=
  if th.status = .running then { th with pending := true } else th

section Machine
variable [DecidableEq τ] [DecidableEq σ]

/-- A change of one thread, with all others and the semaphores as they were. -/
def State.modify (s : State τ σ) (t : τ) (f : Thread τ σ → Thread τ σ) : State τ σ :=
  { s with threads := Function.update s.threads t (f (s.threads t)) }

/-- The operation `op` of thread `t`, which leaves it `ops` to do; `none` while it has to
wait. -/
def exec (s : State τ σ) (t : τ) (ops : List (Op τ σ)) : Op τ σ → Option (State τ σ)
  | .wait l =>
    if s.value l = 0 then none
    else some (State.modify { s with value := Function.update s.value l (s.value l - 1) } t
      fun th => { th with ops, inside := l :: th.inside })
  | .post l =>
    some (State.modify { s with value := Function.update s.value l (s.value l + 1) } t
      fun th => { th with ops, inside := th.inside.erase l })
  | .bare l =>
    some (State.modify { s with value := Function.update s.value l (s.value l + 1) } t
      fun th => { th with ops })
  | .point => some (s.modify t fun th => { th with ops })
  | .start u => some ((s.modify t fun th => { th with ops }).modify u Thread.begin)
  | .cancel u => some ((s.modify t fun th => { th with ops }).modify u Thread.request)
  | .exit => some { s.modify t (fun th => { th with ops }) with exited := true }

/-- The next step of thread `t`: it acts on a request to cancel it, or takes its next
operation. -/
def run (s : State τ σ) (t : τ) : Option (State τ σ) :=
  match (s.threads t).ops with
  | [] => none
  | op :: ops =>
    if s.exited ∨ (s.threads t).status ≠ .running then none
    else if (s.threads t).pending && op.isPoint then
      some (s.modify t fun th => { th with status := .cancelled })
    else exec s t ops op

/-- Thread `t` has `ops` to do before everything else, as long as it runs. -/
def enter (s : State τ σ) (t : τ) (ops : List (Op τ σ)) : Option (State τ σ) :=
  if s.exited ∨ (s.threads t).status ≠ .running then none
  else some (s.modify t fun th => { th with ops := ops ++ th.ops })

/-- What a step of a thread is: a cancellation that takes effect, or its next operation. -/
theorem run_cases {s s' : State τ σ} {t : τ} (h : run s t = some s') :
    ∃ op ops, (s.threads t).ops = op :: ops ∧ s.exited = false ∧ (s.threads t).status = .running ∧
      ((s.threads t).pending = true ∧ op.isPoint = true ∧
          s' = s.modify t (fun th => { th with status := .cancelled }) ∨
        ((s.threads t).pending = false ∨ op.isPoint = false) ∧ exec s t ops op = some s') := by
  unfold run at h
  split at h
  · cases h
  · rename_i op ops hops
    split at h
    · cases h
    · rename_i hrunning
      simp only [not_or, Bool.not_eq_true, not_not] at hrunning
      refine ⟨op, ops, hops, hrunning.1, hrunning.2, ?_⟩
      split at h
      · rename_i hpoint
        rw [Bool.and_eq_true] at hpoint
        exact .inl ⟨hpoint.1, hpoint.2, (Option.some.inj h).symm⟩
      · rename_i hpoint
        rw [Bool.and_eq_true, not_and_or, Bool.not_eq_true, Bool.not_eq_true] at hpoint
        exact .inr ⟨hpoint, h⟩

omit [DecidableEq σ] in
theorem enter_cases {s s' : State τ σ} {t : τ} {ops : List (Op τ σ)} (h : enter s t ops = some s') :
    s.exited = false ∧ (s.threads t).status = .running ∧
      s' = s.modify t (fun th => { th with ops := ops ++ th.ops }) := by
  unfold enter at h
  split at h
  · cases h
  · rename_i hrunning
    simp only [not_or, Bool.not_eq_true, not_not] at hrunning
    exact ⟨hrunning.1, hrunning.2, (Option.some.inj h).symm⟩

omit [DecidableEq σ] in
theorem enter_self {s s' : State τ σ} {t : τ} {ops : List (Op τ σ)}
    (h : enter s t ops = some s') :
    s'.threads t = { s.threads t with ops := ops ++ (s.threads t).ops } := by
  obtain ⟨-, -, rfl⟩ := enter_cases h
  exact Function.update_self ..

omit [DecidableEq σ] in
theorem enter_of_ne {s s' : State τ σ} {t u : τ} {ops : List (Op τ σ)}
    (h : enter s t ops = some s') (hu : u ≠ t) : s'.threads u = s.threads u := by
  obtain ⟨-, -, rfl⟩ := enter_cases h
  exact Function.update_of_ne hu ..

end Machine

/-! ## Critical sections -/

/-- An operation that is neither a wait nor its post. -/
def Op.isPlain : Op τ σ → Bool
  | .wait _ | .post _ => false
  | _ => true

/-- Operations with complete critical sections, in which there are only cancellation
points. -/
inductive Outside : List (Op τ σ) → Prop where
  | nil : Outside []
  | plain {op : Op τ σ} {ops : List (Op τ σ)} : op.isPlain = true → Outside ops →
      Outside (op :: ops)
  | region {l : σ} {n : Nat} {ops : List (Op τ σ)} : Outside ops →
      Outside (.wait l :: (List.replicate n .point ++ .post l :: ops))

theorem Outside.append {ops ops' : List (Op τ σ)} (h : Outside ops) (h' : Outside ops') :
    Outside (ops ++ ops') := by
  induction h with
  | nil => exact h'
  | plain hop _ ih => exact .plain hop ih
  | region _ ih =>
    rw [List.cons_append, List.append_assoc, List.cons_append]
    exact .region ih

/-- A thread outside all critical sections, or in one of them with cancellation points before its
post. -/
def Thread.Shape (th : Thread τ σ) : Prop :=
  th.inside = [] ∧ Outside th.ops ∨
    ∃ l n ops, th.inside = [l] ∧ th.ops = List.replicate n .point ++ .post l :: ops ∧ Outside ops

/-- The four places where the next operation of a thread can be. -/
inductive Place (inside : List σ) : Op τ σ → List (Op τ σ) → Prop where
  | outside {op : Op τ σ} {ops : List (Op τ σ)} : inside = [] → op.isPlain = true → Outside ops →
      Place inside op ops
  | before {l : σ} {n : Nat} {ops : List (Op τ σ)} : inside = [] → Outside ops →
      Place inside (.wait l) (List.replicate n .point ++ .post l :: ops)
  | within {l : σ} {n : Nat} {ops : List (Op τ σ)} : inside = [l] → Outside ops →
      Place inside .point (List.replicate n .point ++ .post l :: ops)
  | last {l : σ} {ops : List (Op τ σ)} : inside = [l] → Outside ops → Place inside (.post l) ops

theorem Thread.Shape.place {th : Thread τ σ} (h : th.Shape) {op : Op τ σ} {ops : List (Op τ σ)}
    (hops : th.ops = op :: ops) : Place th.inside op ops := by
  rcases h with ⟨hinside, houtside⟩ | ⟨l, n, rest, hinside, hregion, hrest⟩
  · rw [hops] at houtside
    cases houtside with
    | plain hop h => exact .outside hinside hop h
    | region h => exact .before hinside h
  · rw [hops] at hregion
    cases n with
    | zero =>
      obtain ⟨rfl, rfl⟩ := List.cons.inj hregion
      exact .last hinside hrest
    | succ n =>
      obtain ⟨rfl, rfl⟩ := List.cons.inj hregion
      exact .within hinside hrest

/-! ## No unit is lost or made -/

section Units
variable [Fintype τ] [DecidableEq τ] [DecidableEq σ]

/-- The units of `l` that a thread holds or will make. -/
def Thread.units (l : σ) (th : Thread τ σ) : Nat := th.inside.count l + th.ops.count (.bare l)

/-- Where critical sections are not nested, and the units of every semaphore, with those
still to be made, are `total` all along. -/
structure Sound (total : σ → Nat) (s : State τ σ) : Prop where
  shape : ∀ t, (s.threads t).Shape
  units : ∀ l, s.value l + ∑ t, (s.threads t).units l = total l

variable {total : σ → Nat} {s s' : State τ σ} {t : τ}

theorem sum_update (f : τ → Nat) (t : τ) (n : Nat) :
    ∑ u, Function.update f t n u + f t = ∑ u, f u + n := by
  have hmem : t ∈ (Finset.univ : Finset τ) := Finset.mem_univ t
  rw [Finset.sum_update_of_mem hmem, Finset.sdiff_singleton_eq_erase,
    ← Finset.add_sum_erase Finset.univ f hmem]
  omega

/-- The invariant when one thread and the values change. -/
theorem Sound.update (h : Sound total s) (t : τ) {value : σ → Nat} {th : Thread τ σ} {exited : Bool}
    (hshape : th.Shape) (hunits : ∀ l, value l + th.units l = s.value l + (s.threads t).units l) :
    Sound total ⟨value, Function.update s.threads t th, exited⟩ := by
  refine ⟨fun u => ?_, fun l => ?_⟩
  · show (Function.update s.threads t th u).Shape
    by_cases hu : u = t
    · subst hu
      rwa [Function.update_self]
    · rw [Function.update_of_ne hu]
      exact h.shape u
  · have hsum : ∑ u, (Function.update s.threads t th u).units l + (s.threads t).units l =
        ∑ u, (s.threads u).units l + th.units l :=
      (congrArg (fun f : τ → Nat => ∑ u, f u + (s.threads t).units l)
        (Function.comp_update (Thread.units l) s.threads t th)).trans (sum_update _ t _)
    have hold := h.units l
    have hl := hunits l
    show value l + ∑ u, (Function.update s.threads t th u).units l = total l
    omega

/-- A change that keeps what a thread has to do and holds. -/
theorem Sound.modify_status (h : Sound total s) (t : τ) {f : Thread τ σ → Thread τ σ}
    (hops : ∀ th, (f th).ops = th.ops) (hinside : ∀ th, (f th).inside = th.inside) :
    Sound total (s.modify t f) := by
  refine h.update t ?_ fun l => ?_
  · unfold Thread.Shape
    rw [hops, hinside]
    exact h.shape t
  · rw [Thread.units, hops, hinside, Thread.units]

omit [Fintype τ] [DecidableEq τ] [DecidableEq σ] in
theorem begin_keeps (th : Thread τ σ) : th.begin.ops = th.ops ∧ th.begin.inside = th.inside := by
  unfold Thread.begin
  split <;> exact ⟨rfl, rfl⟩

omit [Fintype τ] [DecidableEq τ] [DecidableEq σ] in
theorem request_keeps (th : Thread τ σ) :
    th.request.ops = th.ops ∧ th.request.inside = th.inside := by
  unfold Thread.request
  split <;> exact ⟨rfl, rfl⟩

omit [Fintype τ] in
theorem count_bare_cons {op : Op τ σ} (hop : ∀ l, op ≠ .bare l) (ops : List (Op τ σ)) (k : σ) :
    (op :: ops).count (.bare k) = ops.count (.bare k) :=
  List.count_cons_of_ne (hop k)

/-- A step of an operation keeps the invariant, with one case for each operation. -/
theorem Sound.exec (h : Sound total s) {op : Op τ σ} {ops : List (Op τ σ)}
    (hops : (s.threads t).ops = op :: ops) (hexec : exec s t ops op = some s') :
    Sound total s' := by
  have hplace := (h.shape t).place hops
  have hold : ∀ k, (s.threads t).units k =
      (s.threads t).inside.count k + (op :: ops).count (.bare k) := fun k => by
    rw [Thread.units, hops]
  cases hplace with
  | @before l n rest hnil hrest =>
    simp only [Semaphore.exec] at hexec
    split at hexec
    · cases hexec
    · rename_i hvalue
      obtain rfl := Option.some.inj hexec
      have hshape : Thread.Shape { s.threads t with
          ops := List.replicate n .point ++ .post l :: rest
          inside := l :: (s.threads t).inside } :=
        .inr ⟨l, n, rest, by rw [hnil], rfl, hrest⟩
      -- the unit that leaves the semaphore is held by the thread
      refine h.update t hshape fun k => ?_
      rw [hold, count_bare_cons (by rintro l ⟨⟩), Thread.units]
      by_cases hk : l = k
      · subst hk
        simp only [Function.update_self, List.count_cons_self]
        omega
      · dsimp only
        rw [List.count_cons_of_ne hk, Function.update_of_ne (Ne.symm hk)]
  | @within l n rest hone hrest =>
    obtain rfl := Option.some.inj hexec
    have hshape : Thread.Shape { s.threads t with
        ops := List.replicate n .point ++ .post l :: rest } := .inr ⟨l, n, rest, hone, rfl, hrest⟩
    refine h.update t hshape fun k => ?_
    rw [hold, count_bare_cons (by rintro l ⟨⟩), Thread.units]
  | @last l ops hone hrest =>
    obtain rfl := Option.some.inj hexec
    -- the unit that the thread held goes back
    have hnil : (s.threads t).inside.erase l = [] := by rw [hone, List.erase_cons_head]
    have hshape : Thread.Shape { s.threads t with
        ops, inside := (s.threads t).inside.erase l } := .inl ⟨hnil, hrest⟩
    refine h.update t hshape fun k => ?_
    rw [hold, count_bare_cons (by rintro l ⟨⟩), Thread.units, hone]
    dsimp only
    rw [hnil]
    by_cases hk : l = k
    · subst hk
      simp only [Function.update_self, List.count_cons_self, List.count_nil]
      omega
    · rw [List.count_cons_of_ne hk, Function.update_of_ne (Ne.symm hk)]
  | outside hnil hplain hrest =>
    have hshape : Thread.Shape { s.threads t with ops } := .inl ⟨hnil, hrest⟩
    have hadvance : (∀ l, op ≠ .bare l) → ∀ k,
        s.value k + Thread.units k { s.threads t with ops } = s.value k + (s.threads t).units k :=
      fun hop k => by rw [hold, count_bare_cons hop, Thread.units]
    cases op with
    | wait l => cases hplain
    | post l => cases hplain
    | bare l =>
      obtain rfl := Option.some.inj hexec
      refine h.update t hshape fun k => ?_
      rw [hold, Thread.units]
      -- a unit is made that was to be made
      by_cases hk : l = k
      · subst hk
        simp only [Function.update_self, List.count_cons_self]
        omega
      · have hne : (Op.bare l : Op τ σ) ≠ .bare k := fun heq => hk (Op.bare.inj heq)
        dsimp only
        rw [List.count_cons_of_ne hne, Function.update_of_ne (Ne.symm hk)]
    | point =>
      obtain rfl := Option.some.inj hexec
      exact h.update t hshape (hadvance (by rintro l ⟨⟩))
    | start u =>
      obtain rfl := Option.some.inj hexec
      exact Sound.modify_status (h.update t hshape (hadvance (by rintro l ⟨⟩))) u
        (fun th => (begin_keeps th).1) fun th => (begin_keeps th).2
    | cancel u =>
      obtain rfl := Option.some.inj hexec
      exact Sound.modify_status (h.update t hshape (hadvance (by rintro l ⟨⟩))) u
        (fun th => (request_keeps th).1) fun th => (request_keeps th).2
    | exit =>
      obtain rfl := Option.some.inj hexec
      exact h.update t hshape (hadvance (by rintro l ⟨⟩))

/-- **A step of a thread** keeps the balance of units, posts and critical sections. -/
theorem Sound.run (h : Sound total s) (hrun : run s t = some s') : Sound total s' := by
  obtain ⟨op, ops, hops, -, -, ⟨-, -, rfl⟩ | ⟨-, hexec⟩⟩ := run_cases hrun
  · exact h.modify_status t (fun _ => rfl) fun _ => rfl
  · exact h.exec hops hexec

/-- **More to do** for a thread outside all critical sections. -/
theorem Sound.enter (h : Sound total s) {ops : List (Op τ σ)} (houtside : Outside ops)
    (hbare : ∀ l, .bare l ∉ ops) (hinside : (s.threads t).inside = [])
    (henter : enter s t ops = some s') : Sound total s' := by
  obtain ⟨-, -, rfl⟩ := enter_cases henter
  have hops : Outside (s.threads t).ops := by
    rcases h.shape t with ⟨-, hops⟩ | ⟨l, n, rest, hone, -⟩
    · exact hops
    · rw [hinside] at hone
      cases hone
  refine h.update t (.inl ⟨hinside, houtside.append hops⟩) fun l => ?_
  rw [Thread.units, Thread.units, List.count_append, List.count_eq_zero_of_not_mem (hbare l)]
  simp

end Units

/-! ## What a step leaves alone -/

section Frame
variable [DecidableEq τ] {s s' : State τ σ} {t : τ}

/-- What a step of `t` can do to `u`: take its next operation from it, ask it to end, and
end it at a cancellation point. -/
structure Effect (s s' : State τ σ) (t u : τ) : Prop where
  ops : (s'.threads u).ops = (s.threads u).ops ∨
    u = t ∧ ∃ op, (s.threads u).ops = op :: (s'.threads u).ops
  pending : (s'.threads u).pending = true → (s.threads u).pending = true ∨
    ∃ ops, (s.threads t).ops = .cancel u :: ops
  status : (s.threads u).status = .running → (s'.threads u).status = .running ∨
    (s.threads u).pending = true ∧ (s'.threads u).ops = (s.threads u).ops ∧
      ∃ op ops, (s.threads u).ops = op :: ops ∧ op.isPoint = true

/-- The next operation is taken, and nothing else changes. -/
theorem Effect.advance {op : Op τ σ} {ops : List (Op τ σ)} (hops : (s.threads t).ops = op :: ops)
    {inside : List σ}
    (hs : s'.threads = Function.update s.threads t { s.threads t with ops, inside }) (u : τ) :
    Effect s s' t u := by
  by_cases hu : u = t
  · subst hu
    have hself : s'.threads u = { s.threads u with ops, inside } := by
      rw [hs, Function.update_self]
    refine ⟨.inr ⟨rfl, op, ?_⟩, fun h => .inl ?_, fun h => .inl ?_⟩
    · rw [hops, hself]
    · rwa [hself] at h
    · rwa [hself]
  · have hne : s'.threads u = s.threads u := by rw [hs, Function.update_of_ne hu]
    refine ⟨.inl (by rw [hne]), fun h => .inl ?_, fun h => .inl ?_⟩
    · rwa [hne] at h
    · rwa [hne]

/-- A change of another thread's status after it. -/
theorem Effect.modify {u : τ} (h : Effect s s' t u) (v : τ) {f : Thread τ σ → Thread τ σ}
    (hops : ∀ th, (f th).ops = th.ops)
    (hpending : ∀ th, (f th).pending = true → th.pending = true ∨
      ∃ ops, (s.threads t).ops = .cancel v :: ops)
    (hstatus : ∀ th, th.status = .running → (f th).status = .running) :
    Effect s (s'.modify v f) t u := by
  by_cases hu : u = v
  · subst hu
    have hself : (s'.modify u f).threads u = f (s'.threads u) := Function.update_self ..
    refine ⟨?_, fun hp => ?_, fun hrunning => ?_⟩
    · rw [hself, hops]
      exact h.ops
    · rw [hself] at hp
      exact (hpending _ hp).elim h.pending .inr
    · rw [hself, hops]
      exact (h.status hrunning).imp (hstatus _) id
  · have hne : (s'.modify v f).threads u = s'.threads u := Function.update_of_ne hu ..
    refine ⟨?_, ?_, ?_⟩
    · rw [hne]
      exact h.ops
    · rw [hne]
      exact h.pending
    · rw [hne]
      exact h.status

variable [DecidableEq σ]

/-- **A step of a thread** changes little of any thread: it takes an operation off, requests a
cancellation, or carries one out. -/
theorem effect_run (hrun : run s t = some s') (u : τ) : Effect s s' t u := by
  obtain ⟨op, ops, hops, -, -, ⟨hpending, hpoint, rfl⟩ | ⟨-, hexec⟩⟩ := run_cases hrun
  · by_cases hu : u = t
    · subst hu
      have hself : ((s.modify u fun th => { th with status := .cancelled }).threads u) =
          { s.threads u with status := .cancelled } := Function.update_self ..
      refine ⟨.inl ?_, fun h => .inl ?_, fun _ => .inr ⟨hpending, ?_, op, ops, hops, hpoint⟩⟩
      · rw [hself]
      · rwa [hself] at h
      · rw [hself]
    · have hne : ((s.modify t fun th => { th with status := .cancelled }).threads u) =
          s.threads u := Function.update_of_ne hu ..
      refine ⟨.inl (by rw [hne]), fun h => .inl ?_, fun h => .inl ?_⟩
      · rwa [hne] at h
      · rwa [hne]
  · cases op with
    | wait l =>
      simp only [exec] at hexec
      split at hexec
      · cases hexec
      · obtain rfl := Option.some.inj hexec
        exact .advance hops rfl u
    | post l | bare l | point | exit =>
      obtain rfl := Option.some.inj hexec
      exact .advance hops rfl u
    | start v =>
      obtain rfl := Option.some.inj hexec
      refine Effect.modify (.advance hops rfl u) v (fun th => (begin_keeps th).1)
        (fun th h => .inl ?_) fun th h => ?_
      · unfold Thread.begin at h
        split at h <;> exact h
      · unfold Thread.begin
        rw [if_neg (by rw [h]; rintro ⟨⟩)]
        exact h
    | cancel v =>
      obtain rfl := Option.some.inj hexec
      refine Effect.modify (.advance hops rfl u) v (fun th => (request_keeps th).1)
        (fun th h => .inr ⟨ops, hops⟩) fun th h => ?_
      unfold Thread.request
      rw [if_pos h]
      exact h

/-- No step makes a new bare post, so that their number only falls. -/
theorem count_bare_run (hrun : run s t = some s') (u : τ) (l : σ) :
    (s'.threads u).ops.count (.bare l) ≤ (s.threads u).ops.count (.bare l) := by
  rcases (effect_run hrun u).ops with hsame | ⟨-, op, hcons⟩
  · rw [hsame]
  · rw [hcons]
    exact List.count_le_count_cons

theorem count_bare_enter {ops : List (Op τ σ)} (hbare : ∀ l, .bare l ∉ ops)
    (henter : enter s t ops = some s') (u : τ) (l : σ) :
    (s'.threads u).ops.count (.bare l) = (s.threads u).ops.count (.bare l) := by
  by_cases hu : u = t
  · rw [hu, enter_self henter, List.count_append, List.count_eq_zero_of_not_mem (hbare l),
      Nat.zero_add]
  · rw [enter_of_ne henter hu]

end Frame

/-! ## No thread is cancelled in a critical section -/

section Cancellation
variable [Fintype τ] [DecidableEq τ] [DecidableEq σ] {total : σ → Nat} {s s' : State τ σ} {t : τ}

/-- The thread can be cancelled: in a critical section it has only the post left. -/
def Thread.Cancellable (th : Thread τ σ) : Prop :=
  th.inside ≠ [] → ∃ l ops, th.ops = .post l :: ops

def Op.isPost : Op τ σ → Bool
  | .post _ => true
  | _ => false

omit [Fintype τ] [DecidableEq τ] [DecidableEq σ] in
theorem Thread.cancellable_iff (th : Thread τ σ) :
    (th.inside.isEmpty || th.ops.head?.any Op.isPost) = true ↔ th.Cancellable := by
  rw [Bool.or_eq_true, List.isEmpty_iff, Option.any_eq_true]
  constructor
  · rintro (hnil | ⟨op, hop, hpost⟩) hne
    · exact absurd hnil hne
    · obtain ⟨ops, hops⟩ := List.head?_eq_some_iff.mp hop
      cases op with
      | post l => exact ⟨l, ops, hops⟩
      | _ => cases hpost
  · intro h
    by_cases hnil : th.inside = []
    · exact .inl hnil
    · obtain ⟨l, ops, hops⟩ := h hnil
      exact .inr ⟨.post l, by rw [hops, List.head?_cons], rfl⟩

instance (th : Thread τ σ) : Decidable th.Cancellable := decidable_of_iff _ th.cancellable_iff

/-- Only running threads are in critical sections, and one that is to be cancelled leaves
first. -/
structure Safe (s : State τ σ) : Prop where
  running : ∀ t, (s.threads t).inside ≠ [] → (s.threads t).status = .running
  pending : ∀ t, (s.threads t).pending = true → (s.threads t).Cancellable

/-- The thread can run on to its post on `l`. -/
def Thread.CanPost (th : Thread τ σ) (l : σ) : Prop :=
  th.status = .running ∧ ∃ n ops, th.ops = List.replicate n .point ++ .post l :: ops ∧
    (th.pending = true → n = 0)

omit [Fintype τ] [DecidableEq σ] in
/-- The invariant when one thread changes. -/
theorem Safe.update (h : Safe s) (t : τ) {value : σ → Nat} {th : Thread τ σ} {exited : Bool}
    (hrunning : th.inside ≠ [] → th.status = .running)
    (hpending : th.pending = true → th.Cancellable) :
    Safe ⟨value, Function.update s.threads t th, exited⟩ := by
  refine ⟨fun u => ?_, fun u => ?_⟩
  · show (Function.update s.threads t th u).inside ≠ [] →
      (Function.update s.threads t th u).status = .running
    by_cases hu : u = t
    · subst hu
      rwa [Function.update_self]
    · rw [Function.update_of_ne hu]
      exact h.running u
  · show (Function.update s.threads t th u).pending = true →
      (Function.update s.threads t th u).Cancellable
    by_cases hu : u = t
    · subst hu
      rwa [Function.update_self]
    · rw [Function.update_of_ne hu]
      exact h.pending u

/-- A step of an operation, if the thread it cancels can be cancelled. -/
theorem Safe.exec (h : Safe s) (hsound : Sound total s) {op : Op τ σ} {ops : List (Op τ σ)}
    (hops : (s.threads t).ops = op :: ops) (hstatus : (s.threads t).status = .running)
    (hpoint : (s.threads t).pending = false ∨ op.isPoint = false)
    (hcancel : ∀ u, op = .cancel u → (s.threads u).Cancellable)
    (hexec : exec s t ops op = some s') : Safe s' := by
  cases (hsound.shape t).place hops with
  | @before l n rest hnil hrest =>
    simp only [Semaphore.exec] at hexec
    split at hexec
    · cases hexec
    · obtain rfl := Option.some.inj hexec
      refine h.update t (fun _ => hstatus) fun hpending => ?_
      -- a thread that is to be cancelled does not get past a wait
      rcases hpoint with hpoint | hpoint
      · exact absurd hpending (by rw [hpoint]; exact Bool.false_ne_true)
      · cases hpoint
  | @within l n rest hone hrest =>
    obtain rfl := Option.some.inj hexec
    refine h.update t (fun _ => hstatus) fun hpending => ?_
    rcases hpoint with hpoint | hpoint
    · exact absurd hpending (by rw [hpoint]; exact Bool.false_ne_true)
    · cases hpoint
  | @last l ops hone hrest =>
    obtain rfl := Option.some.inj hexec
    have hnil : (s.threads t).inside.erase l = [] := by rw [hone, List.erase_cons_head]
    exact h.update t (fun _ => hstatus) fun _ hne => absurd hnil hne
  | outside hnil hplain hrest =>
    have hadvance : Safe (s.modify t fun th => { th with ops }) :=
      h.update t (fun _ => hstatus) fun _ hne => absurd hnil hne
    cases op with
    | wait l => cases hplain
    | post l => cases hplain
    | bare l =>
      obtain rfl := Option.some.inj hexec
      exact h.update t (fun _ => hstatus) fun _ hne => absurd hnil hne
    | point =>
      obtain rfl := Option.some.inj hexec
      exact hadvance
    | start u =>
      obtain rfl := Option.some.inj hexec
      refine hadvance.update u (fun hne => ?_) fun hpending => ?_
      · rw [(begin_keeps _).2] at hne
        have hrunning := hadvance.running u hne
        unfold Thread.begin
        rw [if_neg (by rw [hrunning]; rintro ⟨⟩)]
        exact hrunning
      · unfold Thread.Cancellable
        rw [(begin_keeps _).1, (begin_keeps _).2]
        refine hadvance.pending u ?_
        unfold Thread.begin at hpending
        split at hpending <;> exact hpending
    | cancel u =>
      obtain rfl := Option.some.inj hexec
      refine hadvance.update u (fun hne => ?_) fun _ => ?_
      · rw [(request_keeps _).2] at hne
        have hrunning := hadvance.running u hne
        unfold Thread.request
        rw [if_pos hrunning]
        exact hrunning
      · unfold Thread.Cancellable
        rw [(request_keeps _).1, (request_keeps _).2]
        show (Function.update s.threads t _ u).Cancellable
        by_cases hu : u = t
        · subst hu
          rw [Function.update_self]
          exact fun hne => absurd hnil hne
        · rw [Function.update_of_ne hu]
          exact hcancel u rfl
    | exit =>
      obtain rfl := Option.some.inj hexec
      exact h.update t (fun _ => hstatus) fun _ hne => absurd hnil hne

/-- **A step of a thread**, if the thread it cancels can be cancelled, leaves every thread in a
critical section running. -/
theorem Safe.run (h : Safe s) (hsound : Sound total s)
    (hcancel : ∀ u ops, (s.threads t).ops = .cancel u :: ops → (s.threads u).Cancellable)
    (hrun : run s t = some s') : Safe s' := by
  obtain ⟨op, ops, hops, -, hstatus, ⟨hpending, hpoint, rfl⟩ | ⟨hpoint, hexec⟩⟩ := run_cases hrun
  · -- in a critical section the next operation is a post, which is no cancellation point
    have hnil : (s.threads t).inside = [] := by
      by_contra hne
      obtain ⟨l, rest, hpost⟩ := h.pending t hpending hne
      obtain ⟨rfl, -⟩ := List.cons.inj (hops.symm.trans hpost)
      cases hpoint
    exact h.update t (fun hne => absurd hnil hne) fun _ hne => absurd hnil hne
  · refine h.exec hsound hops hstatus hpoint (fun u hu => ?_) hexec
    exact hcancel u ops (hu ▸ hops)

omit [Fintype τ] [DecidableEq σ] in
/-- **More to do** for a thread outside all critical sections. -/
theorem Safe.enter (h : Safe s) {ops : List (Op τ σ)} (hinside : (s.threads t).inside = [])
    (henter : enter s t ops = some s') : Safe s' := by
  obtain ⟨-, hstatus, rfl⟩ := enter_cases henter
  exact h.update t (fun _ => hstatus) fun _ hne => absurd hinside hne

/-- **Whoever waits, waits for threads that can post.**  If there are more units than
threads still have to make, a wait that cannot go on is for a semaphore that other threads
are inside of, and all of these can run on to their post. -/
theorem Safe.waits (h : Safe s) (hsound : Sound total s) {l : σ} {ops : List (Op τ σ)}
    (hops : (s.threads t).ops = .wait l :: ops) (hvalue : s.value l = 0)
    (hbare : ∑ u, (s.threads u).ops.count (.bare l) < total l) :
    (∃ u, l ∈ (s.threads u).inside) ∧
      ∀ u, l ∈ (s.threads u).inside → u ≠ t ∧ (s.threads u).CanPost l := by
  constructor
  · by_contra hnone
    -- nobody is inside: all units would have to be still to make
    have hzero : ∀ u, (s.threads u).inside.count l = 0 := fun u =>
      List.count_eq_zero_of_not_mem fun hmem => hnone ⟨u, hmem⟩
    have hunits := hsound.units l
    rw [hvalue, Nat.zero_add] at hunits
    have hsum : ∑ u, (s.threads u).units l = ∑ u, (s.threads u).ops.count (.bare l) :=
      Finset.sum_congr rfl fun u _ => by rw [Thread.units, hzero, Nat.zero_add]
    omega
  · intro u hu
    have hne : (s.threads u).inside ≠ [] := List.ne_nil_of_mem hu
    rcases hsound.shape u with ⟨hnil, -⟩ | ⟨k, n, rest, hone, hregion, -⟩
    · exact absurd hnil hne
    · obtain rfl : l = k := by
        rw [hone] at hu
        exact List.mem_singleton.mp hu
      refine ⟨?_, h.running u hne, n, rest, hregion, fun hpending => ?_⟩
      · rintro rfl
        rw [hops] at hregion
        cases n with
        | zero => cases hregion
        | succ n => cases hregion
      · obtain ⟨k, rest', hpost⟩ := h.pending u hpending hne
        rw [hregion] at hpost
        cases n with
        | zero => rfl
        | succ n => cases hpost

end Cancellation

end Semaphore
