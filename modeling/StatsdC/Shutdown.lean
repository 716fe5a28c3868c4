import StatsdC.Locks

/-!
# Shutdown

`cleanup` cancels the four threads and then waits for every lock to write the snapshot, on the
thread that a signal happened to be delivered to.  A thread that is cancelled in a region never
posts, and neither does the thread whose region the handler interrupted; and on one of the four
threads `cleanup` cancels itself.  `shutdown_served` says that nothing else goes wrong: every wait
of `cleanup` is served if signals are delivered to `main` outside all regions, and `pthread_cancel`
finds its thread with at most the post of its region before it (`CleanStep`).

That a wait is served means that the thread which has the unit can run, is not cancelled, and has
nothing but its post in front of it; so the wait ends as soon as that thread is scheduled.  The
statement is about every state of every run whose steps are clean, by the invariant
`ShutdownInvariant`, and it needs no fairness.

The condition can fail in the program.  The flush thread prints the values of a timer inside its
region, and printing is a cancellation point, so a signal at that moment leaves `timers_lock` taken
for ever (`cancelled_flush_keeps_lock`); with a single value nothing is printed, and the region
ends (`shutdown_served_one_value`).

Before `sem_init` no snapshot file is set, so a signal finds nothing to wait for.  What `cleanup`
does besides, closing sockets and freeing memory, is left out.
-/

namespace StatsdC
open Semaphore TransitionSystem

/-- Shutdown reaches the snapshot: no thread is cancelled with its `cleanup` still to do,
and a thread that has to wait for a lock in it waits for other threads, which can run and
post.  Every `cleanup` is followed by an `exit`. -/
structure ShutdownServed (s : LockState) : Prop where
  kept : ∀ t, .exit ∈ (s.threads t).ops → (s.threads t).status = .running
  served : ∀ t l ops, (s.threads t).ops = .wait l :: ops → .exit ∈ ops → s.value l = 0 →
    (∃ u, l ∈ (s.threads u).inside) ∧
      ∀ u, l ∈ (s.threads u).inside → u ≠ t ∧ (s.threads u).CanPost l

/-- Signals are delivered to `main`, outside all regions; a thread that is cancelled is there and in
no region, or has only the post of it to do; and the UDP socket is opened.  It is a condition on the
state before the step. -/
def CleanStep (s : LockState) : LockAction → Prop
  | .run t => ∀ u, (s.threads t).ops.head? = some (.cancel u) →
      (s.threads u).status ≠ .unstarted ∧ (s.threads u).Cancellable
  | .call _ c => c.isDieWithError = false
  | .signal t _ => t = .main ∧ (s.threads t).inside = []

instance (s : LockState) : (a : LockAction) → Decidable (CleanStep s a)
  | .run t => inferInstanceAs (Decidable (∀ u, (s.threads t).ops.head? = some (.cancel u) →
      (s.threads u).status ≠ .unstarted ∧ (s.threads u).Cancellable))
  | .call _ c => inferInstanceAs (Decidable (c.isDieWithError = false))
  | .signal t _ => inferInstanceAs (Decidable (t = .main ∧ (s.threads t).inside = []))

/-! ## Who exits, and who is cancelled -/

/-- `main` runs on, and no other thread is in a `cleanup`.  So the one `cleanup` there is runs to
its end. -/
structure Undisturbed (s : LockState) : Prop where
  running : (s.threads .main).status = .running
  pending : (s.threads .main).pending = false
  cancel : ∀ t, .cancel .main ∉ (s.threads t).ops
  others : ∀ t, t ≠ .main → .exit ∈ (s.threads t).ops →
    (s.threads t).ops = [.exit] ∧ (s.threads t).status = .running

theorem undisturbed_initial (cfg : LockConfig) (snapshot : SnapshotFile)
    (found : Bool × Bool × Bool) : Undisturbed (lockInitial cfg snapshot found) := by
  obtain ⟨before, after, hbefore, hafter, heq⟩ := mainOps_eq cfg snapshot found
  have hmain : .cancel .main ∉ mainOps cfg snapshot found := by
    rw [heq]
    intro hmem
    simp only [List.mem_append, List.mem_cons, List.not_mem_nil, reduceCtorEq, false_or,
      or_false] at hmem
    rcases hmem with hmem | hmem
    · cases hbefore.work _ hmem
    · cases hafter.work _ hmem
  refine ⟨rfl, rfl, fun t hmem => ?_, fun t ht hmem => ?_⟩
  · cases t with
    | main => exact hmain hmem
    | _ => cases hmem
  · cases t with
    | main => exact absurd rfl ht
    | _ => cases hmem

theorem Undisturbed.run {s s' : LockState} {t : ThreadId} (h : Undisturbed s)
    (hrun : run s t = some s') : Undisturbed s' := by
  have hmain := effect_run hrun .main
  -- nobody cancels `main`
  have hpending : (s'.threads .main).pending = false := by
    by_contra hp
    rcases hmain.pending (Bool.eq_true_of_not_eq_false hp) with hp | ⟨ops, hops⟩
    · rw [h.pending] at hp
      cases hp
    · exact h.cancel t (hops ▸ List.mem_cons_self)
  refine ⟨?_, hpending, fun u hmem => ?_, fun u hu hmem => ?_⟩
  · rcases hmain.status h.running with hs | ⟨hp, -⟩
    · exact hs
    · rw [h.pending] at hp
      cases hp
  · rcases (effect_run hrun u).ops with hsame | ⟨-, op, hcons⟩
    · exact h.cancel u (hsame ▸ hmem)
    · exact h.cancel u (hcons ▸ List.mem_cons_of_mem _ hmem)
  · rcases (effect_run hrun u).ops with hsame | ⟨-, op, hcons⟩
    · rw [hsame] at hmem ⊢
      obtain ⟨hops, hstatus⟩ := h.others u hu hmem
      refine ⟨hops, ?_⟩
      rcases (effect_run hrun u).status hstatus with hs | ⟨-, -, op, ops, hpoint, hop⟩
      · exact hs
      · -- `exit` is no cancellation point
        obtain ⟨rfl, -⟩ := List.cons.inj (hops.symm.trans hpoint)
        cases hop
    · obtain ⟨hops, -⟩ := h.others u hu (hcons ▸ List.mem_cons_of_mem _ hmem)
      obtain ⟨-, hnil⟩ := List.cons.inj (hops.symm.trans hcons)
      rw [← hnil] at hmem
      cases hmem

/-- A call of another thread than `main`, and a handler on `main`. -/
theorem Undisturbed.enter {s s' : LockState} {t : ThreadId} {ops : List LockOp}
    (h : Undisturbed s) (hcancel : .cancel .main ∉ ops)
    (hexit : t ≠ .main → .exit ∈ ops ++ (s.threads t).ops → ops ++ (s.threads t).ops = [.exit])
    (henter : enter s t ops = some s') : Undisturbed s' := by
  have hmain : (s'.threads .main).status = (s.threads .main).status ∧
      (s'.threads .main).pending = (s.threads .main).pending := by
    by_cases ht : ThreadId.main = t
    · subst ht
      rw [enter_self henter]
      exact ⟨rfl, rfl⟩
    · rw [enter_of_ne henter ht]
      exact ⟨rfl, rfl⟩
  refine ⟨hmain.1.trans h.running, hmain.2.trans h.pending, fun u hmem => ?_, fun u hu hmem => ?_⟩
  · by_cases ht : u = t
    · rw [ht, enter_self henter] at hmem
      exact (List.mem_append.mp hmem).elim hcancel (h.cancel t)
    · rw [enter_of_ne henter ht] at hmem
      exact h.cancel u hmem
  · by_cases ht : u = t
    · subst ht
      rw [enter_self henter] at hmem ⊢
      exact ⟨hexit hu hmem, (enter_cases henter).2.1⟩
    · rw [enter_of_ne henter ht] at hmem ⊢
      exact h.others u hu hmem

/-! ## The snapshot is reached -/

/-- What the runs keep: the units of the locks, that whoever has one can post, and that `main` is
not cancelled. -/
structure ShutdownInvariant (s : LockState) : Prop where
  locks : LockInvariant s
  safe : Safe s
  undisturbed : Undisturbed s

theorem shutdownInvariant_initial (cfg : LockConfig) (snapshot : SnapshotFile)
    (found : Bool × Bool × Bool) : ShutdownInvariant (lockInitial cfg snapshot found) := by
  refine ⟨lockInvariant_initial cfg snapshot found, ⟨fun t ht => ?_, fun t ht => ?_⟩,
    undisturbed_initial cfg snapshot found⟩
  · cases t <;> exact absurd rfl ht
  · cases t <;> cases ht

theorem ShutdownInvariant.act {cfg : LockConfig} {s s' : LockState} {a : LockAction}
    (h : ShutdownInvariant s) (hclean : CleanStep s a) (hact : lockAct cfg s a = some s') :
    ShutdownInvariant s' := by
  have hlocks : LockInvariant s' := by
    refine h.locks.act (fun t r hsignal => ?_) hact
    subst hsignal
    exact hclean.2
  refine ⟨hlocks, ?_, ?_⟩
  · cases a with
    | run t =>
      refine h.safe.run h.locks.sound (fun u ops hops => (hclean u ?_).2) hact
      rw [hops, List.head?_cons]
    | call t c =>
      simp only [lockAct] at hact
      split at hact
      · rename_i hcall
        exact h.safe.enter (h.locks.inside_eq_nil hcall.2) hact
      · cases hact
    | signal t r => exact h.safe.enter hclean.2 hact
  · cases a with
    | run t => exact h.undisturbed.run hact
    | call t c =>
      simp only [lockAct] at hact
      split at hact
      · rename_i hcall
        rcases c.ops_cases cfg with hexit | ⟨hdie, -⟩ | hregular
        · refine h.undisturbed.enter ?_ (fun _ _ => ?_) hact
          · simp [hexit]
          · rw [hcall.2, hexit]
            rfl
        -- the socket is opened
        · cases hclean.symm.trans hdie
        · refine h.undisturbed.enter (fun hmem => ?_) (fun _ hmem => ?_) hact
          · cases hregular.work _ hmem
          · rw [hcall.2, List.append_nil] at hmem
            cases hregular.work _ hmem
      · cases hact
    | signal t r =>
      refine h.undisturbed.enter (fun hmem => ?_) (fun ht => absurd hclean.1 ht) hact
      rcases mem_endOps hmem with hwork | hexit | ⟨u, hu, hcancel⟩
      · cases hwork
      · cases hexit
      · exact hu (Op.cancel.inj hcancel).symm

theorem ShutdownInvariant.served {s : LockState} (h : ShutdownInvariant s) : ShutdownServed s := by
  refine ⟨fun t hexit => ?_, fun t l ops hops _ hvalue => ?_⟩
  · by_cases ht : t = .main
    · rw [ht]
      exact h.undisturbed.running
    · exact (h.undisturbed.others t ht hexit).2
  · refine h.safe.waits h.locks.sound hops hvalue ?_
    have hle := h.locks.bare .main l
    rw [h.locks.sum_bare, lockTotal]
    by_cases hl : l = .stats
    · rw [if_pos ⟨rfl, hl⟩] at hle
      rw [if_pos hl]
      omega
    · rw [if_neg fun h => hl h.2] at hle
      rw [if_neg hl]
      omega

/-- **Shutdown.** In every run whose steps are clean, every state reached serves the waits of
`cleanup`, so that the snapshot is written. -/
theorem shutdown_served {cfg : LockConfig} {s : LockState}
    (hr : ((lockSystem cfg).restrict CleanStep).Reachable s) : ShutdownServed s := by
  refine (hr.invariant (I := ShutdownInvariant) ?_ fun s a s' h hs => ?_).served
  · rintro s ⟨snapshot, found, rfl⟩
    exact shutdownInvariant_initial cfg snapshot found
  · exact h.act hs.2 hs.1

/-- A snapshot file is set. -/
def savingConfig : LockConfig := ⟨false, true, false⟩

/-- The process starts, the flush thread is in the region of a timer of `count` values, and a signal
makes `main` cancel it and wait for `timers_lock`. -/
def signalInFlush (count : Int) : List LockAction :=
  List.replicate 22 (.run .main) ++ [.call .flush (.sortTimer count), .run .flush,
    .signal .main ⟨false, 0, true⟩] ++ List.replicate 8 (.run .main)

/-- `main` waits in `cleanup` for a `timers_lock` that is taken. -/
def WaitsForTimers (s : LockState) : Prop :=
  (s.threads .main).ops.head? = some (.wait .timers) ∧ .exit ∈ (s.threads .main).ops ∧
    s.value .timers = 0

instance (s : LockState) : Decidable (WaitsForTimers s) :=
  inferInstanceAs (Decidable (_ ∧ _ ∧ _))

/-- One value is not printed. -/
theorem shutdown_served_one_value :
    ∃ s, WaitsForTimers s ∧ ShutdownServed s := by
  have hrun : (((signalInFlush 1).foldlM (guarded (lockAct savingConfig) CleanStep)
      (lockInitial savingConfig .missing (false, false, false))).any
        fun s => WaitsForTimers s) = true := by decide +kernel
  obtain ⟨s, hs, hwaits⟩ := (Option.any_eq_true _ _).mp hrun
  have hstart : ((lockSystem savingConfig).restrict CleanStep).Reachable
      (lockInitial savingConfig .missing (false, false, false)) := .start ⟨_, _, rfl⟩
  have hr := hstart.foldlM (fun _ _ _ => guarded_eq_some) hs
  exact ⟨s, of_decide_eq_true hwaits, shutdown_served hr⟩

/-- Two values are printed, and the thread ends there. -/
theorem cancelled_flush_keeps_lock : ∃ s, (lockSystem savingConfig).Reachable s ∧ s.exited = false ∧
    WaitsForTimers s ∧ ¬ShutdownServed s := by
  have hrun : (((signalInFlush 2 ++ [LockAction.run .flush]).foldlM (lockAct savingConfig)
      (lockInitial savingConfig .missing (false, false, false))).any
        fun s => s.exited = false ∧ WaitsForTimers s ∧ .timers ∈ (s.threads .flush).inside ∧
          (s.threads .flush).status = .cancelled) = true := by decide +kernel
  obtain ⟨s, hs, hstate⟩ := (Option.any_eq_true _ _).mp hrun
  obtain ⟨hover, hwaits, hinside, hcancelled⟩ := of_decide_eq_true hstate
  have hstart : (lockSystem savingConfig).Reachable
      (lockInitial savingConfig .missing (false, false, false)) := .start ⟨_, _, rfl⟩
  refine ⟨s, hstart.foldlM (fun _ _ _ h => h) hs, hover, hwaits, fun hserved => ?_⟩
  obtain ⟨hhead, hexit, hvalue⟩ := hwaits
  obtain ⟨ops, hops⟩ := List.head?_eq_some_iff.mp hhead
  rw [hops, List.mem_cons] at hexit
  have hexit : .exit ∈ ops := hexit.resolve_left (by rintro ⟨⟩)
  obtain ⟨-, hall⟩ := hserved.served .main .timers ops hops hexit hvalue
  have hrunning := (hall .flush hinside).2.1
  rw [hcancelled] at hrunning
  cases hrunning

end StatsdC
