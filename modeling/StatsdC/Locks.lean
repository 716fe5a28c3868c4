import StatsdC.Lib.Semaphore
import StatsdC.Lib.TransitionSystem

/-!
# The table locks

What the threads do with the four semaphores that guard the tables, from `init_stats` on.  A call
is the list of its waits and posts, with the calls that are cancellation points between them; which
entries are found, how many there are, and the order of the calls are left open.  So a thread's
loop is any sequence of the calls that it can make (`LockCall.by`), and a signal may arrive at any
moment, at any thread.

**What is one step.**  A wait that succeeds, a post, or a call that is a cancellation point.  A
thread that would have to wait has no step.  The handler of a signal runs on the thread that it was
delivered to, in front of what that thread still has to do.

Every region is a wait with its post, except that `init_stats` posts `stats_lock` once more than it
waits.  So three of the locks exclude, and `stats_lock` lets two threads in once the process has
started (`lock_excludes_iff`).  The invariant counts units: the value of a lock, the threads
between its wait and its post, and a post that is still to come add up (`LockInvariant`), and the
bare post of `init_stats` is the only one there is.

The theorem on exclusion is about runs without signals, because a handler that interrupts a region
waits for a lock that its own thread holds; what then becomes of the locks is the subject of
`StatsdC.Shutdown`.  The general facts about threads and semaphores are in `StatsdC.Lib.Semaphore`.
-/

namespace StatsdC
open Semaphore TransitionSystem

/-- The four semaphores, one for each table.  All start at one. -/
inductive TableLock where
  | stats | timers | counters | gauges
  deriving DecidableEq

/-- The threads of the process.  `main` does nothing in a loop once it has started the others. -/
inductive ThreadId where
  | main | udp | mgmt | flush | queue
  deriving DecidableEq

instance : Fintype ThreadId where
  elems := {.main, .udp, .mgmt, .flush, .queue}
  complete t := by cases t <;> decide

/-- What a thread does that matters to the locks. -/
abbrev LockOp := Op ThreadId TableLock

/-- What the options and the build fix, as far as the locks depend on it. -/
structure LockConfig where
  /-- `LOCK_OPTIMIZE` is defined. -/
  lockOptimize : Bool
  /-- `serialize_file` is set. -/
  serializeFile : Bool
  clearStats : Bool

/-- What `statsd_deserialize` finds, as far as the locks depend on it: how many entries there are of
each kind. -/
inductive SnapshotFile where
  /-- `fopen` fails. -/
  | missing
  /-- There is too little of it, or it cannot be read. -/
  | skipped
  /-- The numbers of entries. -/
  | loaded (stats timers gauges counters : Nat)

/-- What a run of `cleanup` depends on that is not modelled here. -/
structure CleanupRun where
  /-- `stats_udp_socket` is not zero. -/
  udpSocket : Bool
  /-- The entries of `stats`. -/
  stats : Nat
  /-- `fopen` succeeds. -/
  opened : Bool

/-- A region under `l`, with `n` cancellation points in it, which are lines that are logged or
printed. -/
def region (l : TableLock) (n : Nat) : List LockOp :=
  .wait l :: (List.replicate n .point ++ [.post l])

/-- `n` calls that are cancellation points. -/
def points (n : Nat) : List LockOp := List.replicate n .point

/-- The region of an update.  An entry that is found is not locked with `LOCK_OPTIMIZE`, where only
the insertion is. -/
def updateRegion (cfg : LockConfig) (l : TableLock) (found : Bool) (n : Nat) : List LockOp :=
  if cfg.lockOptimize && found then points n else region l n

/-- `update_stat`, with its log lines, each of which is a cancellation point. -/
def updateStatOps (cfg : LockConfig) (found : Bool) : List LockOp :=
  points 3 ++ updateRegion cfg .stats found 0

/-- `update_counter`. -/
def updateCounterOps (cfg : LockConfig) (found : Bool) : List LockOp :=
  points 2 ++ updateRegion cfg .counters found 0

/-- `update_gauge_plusminus`.  An unknown `plusminus` is logged: in the region if there
is an entry, and before it otherwise. -/
def updateGaugePlusminusOps (cfg : LockConfig) (found : Bool) (plusminus : Int) : List LockOp :=
  let error := if plusminus < 3 then 0 else 1
  if found then points 4 ++ updateRegion cfg .gauges true error
  else points (4 + error) ++ updateRegion cfg .gauges false 0

/-- `update_timer`. -/
def updateTimerOps (cfg : LockConfig) (found : Bool) : List LockOp :=
  points 4 ++ updateRegion cfg .timers found 0

/-- `statsd_serialize`.  It logs each stat in the region. -/
def statsdSerializeOps (run : CleanupRun) : List LockOp :=
  region .stats run.stats ++ (region .timers 0 ++ (region .counters 0 ++ (region .gauges 0 ++
    points (if run.opened then 3 else 1))))

/-- `n` entries, each with `log` lines logged and then inserted, under a lock of its own each time.
-/
def insertOps (l : TableLock) (log : Nat) : Nat → List LockOp
  | 0 => []
  | n + 1 => points log ++ (region l 0 ++ insertOps l log n)

/-- `statsd_deserialize`, which takes the lock of a table once for every entry. -/
def statsdDeserializeOps : SnapshotFile → List LockOp
  | .missing => points 1
  | .skipped => points 6
  | .loaded stats timers gauges counters =>
    points 6 ++ (insertOps .stats 1 stats ++ (insertOps .timers 0 timers ++
      (insertOps .gauges 0 gauges ++ insertOps .counters 0 counters)))

/-- `init_stats`.  The post on `stats_lock` has no wait, and comes before the updates of the three
stats. -/
def initStatsOps (cfg : LockConfig) (snapshot : SnapshotFile) (found : Bool × Bool × Bool) :
    List LockOp :=
  (if cfg.serializeFile && !cfg.clearStats then points 1 ++ statsdDeserializeOps snapshot
    else []) ++ (.bare .stats :: (updateStatOps cfg found.1 ++
      (updateStatOps cfg found.2.1 ++ updateStatOps cfg found.2.2)))

/-- `main` from `init_stats` on, up to the start of the four threads. -/
def mainOps (cfg : LockConfig) (snapshot : SnapshotFile) (found : Bool × Bool × Bool) :
    List LockOp :=
  initStatsOps cfg snapshot found ++ [.start .udp, .start .mgmt, .start .flush, .start .queue]

/-- `cleanup`.  `sem_destroy` leaves the values alone, and a thread that is not there yet is
not cancelled. -/
def cleanupOps (cfg : LockConfig) (run : CleanupRun) : List LockOp :=
  [.cancel .flush, .cancel .udp, .cancel .mgmt, .cancel .queue] ++
    (points (if run.udpSocket then 2 else 0) ++
      ((if cfg.serializeFile then points 1 ++ (statsdSerializeOps run ++ points 1) else []) ++
        points 2))

/-- A line printed, `cleanup` and `exit`. -/
def endOps (cfg : LockConfig) (run : CleanupRun) : List LockOp :=
  points 1 ++ (cleanupOps cfg run ++ [.exit])

/-- `sighup_handler`, `sigint_handler`, `sigquit_handler` and `sigterm_handler`. -/
def handlerOps (cfg : LockConfig) (run : CleanupRun) : List LockOp := endOps cfg run

/-- `die_with_error`. -/
def dieWithErrorOps (cfg : LockConfig) (run : CleanupRun) : List LockOp := endOps cfg run

/-! ## The threads -/

/-- What a thread's loop consists of, as far as it matters to the locks.  Any number of calls may be
made, in any order. -/
inductive LockCall where
  /-- A call that is a cancellation point and touches no lock. -/
  | point
  | updateStat (found : Bool)
  | updateCounter (found : Bool)
  | updateGaugePlusminus (found : Bool) (plusminus : Int)
  | updateTimer (found : Bool)
  /-- `p_thread_flush` clears a counter. -/
  | clearCounter
  /-- `p_thread_flush` sorts a timer of `count` values and computes with them.  It prints
  if they are more than one. -/
  | sortTimer (count : Int)
  | dieWithError (run : CleanupRun)
  | exit

/-- Who makes a call.  A gauge is updated in one of three modes.  The management thread takes no
lock. -/
def LockCall.by : LockCall → ThreadId → Bool
  | .point, t => t != .main
  | .updateStat _, t => t == .queue || t == .flush
  | .updateCounter _, t | .updateTimer _, t => t == .queue
  | .updateGaugePlusminus _ plusminus, t => t == .queue && [0, 1, 2].contains plusminus
  | .clearCounter, t | .sortTimer _, t => t == .flush
  | .dieWithError _, t => t == .udp
  | .exit, t => t == .mgmt

/-- The operations of a call, from those of the functions it calls. -/
def LockCall.ops (cfg : LockConfig) : LockCall → List LockOp
  | .point => points 1
  | .updateStat found => updateStatOps cfg found
  | .updateCounter found => updateCounterOps cfg found
  | .updateGaugePlusminus found plusminus => updateGaugePlusminusOps cfg found plusminus
  | .updateTimer found => updateTimerOps cfg found
  | .clearCounter => region .counters 0
  | .sortTimer count => if 0 < count then region .timers (if 1 < count then 1 else 0) else []
  | .dieWithError run => dieWithErrorOps cfg run
  | .exit => [.exit]

/-- The semaphores and the threads. -/
abbrev LockState := State ThreadId TableLock

/-- A thread that is not there yet. -/
def unstarted : Thread ThreadId TableLock := ⟨.unstarted, [], [], false⟩

/-- Behind `sem_init`, before `init_stats`: every lock has one unit, and only `main` is there. -/
def lockInitial (cfg : LockConfig) (snapshot : SnapshotFile) (found : Bool × Bool × Bool) :
    LockState :=
  ⟨fun _ => 1, fun t => if t = .main then ⟨.running, mainOps cfg snapshot found, [], false⟩
    else unstarted, false⟩

/-- What can happen next. -/
inductive LockAction where
  /-- A thread takes a step. -/
  | run (t : ThreadId)
  /-- A thread makes the next call of its loop. -/
  | call (t : ThreadId) (c : LockCall)
  /-- A signal with a handler is delivered to a thread. -/
  | signal (t : ThreadId) (run : CleanupRun)

/-- The state after an action; `none` if it cannot happen, as when a thread would have to wait. -/
def lockAct (cfg : LockConfig) (s : LockState) : LockAction → Option LockState
  | .run t => run s t
  | .call t c => if c.by t ∧ (s.threads t).ops = [] then enter s t (c.ops cfg) else none
  | .signal t r => enter s t (handlerOps cfg r)

/-- Every interleaving of the threads, and signals at every moment, at every thread. -/
def lockSystem (cfg : LockConfig) : TransitionSystem LockState LockAction where
  init s := ∃ snapshot found, s = lockInitial cfg snapshot found
  step s a s' := lockAct cfg s a = some s'

/-! ## Every region is a wait with its post -/

/-- A wait, a post, or a call that is a cancellation point. -/
def isWork : LockOp → Bool
  | .wait _ | .post _ | .point => true
  | _ => false

/-- Complete regions and calls outside them, and nothing else. -/
structure Regular (ops : List LockOp) : Prop where
  outside : Outside ops
  work : ∀ op ∈ ops, isWork op = true

theorem Regular.append {ops ops' : List LockOp} (h : Regular ops) (h' : Regular ops') :
    Regular (ops ++ ops') :=
  ⟨h.outside.append h'.outside, List.forall_mem_append.mpr ⟨h.work, h'.work⟩⟩

theorem Regular.noBare {ops : List LockOp} (h : Regular ops) (l : TableLock) : .bare l ∉ ops :=
  fun hmem => nomatch h.work _ hmem

theorem regular_nil : Regular [] := ⟨.nil, by rintro op ⟨⟩⟩

theorem regular_region (l : TableLock) (n : Nat) : Regular (region l n) := by
  refine ⟨.region .nil, fun op hmem => ?_⟩
  simp only [region, List.mem_cons, List.mem_append, List.mem_replicate, List.not_mem_nil,
    or_false] at hmem
  rcases hmem with rfl | ⟨-, rfl⟩ | rfl <;> rfl

theorem regular_points (n : Nat) : Regular (points n) := by
  refine ⟨?_, fun op hmem => ?_⟩
  · induction n with
    | zero => exact .nil
    | succ n ih => exact .plain rfl ih
  · rw [(List.mem_replicate.mp hmem).2]
    rfl

theorem regular_updateRegion (cfg : LockConfig) (l : TableLock) (found : Bool) (n : Nat) :
    Regular (updateRegion cfg l found n) := by
  unfold updateRegion
  split
  · exact regular_points n
  · exact regular_region l n

theorem regular_updateStatOps (cfg : LockConfig) (found : Bool) :
    Regular (updateStatOps cfg found) := (regular_points 3).append (regular_updateRegion ..)

theorem regular_serialize (run : CleanupRun) : Regular (statsdSerializeOps run) :=
  (regular_region ..).append ((regular_region ..).append ((regular_region ..).append
    ((regular_region ..).append (regular_points _))))

theorem regular_insertOps (l : TableLock) (log n : Nat) : Regular (insertOps l log n) := by
  induction n with
  | zero => exact regular_nil
  | succ n ih => exact (regular_points log).append ((regular_region l 0).append ih)

theorem regular_deserialize (snapshot : SnapshotFile) :
    Regular (statsdDeserializeOps snapshot) := by
  cases snapshot with
  | missing => exact regular_points 1
  | skipped => exact regular_points 6
  | loaded stats timers gauges counters =>
    exact (regular_points 6).append ((regular_insertOps ..).append ((regular_insertOps ..).append
      ((regular_insertOps ..).append (regular_insertOps ..))))

/-- What `cleanup` does once it has cancelled the threads. -/
theorem cleanupOps_eq (cfg : LockConfig) (run : CleanupRun) : ∃ rest, Regular rest ∧
    cleanupOps cfg run =
      [.cancel .flush, .cancel .udp, .cancel .mgmt, .cancel .queue] ++ rest := by
  refine ⟨_, (regular_points _).append (Regular.append ?_ (regular_points 2)), rfl⟩
  split
  · exact (regular_points 1).append ((regular_serialize run).append (regular_points 1))
  · exact regular_nil

theorem outside_endOps (cfg : LockConfig) (run : CleanupRun) : Outside (endOps cfg run) := by
  obtain ⟨rest, hrest, heq⟩ := cleanupOps_eq cfg run
  have hcancel : Outside (cleanupOps cfg run) := by
    rw [heq]
    exact .plain rfl (.plain rfl (.plain rfl (.plain rfl hrest.outside)))
  exact (regular_points 1).outside.append (hcancel.append (.plain rfl .nil))

theorem mem_endOps {cfg : LockConfig} {run : CleanupRun} {op : LockOp}
    (h : op ∈ endOps cfg run) :
    isWork op = true ∨ op = .exit ∨ ∃ t, t ≠ .main ∧ op = .cancel t := by
  obtain ⟨rest, hrest, heq⟩ := cleanupOps_eq cfg run
  rw [endOps, heq] at h
  simp only [List.mem_append, List.mem_cons, List.not_mem_nil, or_false] at h
  rcases h with h | ((rfl | rfl | rfl | rfl) | h) | rfl
  · exact .inl ((regular_points 1).work _ h)
  · exact .inr (.inr ⟨.flush, by decide, rfl⟩)
  · exact .inr (.inr ⟨.udp, by decide, rfl⟩)
  · exact .inr (.inr ⟨.mgmt, by decide, rfl⟩)
  · exact .inr (.inr ⟨.queue, by decide, rfl⟩)
  · exact .inl (hrest.work _ h)
  · exact .inr (.inl rfl)

theorem bare_notMem_endOps (cfg : LockConfig) (run : CleanupRun) (l : TableLock) :
    .bare l ∉ endOps cfg run := by
  intro h
  rcases mem_endOps h with h | h | ⟨t, -, h⟩ <;> cases h

def LockCall.isDieWithError : LockCall → Bool
  | .dieWithError _ => true
  | _ => false

/-- A call ends the process at once, ends it after a `cleanup`, or only works. -/
theorem LockCall.ops_cases (cfg : LockConfig) (c : LockCall) : c.ops cfg = [.exit] ∨
    c.isDieWithError = true ∧ (∃ run, c.ops cfg = endOps cfg run) ∨ Regular (c.ops cfg) := by
  cases c with
  | point => exact .inr (.inr (regular_points 1))
  | updateStat found => exact .inr (.inr (regular_updateStatOps cfg found))
  | updateCounter found => exact .inr (.inr ((regular_points 2).append (regular_updateRegion ..)))
  | updateGaugePlusminus found plusminus =>
    refine .inr (.inr ?_)
    simp only [ops, updateGaugePlusminusOps]
    split
    · exact (regular_points 4).append (regular_updateRegion ..)
    · exact (regular_points _).append (regular_updateRegion ..)
  | updateTimer found => exact .inr (.inr ((regular_points 4).append (regular_updateRegion ..)))
  | clearCounter => exact .inr (.inr (regular_region _ _))
  | sortTimer count =>
    refine .inr (.inr ?_)
    simp only [ops]
    split
    · exact regular_region _ _
    · exact regular_nil
  | dieWithError run => exact .inr (.inl ⟨rfl, run, rfl⟩)
  | exit => exact .inl rfl

/-! ## The units of the locks -/

/-- The units of a lock: `init_stats` makes a second one of `stats_lock`. -/
def lockTotal (l : TableLock) : Nat := if l = .stats then 2 else 1

/-- No unit is lost or made, and the only bare post is the one of `init_stats`, which `main` makes
once. -/
structure LockInvariant (s : LockState) : Prop where
  sound : Sound lockTotal s
  bare : ∀ t l, (s.threads t).ops.count (.bare l) ≤ if t = .main ∧ l = .stats then 1 else 0

theorem Regular.count_bare {ops : List LockOp} (h : Regular ops) (l : TableLock) :
    ops.count (.bare l) = 0 := List.count_eq_zero_of_not_mem (h.noBare l)

/-- What `main` does before and after the bare post. -/
theorem mainOps_eq (cfg : LockConfig) (snapshot : SnapshotFile) (found : Bool × Bool × Bool) :
    ∃ before after, Regular before ∧ Regular after ∧ mainOps cfg snapshot found =
      before ++ .bare .stats ::
        (after ++ [.start .udp, .start .mgmt, .start .flush, .start .queue]) := by
  have hload : Regular (if cfg.serializeFile && !cfg.clearStats then
      points 1 ++ statsdDeserializeOps snapshot else []) := by
    split
    · exact (regular_points 1).append (regular_deserialize snapshot)
    · exact regular_nil
  refine ⟨_, _, hload, (regular_updateStatOps cfg found.1).append ((regular_updateStatOps cfg
    found.2.1).append (regular_updateStatOps cfg found.2.2)), ?_⟩
  rw [mainOps, initStatsOps, List.append_assoc, List.cons_append]

theorem lockInvariant_initial (cfg : LockConfig) (snapshot : SnapshotFile)
    (found : Bool × Bool × Bool) : LockInvariant (lockInitial cfg snapshot found) := by
  obtain ⟨before, after, hbefore, hafter, heq⟩ := mainOps_eq cfg snapshot found
  have hcount : ∀ l, (mainOps cfg snapshot found).count (.bare l) =
      if l = .stats then 1 else 0 := by
    intro l
    rw [heq, List.count_append, List.count_cons, List.count_append, hbefore.count_bare,
      hafter.count_bare]
    cases l <;> rfl
  refine ⟨⟨fun t => .inl ?_, fun l => ?_⟩, fun t l => ?_⟩
  · cases t with
    | main =>
      refine ⟨rfl, ?_⟩
      show Outside (mainOps cfg snapshot found)
      rw [heq]
      exact hbefore.outside.append (.plain rfl (hafter.outside.append
        (.plain rfl (.plain rfl (.plain rfl (.plain rfl .nil))))))
    | _ => exact ⟨rfl, .nil⟩
  -- of all threads only `main` has something to do
  · have hmain : ∑ t, ((lockInitial cfg snapshot found).threads t).units l =
        ((lockInitial cfg snapshot found).threads .main).units l := by
      refine Finset.sum_eq_single_of_mem _ (Finset.mem_univ _) fun t _ ht => ?_
      simp [lockInitial, ht, unstarted, Thread.units]
    rw [hmain]
    show 1 + (0 + (mainOps cfg snapshot found).count (.bare l)) = lockTotal l
    rw [hcount, lockTotal]
    split <;> rfl
  · cases t with
    | main =>
      show (mainOps cfg snapshot found).count (.bare l) ≤ _
      rw [hcount]
      simp
    | _ => exact Nat.zero_le _

/-- What a thread enters: a call, or a handler. -/
theorem LockInvariant.enter {s s' : LockState} {t : ThreadId} {ops : List LockOp}
    (h : LockInvariant s) (houtside : Outside ops) (hbare : ∀ l, .bare l ∉ ops)
    (hinside : (s.threads t).inside = []) (henter : enter s t ops = some s') :
    LockInvariant s' := by
  refine ⟨h.sound.enter houtside hbare hinside henter, fun u l => ?_⟩
  rw [count_bare_enter hbare henter]
  exact h.bare u l

/-- A thread that has nothing left to do is in no region. -/
theorem LockInvariant.inside_eq_nil {s : LockState} {t : ThreadId} (h : LockInvariant s)
    (hops : (s.threads t).ops = []) : (s.threads t).inside = [] := by
  rcases h.sound.shape t with ⟨hinside, -⟩ | ⟨l, n, rest, -, hregion, -⟩
  · exact hinside
  · rw [hops] at hregion
    cases n <;> cases hregion

/-- **An action** keeps the invariant, if a signal finds its thread in no region.  In a region the
handler would nest its own. -/
theorem LockInvariant.act {cfg : LockConfig} {s s' : LockState} {a : LockAction}
    (h : LockInvariant s) (hsignal : ∀ t r, a = .signal t r → (s.threads t).inside = [])
    (hact : lockAct cfg s a = some s') : LockInvariant s' := by
  cases a with
  | run t => exact ⟨h.sound.run hact, fun u l => (count_bare_run hact u l).trans (h.bare u l)⟩
  | call t c =>
    simp only [lockAct] at hact
    split at hact
    · rename_i hcall
      have hinside := h.inside_eq_nil hcall.2
      rcases c.ops_cases cfg with hexit | ⟨-, r, hend⟩ | hregular
      · rw [hexit] at hact
        exact h.enter (.plain rfl .nil) (fun l => by simp) hinside hact
      · rw [hend] at hact
        exact h.enter (outside_endOps cfg r) (bare_notMem_endOps cfg r) hinside hact
      · exact h.enter hregular.outside hregular.noBare hinside hact
    · cases hact
  | signal t r =>
    exact h.enter (outside_endOps cfg r) (bare_notMem_endOps cfg r) (hsignal t r rfl) hact

/-- The threads between their wait and their post on `l`.  A thread is there as well while it waits
to be scheduled. -/
def holders (s : LockState) (l : TableLock) : Nat :=
  (Finset.univ.filter fun t => l ∈ (s.threads t).inside).card

/-- The bare posts to come are main's. -/
theorem LockInvariant.sum_bare {s : LockState} (h : LockInvariant s) (l : TableLock) :
    ∑ t, (s.threads t).ops.count (.bare l) = (s.threads .main).ops.count (.bare l) := by
  refine Finset.sum_eq_single_of_mem _ (Finset.mem_univ _) fun t _ ht => ?_
  have hle := h.bare t l
  rw [if_neg fun hmain => ht hmain.1] at hle
  exact Nat.le_zero.mp hle

/-- The units of a lock are its value, the threads in its regions, and a post to come. -/
theorem LockInvariant.value_add_holders {s : LockState} (h : LockInvariant s) (l : TableLock) :
    s.value l + holders s l + (s.threads .main).ops.count (.bare l) = lockTotal l := by
  -- a thread is in one region at most
  have hinside : ∀ t, (s.threads t).inside.count l = if l ∈ (s.threads t).inside then 1 else 0 := by
    intro t
    rcases h.sound.shape t with ⟨hnil, -⟩ | ⟨k, n, rest, hone, -⟩
    · rw [hnil]
      rfl
    · rw [hone]
      by_cases hk : l = k
      · simp [hk]
      · simp [hk, List.count_cons_of_ne (Ne.symm hk)]
  have hunits := h.sound.units l
  have hsum : ∑ t, (s.threads t).units l = holders s l + (s.threads .main).ops.count (.bare l) := by
    rw [holders, Finset.card_filter, ← h.sum_bare, ← Finset.sum_add_distrib]
    exact Finset.sum_congr rfl fun t _ => by rw [Thread.units, hinside]
  omega

/-! ## Exclusion -/

def LockAction.isSignal : LockAction → Bool
  | .signal _ _ => true
  | _ => false

/-- The threads act, and no signal is delivered, so that no `cleanup` is run by a handler. -/
def NoSignals (_ : LockState) (a : LockAction) : Prop := a.isSignal = false

instance (s : LockState) (a : LockAction) : Decidable (NoSignals s a) :=
  inferInstanceAs (Decidable (a.isSignal = false))

theorem lockInvariant_reachable {cfg : LockConfig} {s : LockState}
    (hr : ((lockSystem cfg).restrict NoSignals).Reachable s) : LockInvariant s := by
  refine hr.invariant ?_ fun s a s' h hs => ?_
  · rintro s ⟨snapshot, found, rfl⟩
    exact lockInvariant_initial cfg snapshot found
  · refine h.act (fun t r hsignal => ?_) hs.1
    subst hsignal
    cases hs.2

/-- **Exclusion.**  In every state that the threads reach, the value of a lock and the
threads in its regions are one exactly if the lock is not `stats_lock`, or `init_stats` has
not posted it yet. -/
theorem lock_excludes_iff {cfg : LockConfig} {s : LockState}
    (hr : ((lockSystem cfg).restrict NoSignals).Reachable s) (l : TableLock) :
    s.value l + holders s l = 1 ↔ l ≠ .stats ∨ .bare .stats ∈ (s.threads .main).ops := by
  have hinv := lockInvariant_reachable hr
  have hunits := hinv.value_add_holders l
  have hle := hinv.bare .main l
  rw [lockTotal] at hunits
  by_cases hl : l = .stats
  · subst hl
    rw [if_pos rfl] at hunits
    rw [if_pos ⟨rfl, rfl⟩] at hle
    have hmem : .bare .stats ∈ (s.threads .main).ops ↔
        0 < (s.threads .main).ops.count (.bare .stats) := List.count_pos_iff.symm
    simp only [ne_eq, not_true_eq_false, false_or, hmem]
    omega
  · rw [if_neg hl] at hunits
    rw [if_neg fun h => hl h.2] at hle
    simp only [ne_eq, hl, not_false_eq_true, true_or, iff_true]
    omega

/-- No option set. -/
def plainConfig : LockConfig := ⟨false, false, false⟩

/-- What the actions `as` lead to from the start. -/
theorem exists_reachable_of_actions {as : List LockAction} {p : LockState → Prop}
    [DecidablePred p] (h : ((as.foldlM (guarded (lockAct plainConfig) NoSignals)
      (lockInitial plainConfig .missing (false, false, false))).any fun s => p s) = true) :
    ∃ s, ((lockSystem plainConfig).restrict NoSignals).Reachable s ∧ p s := by
  obtain ⟨s, hs, hp⟩ := (Option.any_eq_true _ _).mp h
  have hstart : ((lockSystem plainConfig).restrict NoSignals).Reachable
      (lockInitial plainConfig .missing (false, false, false)) := .start ⟨_, _, rfl⟩
  exact ⟨s, hstart.foldlM (fun _ _ _ => guarded_eq_some) hs, of_decide_eq_true hp⟩

/-- The process starts, and a sample is being added to a timer: the queue thread has `timers_lock`.
-/
def oneUpdate : List LockAction :=
  List.replicate 20 (.run .main) ++
    (.call .queue (.updateTimer true) :: List.replicate 5 (.run .queue))

/-- The theorem at a state with a thread in a region of the lock. -/
theorem lock_excludes_oneUpdate : ∃ s, ((lockSystem plainConfig).restrict NoSignals).Reachable s ∧
    holders s .timers = 1 ∧ s.value .timers + holders s .timers = 1 := by
  obtain ⟨s, hs, hholders⟩ := @exists_reachable_of_actions oneUpdate
    (fun s => holders s .timers = 1) _ (by decide +kernel)
  exact ⟨s, hs, hholders, (lock_excludes_iff hs .timers).mpr (.inl (by decide))⟩

/-- The process starts, and two threads update a stat, each of them behind its wait. -/
def twoUpdates : List LockAction :=
  List.replicate 20 (.run .main) ++
    (.call .flush (.updateStat true) :: List.replicate 4 (.run .flush)) ++
    (.call .queue (.updateStat true) :: List.replicate 4 (.run .queue))

/-- Both are in regions of `stats_lock`. -/
theorem stats_lock_admits_two : ∃ s, ((lockSystem plainConfig).restrict NoSignals).Reachable s ∧
    holders s .stats = 2 :=
  @exists_reachable_of_actions twoUpdates (fun s => holders s .stats = 2) _ (by decide +kernel)

end StatsdC
