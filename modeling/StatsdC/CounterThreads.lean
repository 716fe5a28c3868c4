import Mathlib.Algebra.BigOperators.Group.List.Basic
import Mathlib.Algebra.Field.Rat
import StatsdC.Flush
import StatsdC.Lib.TransitionSystem

/-!
# Counters between two threads

The queue thread calls `update_counter` while the flush thread goes over the counters.

**What is one step.**  A lock-protected region is one step, and so is each read outside the lock:
the lookup of an update, the two reads of a list pointer that `HASH_ITER` does ahead of the loop
body, and each read of `s_counter->value`.  A read or write of a `long double` is not split, and
neither is a region, so an unlocked read finds a counter before an update or after it and nothing
in between.  A thread does its steps in the order of the program, and the schedule is any list of
actions of the two (`system`).

**What is proved.**  The flush thread reads a total, writes it to its report, and clears the
counter in a later step.  An addition to the counter in between is in no report and is cleared with
the rest (`late_addition_lost`).  In every run without such an addition, what has been reported and
what is stored add up to what has been applied (`counts_conserved`).  That is with Graphite on,
whose lines are what is added up, and for a counter that is not just between its line and its
clearing.  Without Graphite a pass reports no count at all and clears it all the same
(`unreported_count_lost`).  Uninterrupted, the steps of an update and of a round of the loop are the
sequential functions (`update_alone`, `round_alone`).

**What is left out.**  The other tables, the arithmetic of a rate, cancellation, and the writes to
the text of the report; the numbers are exact.
-/

namespace StatsdC
open OrderedTable

/-- Where the queue thread is in `update_counter`.  A call holds its arguments, and from its lookup
on the entry it has found. -/
inductive UpdatePc (α : Type) where
  /-- Outside `update_counter`. -/
  | idle
  /-- `HASH_FIND_STR( counters, key, c )` -/
  | find (key : CString) (value sampleRate : α)
  /-- The locked addition to the entry `c`. -/
  | add (key : CString) (c : Nat) (value sampleRate : α)
  /-- The locked `HASH_ADD_STR` of a new entry. -/
  | insert (key : CString) (value sampleRate : α)

/-- Where the flush thread is in its loop over the counters.  `el` is `s_counter`,
`tmp` is the entry after it as `HASH_ITER` read it, and `value` is the rate. -/
inductive FlushPc (α : Type) where
  /-- Outside the loop. -/
  | sleeping
  /-- Reads `tmp` for the first time. -/
  | readTmp (el : Option Nat)
  /-- `value = s_counter->value / flush_interval` -/
  | readRate (el : Nat) (tmp : Option Nat)
  /-- Reads `s_counter->value` for the Graphite lines. -/
  | readTotal (el : Nat) (tmp : Option Nat) (value : α)
  /-- Reads `s_counter->value` for the Ganglia messages. -/
  | readGmetric (el : Nat) (tmp : Option Nat) (value : α)
  /-- The locked `s_counter->value = 0`. -/
  | clear (el : Nat) (tmp : Option Nat)
  /-- Reads `tmp` for the next round. -/
  | next (tmp : Option Nat)

/-- The shared table, the two threads, and what a run has done so far.  The last two fields are
observations, which no step reads. -/
structure CounterThreads (α : Type) where
  counters : List (StatsdCounter α)
  updatePc : UpdatePc α
  flushPc : FlushPc α
  /-- The time of the pass. -/
  ts : Int
  /-- What all passes have reported. -/
  report : Report α
  /-- The updates applied: key, value and sample rate. -/
  applied : List (CString × α × α)

namespace CounterThreads

section Machine
variable {α : Type} [Field α] [DecidableEq α] (cfg : FlushConfig)

/-- No counters, both threads outside. -/
def initial : CounterThreads α := ⟨[], .idle, .sleeping, 0, .empty, []⟩

/-- One atomic step of a running `update_counter`: the lookup, and then the locked addition or
insertion.  A key that does not fit its field has no step. -/
def updateStep (s : CounterThreads α) : Option (CounterThreads α) :=
  match s.updatePc with
  | .idle => none
  | .find key value sampleRate =>
    match find StatsdCounter.key s.counters key, strcpyKey key with
    | some c, _ => some { s with updatePc := .add key c value sampleRate }
    | none, .ok key => some { s with updatePc := .insert key value sampleRate }
    | none, .error _ => none
  | .add key c value sampleRate =>
    some { s with
      counters := s.counters.modify c fun c =>
        { c with value := c.value + contribution value sampleRate }
      updatePc := .idle
      applied := s.applied ++ [(key, value, sampleRate)] }
  | .insert key value sampleRate =>
    some { s with
      counters := s.counters ++ [⟨key, contribution value sampleRate⟩]
      updatePc := .idle
      applied := s.applied ++ [(key, value, sampleRate)] }

/-- The entry after `i` in the list.  Entries are appended only, so an entry keeps its position. -/
def nextOf (counters : List (StatsdCounter α)) (i : Nat) : Option Nat :=
  if i + 1 < counters.length then some (i + 1) else none

/-- The loop condition, once `el` and `tmp` are known. -/
def loopTest (el tmp : Option Nat) : FlushPc α :=
  match el with
  | none => .sleeping
  | some el => .readRate el tmp

/-- One atomic step of the loop over the counters, of which only the last takes the lock. -/
def flushStep (s : CounterThreads α) : Option (CounterThreads α) :=
  match s.flushPc with
  | .sleeping => none
  | .readTmp el => some { s with flushPc := loopTest el (el.bind (nextOf s.counters)) }
  | .readRate el tmp =>
    s.counters[el]?.map fun c =>
      { s with flushPc := .readTotal el tmp (c.value / (cfg.flushInterval : α)) }
  | .readTotal el tmp value =>
    s.counters[el]?.map fun c =>
      { s with
        flushPc := .readGmetric el tmp value
        report := { s.report with
          graphite := s.report.graphite ++ (reportValue cfg s.ts c.key value c.value
            "stats_counts_".toList "count".toList).graphite } }
  | .readGmetric el tmp value =>
    s.counters[el]?.map fun c =>
      { s with
        flushPc := .clear el tmp
        report := { s.report with
          gmetric := s.report.gmetric ++ (reportValue cfg s.ts c.key value c.value
            "stats_counts_".toList "count".toList).gmetric } }
  | .clear el tmp =>
    some { s with
      counters := s.counters.modify el fun c => { c with value := 0 }
      flushPc := .next tmp }
  | .next tmp => some { s with flushPc := loopTest tmp (tmp.bind (nextOf s.counters)) }

/-- What a schedule can do next. -/
inductive Action (α : Type) where
  /-- The queue thread calls `update_counter`. -/
  | callUpdate (key : CString) (value sampleRate : α)
  /-- The queue thread takes a step of its call. -/
  | update
  /-- The flush thread enters the loop, in a pass at time `ts`. -/
  | startPass (ts : Int)
  /-- The flush thread takes a step of the loop. -/
  | flush

/-- The state after an action; `none` when the thread cannot take it. -/
def act (s : CounterThreads α) : Action α → Option (CounterThreads α)
  | .callUpdate key value sampleRate =>
    match s.updatePc with
    | .idle => some { s with updatePc := .find key value sampleRate }
    | _ => none
  | .update => updateStep s
  | .startPass ts =>
    match s.flushPc with
    | .sleeping =>
      some { s with flushPc := .readTmp (if s.counters = [] then none else some 0), ts }
    | _ => none
  | .flush => flushStep cfg s

/-- Every interleaving of the two threads, from empty tables on. -/
def system : TransitionSystem (CounterThreads α) (Action α) where
  init s := s = initial
  step s a s' := act cfg s a = some s'

/-! ## What is to be conserved -/

/-- What an update contributes: its value, divided by the sample rate unless that is
zero. -/
def scaled (value sampleRate : α) : α := if sampleRate = 0 then value else value / sampleRate

/-- The sum of the contributions applied to `key`, by updates whose locked part has been done. -/
def appliedTotal (applied : List (CString × α × α)) (key : CString) : α :=
  (applied.map fun u => if u.1 = key then scaled u.2.1 u.2.2 else 0).sum

/-- The number in a report. -/
def valueOf : MetricValue α → α
  | .real x => x
  | .int n => n

/-- The sum of what the lines `stats_counts_<key>` report, over all passes so far. -/
def emittedTotal (graphite : List (GraphiteLine α)) (key : CString) : α :=
  (graphite.map fun line =>
    if line.path = "stats_counts_".toList ++ key then valueOf line.value else 0).sum

/-- The value stored for `key`, zero if there is no entry. -/
def stored (counters : List (StatsdCounter α)) (key : CString) : α :=
  match lookup StatsdCounter.key counters key with
  | some c => c.value
  | none => 0

/-- The entry whose total has been reported and that is not yet cleared, while the flush thread is
between these two steps. -/
def pending : FlushPc α → Option Nat
  | .readGmetric el _ _ | .clear el _ => some el
  | _ => none

/-- The flush thread is between the report on `key` and clearing it. -/
def Reporting (counters : List (StatsdCounter α)) (pc : FlushPc α) (key : CString) : Prop :=
  ∃ i, pending pc = some i ∧ (counters.map StatsdCounter.key)[i]? = some key

/-- The condition on a step: it is no addition to a counter that has been reported and not yet
cleared.  It can be told from the state before the step. -/
def NoLateAddition (s : CounterThreads α) (a : Action α) : Prop :=
  ∀ key c value sampleRate, a = .update → s.updatePc = .add key c value sampleRate →
    pending s.flushPc ≠ some c

/-! ## The invariant -/

/-- The entries that the flush thread points to, which have to be there when it follows its
pointers. -/
def entries : FlushPc α → List Nat
  | .sleeping => []
  | .readTmp el => el.toList
  | .readRate el tmp | .readTotal el tmp _ | .readGmetric el tmp _ | .clear el tmp =>
    el :: tmp.toList
  | .next tmp => tmp.toList

/-- What the queue thread knows of the table: the entry it has found is still that of its key, and a
key it has not found is still missing, as no other thread inserts. -/
def UpdateAt (counters : List (StatsdCounter α)) : UpdatePc α → Prop
  | .idle | .find _ _ _ => True
  | .add key c _ _ => (counters.map StatsdCounter.key)[c]? = some key
  | .insert key _ _ => key ∉ counters.map StatsdCounter.key

/-- **The invariant.**  Keys are unique, the pointers of both threads are to entries,
and each key's reports and stored value add up to its updates, a value that is
reported and not yet cleared counting once. -/
structure Consistent (s : CounterThreads α) : Prop where
  nodup : (s.counters.map StatsdCounter.key).Nodup
  updateAt : UpdateAt s.counters s.updatePc
  entries_lt : ∀ i ∈ entries s.flushPc, i < s.counters.length
  reported : ∀ key, Reporting s.counters s.flushPc key →
    emittedTotal s.report.graphite key = appliedTotal s.applied key
  conserved : ∀ key, ¬ Reporting s.counters s.flushPc key →
    emittedTotal s.report.graphite key + stored s.counters key = appliedTotal s.applied key

variable {cfg}

theorem contribution_eq_scaled (value sampleRate : α) :
    contribution value sampleRate = scaled value sampleRate := by
  simp only [contribution, scaled, beq_iff_eq, mul_one_div]

/-! ## Totals after a step -/

theorem appliedTotal_append (applied : List (CString × α × α)) (key k : CString)
    (value sampleRate : α) :
    appliedTotal (applied ++ [(key, value, sampleRate)]) k =
      appliedTotal applied k + if key = k then scaled value sampleRate else 0 := by
  rw [appliedTotal, List.map_append, List.sum_append, appliedTotal, List.map_singleton,
    List.sum_singleton]

omit [DecidableEq α] in
/-- The two lines on a counter report its total under `stats_counts_`. -/
theorem emittedTotal_append (hg : cfg.enableGraphite = true) (graphite : List (GraphiteLine α))
    (ts : Int) (c : StatsdCounter α) (rate : α) (k : CString) :
    emittedTotal (graphite ++ (reportValue cfg ts c.key rate c.value "stats_counts_".toList
      "count".toList).graphite) k = emittedTotal graphite k + if c.key = k then c.value else 0 := by
  have hrate : ¬ "stats.".toList ++ c.key = "stats_counts_".toList ++ k := by
    intro heq
    have hsixth := congrArg (·[5]?) heq
    simp at hsixth
  simp only [emittedTotal, reportValue, Report.enabled, hg, if_true, List.map_append,
    List.sum_append, List.map_cons, List.map_nil, List.sum_cons, List.sum_nil, hrate, if_false,
    List.append_cancel_left_eq, valueOf, zero_add, add_zero]

variable {counters : List (StatsdCounter α)} {i : Nat} {c : StatsdCounter α}

omit [DecidableEq α] in
theorem stored_eq (hnd : (counters.map StatsdCounter.key).Nodup) (hc : counters[i]? = some c) :
    stored counters c.key = c.value := by
  rw [stored, lookup_getElem? hnd hc]

omit [DecidableEq α] in
theorem stored_modify (hnd : (counters.map StatsdCounter.key).Nodup) (hc : counters[i]? = some c)
    (f : α → α) (k : CString) :
    stored (counters.modify i fun c => { c with value := f c.value }) k =
      if c.key = k then f c.value else stored counters k := by
  have hkey : ∀ c : StatsdCounter α, StatsdCounter.key { c with value := f c.value } = c.key :=
    fun _ => rfl
  unfold stored
  rw [lookup_modify hnd hc hkey]
  by_cases hk : c.key = k <;> simp [hk]

omit [DecidableEq α] in
theorem stored_append (hc : c.key ∉ counters.map StatsdCounter.key) (k : CString) :
    stored (counters ++ [c]) k = stored counters k + if c.key = k then c.value else 0 := by
  unfold stored
  rw [lookup_append hc]
  by_cases hk : c.key = k
  · rw [← hk, lookup_eq_none hc]
    simp
  · simp [hk]

omit [Field α] [DecidableEq α] in
theorem keys_modify (f : α → α) (i : Nat) :
    (counters.modify i fun c => { c with value := f c.value }).map StatsdCounter.key =
      counters.map StatsdCounter.key :=
  map_modify fun _ => rfl

omit [Field α] [DecidableEq α] in
theorem getElem?_of_key {key : CString}
    (h : (counters.map StatsdCounter.key)[i]? = some key) :
    ∃ c, counters[i]? = some c ∧ c.key = key := by
  rwa [List.getElem?_map, Option.map_eq_some_iff] at h

/-! ## One step of the queue thread -/

theorem initial_consistent : Consistent (initial : CounterThreads α) := by
  refine ⟨List.nodup_nil, trivial, by simp [initial, entries], fun key hrep => ?_, fun key _ => ?_⟩
  · obtain ⟨i, hi, -⟩ := hrep
    cases hi
  · exact add_zero 0

/-- The locked addition.  Its counter has not been reported and not cleared, so its
stored value grows with the updates. -/
theorem add_consistent {s : CounterThreads α} (h : Consistent s) {key : CString} {c : Nat}
    {value sampleRate : α} (hat : (s.counters.map StatsdCounter.key)[c]? = some key)
    (hlate : pending s.flushPc ≠ some c) :
    Consistent { s with
      counters := s.counters.modify c fun c =>
        { c with value := c.value + contribution value sampleRate }
      updatePc := .idle
      applied := s.applied ++ [(key, value, sampleRate)] } := by
  obtain ⟨e, he, rfl⟩ := getElem?_of_key hat
  have hkeys := @keys_modify α s.counters (· + contribution value sampleRate) c
  -- the counter being reported is another one
  have hnotRep : ¬ Reporting s.counters s.flushPc e.key := by
    rintro ⟨i, hpend, hi⟩
    obtain ⟨e', he', hkey⟩ := getElem?_of_key hi
    exact hlate (index_unique h.nodup he' he hkey ▸ hpend)
  refine ⟨?_, trivial, ?_, fun k hrep => ?_, fun k hrep => ?_⟩
  · rw [hkeys]
    exact h.nodup
  · intro i hi
    rw [List.length_modify]
    exact h.entries_lt i hi
  · rw [Reporting, hkeys] at hrep
    have hne : e.key ≠ k := fun heq => hnotRep (heq ▸ hrep)
    rw [appliedTotal_append, if_neg hne, add_zero]
    exact h.reported k hrep
  · rw [Reporting, hkeys] at hrep
    have hold := h.conserved k hrep
    rw [appliedTotal_append, ← hold, contribution_eq_scaled,
      stored_modify h.nodup he (· + scaled value sampleRate)]
    by_cases hk : e.key = k
    · rw [if_pos hk, if_pos hk, ← hk, stored_eq h.nodup he, add_assoc]
    · rw [if_neg hk, if_neg hk, add_zero]

/-- The locked insertion. -/
theorem insert_consistent {s : CounterThreads α} (h : Consistent s) {key : CString}
    {value sampleRate : α} (hat : key ∉ s.counters.map StatsdCounter.key) :
    Consistent { s with
      counters := s.counters ++ [⟨key, contribution value sampleRate⟩]
      updatePc := .idle
      applied := s.applied ++ [(key, value, sampleRate)] } := by
  have hkeys : (s.counters ++ [(⟨key, contribution value sampleRate⟩ : StatsdCounter α)]).map
      StatsdCounter.key = s.counters.map StatsdCounter.key ++ [key] := List.map_append
  -- the flush thread points to entries in front of the new one
  have hpending : ∀ i, pending s.flushPc = some i →
      i < (s.counters.map StatsdCounter.key).length := by
    intro i hi
    rw [List.length_map]
    refine h.entries_lt i ?_
    cases hpc : s.flushPc <;> rw [hpc] at hi <;> simp_all [pending, entries]
  have hrep : ∀ k, Reporting (s.counters ++ [(⟨key, contribution value sampleRate⟩ :
      StatsdCounter α)]) s.flushPc k ↔ Reporting s.counters s.flushPc k := by
    intro k
    unfold Reporting
    rw [hkeys]
    refine exists_congr fun i => and_congr_right fun hi => ?_
    rw [List.getElem?_append_left (hpending i hi)]
  refine ⟨?_, trivial, ?_, fun k hk => ?_, fun k hk => ?_⟩
  · rw [hkeys]
    exact List.nodup_append.mpr ⟨h.nodup, List.nodup_singleton key, fun a ha b hb hab =>
      hat (List.mem_singleton.mp hb ▸ hab ▸ ha)⟩
  · intro i hi
    rw [List.length_append]
    exact Nat.lt_add_right _ (h.entries_lt i hi)
  · rw [hrep] at hk
    have hne : key ≠ k := by
      obtain ⟨i, -, hi⟩ := hk
      rintro rfl
      exact hat (List.mem_of_getElem? hi)
    rw [appliedTotal_append, if_neg hne, add_zero]
    exact h.reported k hk
  · rw [hrep] at hk
    rw [appliedTotal_append, ← h.conserved k hk, contribution_eq_scaled, stored_append hat,
      add_assoc]

/-- **A step of the queue thread** keeps the invariant, unless it is a late addition.  There is one
case for each of its steps. -/
theorem updateStep_consistent {s s' : CounterThreads α} (h : Consistent s)
    (hlate : NoLateAddition s .update) (hs : updateStep s = some s') : Consistent s' := by
  have hat := h.updateAt
  unfold updateStep at hs
  split at hs
  · cases hs
  · split at hs
    · rename_i hfind
      obtain rfl := Option.some.inj hs
      exact ⟨h.nodup, keys_getElem?_of_find hfind, h.entries_lt, h.reported, h.conserved⟩
    · rename_i hfind hcopy
      obtain rfl := Option.some.inj hs
      obtain rfl := (strcpyKey_eq_ok hcopy).1
      exact ⟨h.nodup, notMem_keys_of_find hfind, h.entries_lt, h.reported, h.conserved⟩
    · cases hs
  · rename_i key c value sampleRate hpc
    rw [hpc] at hat
    obtain rfl := Option.some.inj hs
    exact add_consistent h hat (hlate _ _ _ _ rfl hpc)
  · rename_i key value sampleRate hpc
    rw [hpc] at hat
    obtain rfl := Option.some.inj hs
    exact insert_consistent h hat

/-! ## One step of the flush thread -/

/-- A step that neither reports nor clears: the table is as it was, and no entry is
pending before or after. -/
theorem Consistent.move {s : CounterThreads α} (h : Consistent s) {pc : FlushPc α} {ts : Int}
    (hbefore : pending s.flushPc = none) (hafter : pending pc = none)
    (hentries : ∀ i ∈ entries pc, i < s.counters.length) :
    Consistent { s with flushPc := pc, ts } := by
  have hnot : ∀ {pc : FlushPc α}, pending pc = none → ∀ k, ¬ Reporting s.counters pc k := by
    rintro pc hpc k ⟨i, hi, -⟩
    rw [hpc] at hi
    cases hi
  exact ⟨h.nodup, h.updateAt, hentries, fun k hk => absurd hk (hnot hafter k),
    fun k _ => h.conserved k (hnot hbefore k)⟩

omit [Field α] [DecidableEq α] in
theorem nextOf_lt {counters : List (StatsdCounter α)} {i j : Nat} (h : nextOf counters i = some j) :
    j < counters.length := by
  unfold nextOf at h
  split at h
  · obtain rfl := Option.some.inj h
    assumption
  · cases h

omit [Field α] [DecidableEq α] in
/-- The pointers that the loop condition passes on. -/
theorem loopTest_spec {counters : List (StatsdCounter α)} {el : Option Nat}
    (hel : ∀ i ∈ el.toList, i < counters.length) :
    pending (loopTest (α := α) el (el.bind (nextOf counters))) = none ∧
      ∀ i ∈ entries (loopTest (α := α) el (el.bind (nextOf counters))), i < counters.length := by
  cases el with
  | none => exact ⟨rfl, by simp [loopTest, entries]⟩
  | some el =>
    refine ⟨rfl, fun i hi => ?_⟩
    simp only [loopTest, entries, Option.bind_some, List.mem_cons, Option.mem_toList] at hi
    rcases hi with rfl | hi
    · exact hel i (by simp)
    · exact nextOf_lt hi

/-- The step that reports a total: from now on its counter is pending, and what was stored has been
reported. -/
theorem readTotal_consistent (hg : cfg.enableGraphite = true) {s : CounterThreads α}
    (h : Consistent s) {el : Nat} {tmp : Option Nat} {value : α}
    (hpc : s.flushPc = .readTotal el tmp value) {c : StatsdCounter α}
    (hc : s.counters[el]? = some c) :
    Consistent { s with
      flushPc := .readGmetric el tmp value
      report := { s.report with
        graphite := s.report.graphite ++ (reportValue cfg s.ts c.key value c.value
          "stats_counts_".toList "count".toList).graphite } } := by
  have hnot : ∀ k, ¬ Reporting s.counters s.flushPc k := by
    rintro k ⟨i, hi, -⟩
    rw [hpc] at hi
    cases hi
  have hkey : (s.counters.map StatsdCounter.key)[el]? = some c.key := by
    rw [List.getElem?_map, hc, Option.map_some]
  have hentries := h.entries_lt
  rw [hpc] at hentries
  refine ⟨h.nodup, h.updateAt, hentries, fun k hk => ?_, fun k hk => ?_⟩
  · obtain ⟨i, hi, hik⟩ := hk
    obtain rfl := Option.some.inj hi
    obtain rfl := Option.some.inj (hkey.symm.trans hik)
    rw [emittedTotal_append hg, if_pos rfl, ← h.conserved _ (hnot _), stored_eq h.nodup hc]
  · have hne : c.key ≠ k := fun heq => hk ⟨el, rfl, heq ▸ hkey⟩
    rw [emittedTotal_append hg, if_neg hne, add_zero]
    exact h.conserved k (hnot k)

/-- The locked clearing: the counter that was pending starts over, and nothing has been added to it
meanwhile. -/
theorem clear_consistent {s : CounterThreads α} (h : Consistent s) {el : Nat} {tmp : Option Nat}
    (hpc : s.flushPc = .clear el tmp) :
    Consistent { s with
      counters := s.counters.modify el fun c => { c with value := 0 }
      flushPc := .next tmp } := by
  have hkeys := @keys_modify α s.counters (fun _ => 0) el
  have hentries := h.entries_lt
  rw [hpc] at hentries
  have hlt : el < s.counters.length := hentries el (List.mem_cons_self ..)
  have hc := List.getElem?_eq_getElem hlt
  -- the counter that is cleared is the one being reported
  have hrep : ∀ k, Reporting s.counters s.flushPc k ↔ s.counters[el].key = k := by
    intro k
    rw [hpc]
    constructor
    · rintro ⟨i, hi, hik⟩
      obtain rfl := Option.some.inj hi
      rw [List.getElem?_map, hc] at hik
      exact Option.some.inj hik
    · intro hk
      exact ⟨el, rfl, by rw [List.getElem?_map, hc, Option.map_some, hk]⟩
  refine ⟨?_, ?_, ?_, fun k hk => ?_, fun k _ => ?_⟩
  · rw [hkeys]
    exact h.nodup
  · have hat := h.updateAt
    show UpdateAt _ s.updatePc
    cases hupd : s.updatePc with
    | idle => trivial
    | find key value sampleRate => trivial
    | add key c value sampleRate =>
      rw [hupd] at hat
      rw [UpdateAt, hkeys]
      exact hat
    | insert key value sampleRate =>
      rw [hupd] at hat
      rw [UpdateAt, hkeys]
      exact hat
  · intro i hi
    rw [List.length_modify]
    exact hentries i (List.mem_cons_of_mem _ hi)
  · obtain ⟨i, hi, -⟩ := hk
    cases hi
  · rw [stored_modify h.nodup hc (fun _ => 0)]
    by_cases hk : s.counters[el].key = k
    -- nothing is stored now, and all of it is in the report
    · rw [if_pos hk, add_zero]
      exact h.reported k ((hrep k).mpr hk)
    · rw [if_neg hk]
      exact h.conserved k fun hmem => hk ((hrep k).mp hmem)

/-- **A step of the flush thread** keeps the invariant. -/
theorem flushStep_consistent (hg : cfg.enableGraphite = true) {s s' : CounterThreads α}
    (h : Consistent s) (hs : flushStep cfg s = some s') : Consistent s' := by
  have hentries := h.entries_lt
  unfold flushStep at hs
  split at hs
  · cases hs
  · rename_i el hpc
    rw [hpc] at hentries
    obtain rfl := Option.some.inj hs
    obtain ⟨hafter, hlt⟩ := loopTest_spec hentries
    exact h.move (by rw [hpc]; rfl) hafter hlt
  · rename_i el tmp hpc
    rw [hpc] at hentries
    obtain ⟨c, -, rfl⟩ := Option.map_eq_some_iff.mp hs
    exact h.move (by rw [hpc]; rfl) rfl hentries
  · rename_i el tmp value hpc
    obtain ⟨c, hc, rfl⟩ := Option.map_eq_some_iff.mp hs
    exact readTotal_consistent hg h hpc hc
  · rename_i el tmp value hpc
    obtain ⟨c, -, rfl⟩ := Option.map_eq_some_iff.mp hs
    -- what is added up are the Graphite lines
    have hrep : ∀ k, Reporting s.counters (.clear el tmp : FlushPc α) k ↔
        Reporting s.counters s.flushPc k := by
      intro k
      rw [hpc]
      rfl
    rw [hpc] at hentries
    exact ⟨h.nodup, h.updateAt, hentries, fun k hk => h.reported k ((hrep k).mp hk),
      fun k hk => h.conserved k fun hmem => hk ((hrep k).mpr hmem)⟩
  · rename_i el tmp hpc
    obtain rfl := Option.some.inj hs
    exact clear_consistent h hpc
  · rename_i tmp hpc
    rw [hpc] at hentries
    obtain rfl := Option.some.inj hs
    obtain ⟨hafter, hlt⟩ := loopTest_spec hentries
    exact h.move (by rw [hpc]; rfl) hafter hlt

theorem act_consistent (hg : cfg.enableGraphite = true) {s s' : CounterThreads α} {a : Action α}
    (h : Consistent s) (hlate : NoLateAddition s a) (hs : act cfg s a = some s') :
    Consistent s' := by
  cases a with
  | callUpdate key value sampleRate =>
    unfold act at hs
    simp only at hs
    split at hs
    · obtain rfl := Option.some.inj hs
      exact ⟨h.nodup, trivial, h.entries_lt, h.reported, h.conserved⟩
    · cases hs
  | update => exact updateStep_consistent h hlate hs
  | startPass ts =>
    unfold act at hs
    simp only at hs
    split at hs
    · rename_i hpc
      obtain rfl := Option.some.inj hs
      refine h.move (by rw [hpc]; rfl) rfl fun i hi => ?_
      simp only [entries] at hi
      split at hi
      · cases hi
      · rename_i hne
        obtain rfl : i = 0 := by simpa using hi
        exact List.length_pos_iff.mpr hne
    · cases hs
  | flush => exact flushStep_consistent hg h hs

/-! ## Conservation -/

/-- **No count is lost or reported twice** in a run without late additions: at every
moment, for every key that is not just being reported, what its lines have reported
and what is stored add up to its updates. -/
theorem counts_conserved (hg : cfg.enableGraphite = true) {s : CounterThreads α}
    (h : ((system cfg).restrict NoLateAddition).Reachable s) (key : CString)
    (hkey : ¬ Reporting s.counters s.flushPc key) :
    emittedTotal s.report.graphite key + stored s.counters key = appliedTotal s.applied key := by
  have hinv : Consistent s := by
    refine h.invariant ?_ ?_
    · rintro s rfl
      exact initial_consistent
    · rintro s a s' hi ⟨hs, hlate⟩
      exact act_consistent hg hi hlate hs
  exact hinv.conserved key hkey

end Machine

/-- Actions that can be taken in a row are a run. -/
theorem run_foldlM {α : Type} [Field α] [DecidableEq α] {cfg : FlushConfig}
    {s : CounterThreads α} (as : List (Action α)) (hs : as.foldlM (act cfg) initial = some s) :
    (system cfg).Run as s := by
  induction as using List.reverseRecOn generalizing s with
  | nil =>
    obtain rfl := Option.some.inj hs
    exact .start rfl
  | append_singleton as a ih =>
    rw [List.foldlM_append] at hs
    obtain ⟨s', hs', hlast⟩ := Option.bind_eq_some_iff.mp hs
    rw [List.foldlM_cons] at hlast
    obtain ⟨s'', hact, hnil⟩ := Option.bind_eq_some_iff.mp hlast
    obtain rfl := Option.some.inj hnil
    exact (ih hs').next hact

/-! ## Uninterrupted calls -/

section Alone
variable {α : Type} [Field α] [DecidableEq α]

/-- An uninterrupted `update_counter` is the function on the tables, so that the steps are those of
the function. -/
theorem update_alone {s : CounterThreads α} {t t' : Tables α} {key : CString}
    {value sampleRate : α} (hpc : s.updatePc = .find key value sampleRate)
    (hs : s.counters = t.counters) (ht : updateCounter t key value sampleRate = .ok t') :
    (updateStep s).bind updateStep = some { s with
      counters := t'.counters
      updatePc := .idle
      applied := s.applied ++ [(key, value, sampleRate)] } := by
  obtain ⟨i, hfind, rfl⟩ | ⟨hfind, hlt, rfl⟩ := updateCounter_cases ht
  · simp only [updateStep, hpc, hs, hfind, Option.bind_some]
  · simp only [updateStep, hpc, hs, hfind, strcpyKey_of_lt hlt, Option.bind_some]

omit [DecidableEq α] in
/-- An uninterrupted round of the loop is its body in the sequential pass. -/
theorem round_alone {cfg : FlushConfig} {s : CounterThreads α} {el : Nat} {tmp : Option Nat}
    {c : StatsdCounter α} (hpc : s.flushPc = .readRate el tmp) (hc : s.counters[el]? = some c) :
    ((((flushStep cfg s).bind (flushStep cfg)).bind (flushStep cfg)).bind (flushStep cfg)) =
      some { s with
        counters := s.counters.modify el fun c => (flushCounter cfg s.ts c).1
        report := s.report.append (flushCounter cfg s.ts c).2
        flushPc := .next tmp } := by
  simp only [flushStep, hpc, hc, Option.map_some, Option.bind_some]
  rfl

end Alone

/-! ## Two runs -/

section Runs

/-- Graphite alone, every ten seconds. -/
def graphiteOnly : FlushConfig := ⟨true, false, 10, 90, none⟩

theorem reachable_act {s s' : CounterThreads Rat} {a : Action Rat}
    (h : ((system graphiteOnly).restrict NoLateAddition).Reachable s)
    (hs : act graphiteOnly s a = some s') (hlate : NoLateAddition s a) :
    ((system graphiteOnly).restrict NoLateAddition).Reachable s' := h.next ⟨hs, hlate⟩

/-- The theorem after a count of 3 and a pass over it. -/
theorem counts_conserved_pass :
    ∃ s : CounterThreads Rat, ((system graphiteOnly).restrict NoLateAddition).Reachable s ∧
      s.flushPc = .sleeping ∧ emittedTotal s.report.graphite ['k'] + stored s.counters ['k'] =
        appliedTotal s.applied ['k'] := by
  have h0 : ((system graphiteOnly).restrict NoLateAddition).Reachable
      (initial : CounterThreads Rat) := .start rfl
  have h1 := reachable_act (a := .callUpdate ['k'] 3 0) h0 rfl (by rintro _ _ _ _ ⟨⟩)
  have h2 := reachable_act (a := .update) h1 rfl (by rintro _ _ _ _ - ⟨⟩)
  have h3 := reachable_act (a := .update) h2 rfl (by rintro _ _ _ _ - ⟨⟩)
  have h4 := reachable_act (a := .startPass 0) h3 rfl (by rintro _ _ _ _ ⟨⟩)
  have h5 := reachable_act (a := .flush) h4 rfl (by rintro _ _ _ _ ⟨⟩)
  have h6 := reachable_act (a := .flush) h5 rfl (by rintro _ _ _ _ ⟨⟩)
  have h7 := reachable_act (a := .flush) h6 rfl (by rintro _ _ _ _ ⟨⟩)
  have h8 := reachable_act (a := .flush) h7 rfl (by rintro _ _ _ _ ⟨⟩)
  have h9 := reachable_act (a := .flush) h8 rfl (by rintro _ _ _ _ ⟨⟩)
  have h10 := reachable_act (a := .flush) h9 rfl (by rintro _ _ _ _ ⟨⟩)
  refine ⟨_, h10, rfl, counts_conserved rfl h10 ['k'] ?_⟩
  rintro ⟨i, hi, -⟩
  cases hi

/-- No backend at all, as the daemon starts without an option. -/
def noBackend : FlushConfig := ⟨false, false, 10, 90, none⟩

/-- **Without Graphite a pass reports no count**, and clears it all the same: with both threads
outside and no late addition, 3 has been counted and is nowhere. -/
theorem unreported_count_lost :
    ∃ s : CounterThreads Rat, ((system noBackend).restrict NoLateAddition).Reachable s ∧
      s.flushPc = .sleeping ∧ s.updatePc = .idle ∧
      emittedTotal s.report.graphite ['k'] + stored s.counters ['k'] ≠
        appliedTotal s.applied ['k'] := by
  have hnext : ∀ {s s' : CounterThreads Rat} {a : Action Rat},
      ((system noBackend).restrict NoLateAddition).Reachable s → act noBackend s a = some s' →
      NoLateAddition s a → ((system noBackend).restrict NoLateAddition).Reachable s' :=
    fun h hs hlate => h.next ⟨hs, hlate⟩
  have h0 : ((system noBackend).restrict NoLateAddition).Reachable
      (initial : CounterThreads Rat) := .start rfl
  have h1 := hnext (a := .callUpdate ['k'] 3 0) h0 rfl (by rintro _ _ _ _ ⟨⟩)
  have h2 := hnext (a := .update) h1 rfl (by rintro _ _ _ _ - ⟨⟩)
  have h3 := hnext (a := .update) h2 rfl (by rintro _ _ _ _ - ⟨⟩)
  have h4 := hnext (a := .startPass 0) h3 rfl (by rintro _ _ _ _ ⟨⟩)
  have h5 := hnext (a := .flush) h4 rfl (by rintro _ _ _ _ ⟨⟩)
  have h6 := hnext (a := .flush) h5 rfl (by rintro _ _ _ _ ⟨⟩)
  have h7 := hnext (a := .flush) h6 rfl (by rintro _ _ _ _ ⟨⟩)
  have h8 := hnext (a := .flush) h7 rfl (by rintro _ _ _ _ ⟨⟩)
  have h9 := hnext (a := .flush) h8 rfl (by rintro _ _ _ _ ⟨⟩)
  have h10 := hnext (a := .flush) h9 rfl (by rintro _ _ _ _ ⟨⟩)
  refine ⟨_, h10, rfl, rfl, ?_⟩
  have hscaled : scaled (3 : Rat) 0 = 3 := if_pos rfl
  show (0 : Rat) + 0 ≠ scaled 3 0 + 0
  rw [hscaled]
  norm_num

/-- A pass, and an update that comes between its report and its clearing. -/
def lateAddition : List (Action Rat) :=
  [.callUpdate ['k'] 1 0, .update, .update,
    .startPass 0, .flush, .flush, .flush,
    .callUpdate ['k'] 5 0, .update, .update,
    .flush, .flush, .flush]

/-- **A late addition is lost**: after it, with both threads outside, the pass has
reported 1, nothing is stored, and 6 has been counted. -/
theorem late_addition_lost :
    ∃ s, (system graphiteOnly).Run lateAddition s ∧ s.flushPc = .sleeping ∧ s.updatePc = .idle ∧
      emittedTotal s.report.graphite ['k'] + stored s.counters ['k'] ≠
        appliedTotal s.applied ['k'] := by
  refine ⟨_, run_foldlM lateAddition rfl, rfl, rfl, ?_⟩
  have hcontribution : ∀ value : Rat, contribution value 0 = value := fun _ => if_pos rfl
  have hscaled : ∀ value : Rat, scaled value 0 = value := fun _ => if_pos rfl
  show (0 : Rat) + (contribution 1 0 + 0) + 0 ≠ scaled 1 0 + (scaled 5 0 + 0)
  rw [hcontribution, hscaled, hscaled]
  norm_num

end Runs
end CounterThreads
end StatsdC
