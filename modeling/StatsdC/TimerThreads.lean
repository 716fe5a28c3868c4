import StatsdC.Lib.TransitionSystem
import StatsdC.TableRefinement
import StatsdC.TimerSummary

/-!
# Timers between two threads

The queue thread calls `update_timer` while the flush thread goes over the timers.

**What is one step.**  A region under `timers_lock` is one step, and so is each unlocked access:
the lookup of an update, a round of `HASH_ITER`, which reads the entry after the next one ahead,
and each read of `s_timer->count`.  The steps of a thread come in the order of the program, and
those of the two are interleaved in any way (`system`).

**What is proved.**  The count is tested before the lock is taken, but only a pass makes it
smaller, and the values are taken out in the step that sorts them.  So every sample is in one
sorted array or still in the table (`samples_conserved`), however the steps are interleaved, and
the loop does not get stuck on its way (`flushStep_progress`).  The invariant (`Consistent`) ties
what has happened to what is in the table: for each key, the samples of the calls that have
returned are those that were sorted and those that are held.  Uninterrupted, the steps are the
sequential functions (`update_alone`, `round_alone`).

**What is left out.**  A timer's array is a list and its count has no bound, which is right below
`2 ^ 31` samples between two passes.  That `HASH_ADD` moves no entry and keeps the order of
insertion is shown in `StatsdC.UtHash`.  The other tables and the numbers that are computed from
the samples are not here.
-/

namespace StatsdC
open OrderedTable

/-- Where the queue thread is in `update_timer`, with its arguments and the entry it has found. -/
inductive TimerUpdatePc (α : Type) where
  /-- Outside `update_timer`. -/
  | idle
  /-- `HASH_FIND_STR( timers, key, t )` -/
  | find (key : CString) (value : α)
  /-- The locked region that adds to the entry `t`. -/
  | push (key : CString) (t : Nat) (value : α)
  /-- The locked `HASH_ADD_STR` of a new entry. -/
  | insert (key : CString) (value : α)

/-- Where the flush thread is in its loop over the timers.  `el` is `s_timer` and `tmp`
the entry after it, as `HASH_ITER` read it. -/
inductive TimerFlushPc (α : Type) where
  /-- Outside the loop. -/
  | sleeping
  /-- The loop condition, and the test of `s_timer->count`. -/
  | test (el tmp : Option Nat)
  /-- The locked region: sorts, computes and clears. -/
  | sort (el : Nat) (tmp : Option Nat)
  /-- Reads `s_timer->count` for the Graphite lines. -/
  | readGraphite (el : Nat) (tmp : Option Nat) (summary : TimerSummary α)
  /-- Reads `s_timer->count` for the Ganglia messages. -/
  | readGmetric (el : Nat) (tmp : Option Nat) (summary : TimerSummary α)
  /-- The next round of `HASH_ITER`. -/
  | next (tmp : Option Nat)

/-- The shared table, the two threads, and what a run has done so far: the report, the sorted
arrays, and the calls that have returned. -/
structure TimerThreads (α : Type) where
  timers : List (StatsdTimer α)
  updatePc : TimerUpdatePc α
  flushPc : TimerFlushPc α
  /-- The time of the pass. -/
  ts : Int
  /-- What all passes have reported. -/
  report : Report α
  /-- The arrays that the passes have sorted, each under its key. -/
  sorted : List (CString × List α)
  /-- The samples of the calls that have returned, each under its key. -/
  returned : List (CString × α)

namespace TimerThreads

section Machine
variable {α : Type} [Field α] [LinearOrder α] (firstByte : α → Int) (cfg : FlushConfig)

/-- No timers, both threads outside their calls and loops. -/
def initial : TimerThreads α := ⟨[], .idle, .sleeping, 0, .empty, [], []⟩

/-- One atomic step of a running `update_timer`: the lookup, and then the locked region, after which
the call returns. -/
def updateStep (s : TimerThreads α) : Option (TimerThreads α) :=
  match s.updatePc with
  | .idle => none
  | .find key value =>
    match find StatsdTimer.key s.timers key, strcpyKey key with
    | some t, _ => some { s with updatePc := .push key t value }
    | none, .ok key => some { s with updatePc := .insert key value }
    | none, .error _ => none
  | .push key t value =>
    some { s with
      timers := s.timers.modify t fun t =>
        { t with values := t.values ++ [value], count := t.count + 1 }
      updatePc := .idle
      returned := s.returned ++ [(key, value)] }
  | .insert key value =>
    some { s with
      timers := s.timers ++ [⟨key, 1, [value]⟩]
      updatePc := .idle
      returned := s.returned ++ [(key, value)] }

/-- `hh.next` of entry `i`, which is the one behind it in the list. -/
def nextOf (timers : List (StatsdTimer α)) (i : Nat) : Option Nat :=
  if i + 1 < timers.length then some (i + 1) else none

/-- A round of `HASH_ITER` that moves to `el` and reads the entry behind it ahead. -/
def iterStep (timers : List (StatsdTimer α)) (el : Option Nat) : TimerFlushPc α :=
  .test el (el.bind (nextOf timers))

/-- One atomic step of the loop over the timers.  Behind the loop `tmp` is freed, which has no
meaning if it is an entry, and so there is no step then. -/
def flushStep (s : TimerThreads α) : Option (TimerThreads α) :=
  match s.flushPc with
  | .sleeping => none
  | .test none none => some { s with flushPc := .sleeping }
  | .test none (some _) => none
  | .test (some el) tmp =>
    s.timers[el]?.map fun t =>
      { s with flushPc := if 0 < t.count then .sort el tmp else .next tmp }
  | .sort el tmp =>
    s.timers[el]?.bind fun t =>
      let values := utarraySort t.values
      match summarize firstByte cfg.percentile t.count values with
      | .error _ => none
      | .ok summary =>
        some { s with
          timers := s.timers.modify el fun t => { t with values := [], count := 0 }
          flushPc := .readGraphite el tmp summary
          sorted := s.sorted ++ [(t.key, values)] }
  | .readGraphite el tmp summary =>
    s.timers[el]?.map fun t =>
      { s with
        flushPc := .readGmetric el tmp summary
        report := { s.report with
          graphite := s.report.graphite ++ (reportTimer cfg s.ts t.key summary t.count).graphite } }
  | .readGmetric el tmp summary =>
    s.timers[el]?.map fun t =>
      { s with
        flushPc := .next tmp
        report := { s.report with
          gmetric := s.report.gmetric ++ (reportTimer cfg s.ts t.key summary t.count).gmetric } }
  | .next tmp => some { s with flushPc := iterStep s.timers tmp }

/-- What a schedule can do next. -/
inductive Action (α : Type) where
  /-- The queue thread calls `update_timer`. -/
  | callUpdate (key : CString) (value : α)
  /-- The queue thread takes a step of its call. -/
  | update
  /-- The flush thread enters the loop, in a pass at time `ts`. -/
  | startPass (ts : Int)
  /-- The flush thread takes a step of the loop. -/
  | flush

/-- The state after an action; `none` when the thread cannot take it. -/
def act (s : TimerThreads α) : Action α → Option (TimerThreads α)
  | .callUpdate key value =>
    match s.updatePc with
    | .idle => some { s with updatePc := .find key value }
    | _ => none
  | .update => updateStep s
  | .startPass ts =>
    match s.flushPc with
    | .sleeping =>
      some { s with flushPc := iterStep s.timers (if s.timers = [] then none else some 0), ts }
    | _ => none
  | .flush => flushStep firstByte cfg s

/-- Every interleaving of the two threads, from empty tables on. -/
def system : TransitionSystem (TimerThreads α) (Action α) where
  init s := s = initial
  step s a s' := act firstByte cfg s a = some s'

/-! ## Where a sample is -/

/-- The samples of `key` in the sorted arrays of all passes, one array after another. -/
def sortedSamples (sorted : List (CString × List α)) (key : CString) : List α :=
  sorted.flatMap fun a => if a.1 = key then a.2 else []

/-- The samples of `key` in the table, which no pass has reported yet. -/
def heldSamples (timers : List (StatsdTimer α)) (key : CString) : List α :=
  ((lookup StatsdTimer.key timers key).map StatsdTimer.values).getD []

/-- The samples of `key` whose calls have returned, in the order in which they did. -/
def returnedSamples (returned : List (CString × α)) (key : CString) : List α :=
  returned.filterMap fun r => if r.1 = key then some r.2 else none

/-! ## The invariant -/

/-- The entries that the flush thread points to, in any of its places in the loop. -/
def entries : TimerFlushPc α → List Nat
  | .sleeping => []
  | .test el tmp => el.toList ++ tmp.toList
  | .sort el tmp | .readGraphite el tmp _ | .readGmetric el tmp _ => el :: tmp.toList
  | .next tmp => tmp.toList

/-- What the queue thread knows of the table, from its lookup on, since no other thread inserts an
entry. -/
def UpdateAt (timers : List (StatsdTimer α)) : TimerUpdatePc α → Prop
  | .idle | .find _ _ => True
  | .push key t _ => (timers.map StatsdTimer.key)[t]? = some key
  | .insert key _ => key ∉ timers.map StatsdTimer.key

/-- Nothing is freed behind the loop: `HASH_ITER` has read no entry behind the last one. -/
def EndsClean : TimerFlushPc α → Prop
  | .test none tmp => tmp = none
  | _ => True

/-- **The invariant.**  Keys are unique, the pointers of both threads are to entries,
every count is the length of its array, and each returned sample is in one sorted array or
in the table. -/
structure Consistent (s : TimerThreads α) : Prop where
  nodup : (s.timers.map StatsdTimer.key).Nodup
  updateAt : UpdateAt s.timers s.updatePc
  entries_lt : ∀ i ∈ entries s.flushPc, i < s.timers.length
  endsClean : EndsClean s.flushPc
  counted : ∀ t ∈ s.timers, t.count = t.values.length
  sorted : ∀ a ∈ s.sorted, a.2.Pairwise (· ≤ ·)
  conserved : ∀ key, (sortedSamples s.sorted key ++ heldSamples s.timers key).Perm
    (returnedSamples s.returned key)

/-! ## Samples after a step -/

omit [Field α] [LinearOrder α] in
theorem returnedSamples_append (returned : List (CString × α)) (key k : CString) (value : α) :
    returnedSamples (returned ++ [(key, value)]) k =
      returnedSamples returned k ++ if key = k then [value] else [] := by
  rw [returnedSamples, List.filterMap_append, returnedSamples]
  by_cases hk : key = k <;> simp [hk]

omit [Field α] [LinearOrder α] in
theorem sortedSamples_append (sorted : List (CString × List α)) (key k : CString)
    (values : List α) :
    sortedSamples (sorted ++ [(key, values)]) k =
      sortedSamples sorted k ++ if key = k then values else [] := by
  rw [sortedSamples, List.flatMap_append, List.flatMap_singleton, sortedSamples]

section Held
variable {timers : List (StatsdTimer α)} {i : Nat} {t : StatsdTimer α}

omit [Field α] [LinearOrder α] in
theorem heldSamples_eq (hnd : (timers.map StatsdTimer.key).Nodup) (ht : timers[i]? = some t) :
    heldSamples timers t.key = t.values := by
  rw [heldSamples, lookup_getElem? hnd ht]
  rfl

omit [Field α] [LinearOrder α] in
theorem heldSamples_modify (hnd : (timers.map StatsdTimer.key).Nodup) (ht : timers[i]? = some t)
    {g : StatsdTimer α → StatsdTimer α} (hg : ∀ t, (g t).key = t.key) (k : CString) :
    heldSamples (timers.modify i g) k =
      if t.key = k then (g t).values else heldSamples timers k := by
  unfold heldSamples
  rw [lookup_modify hnd ht hg]
  by_cases hk : t.key = k <;> simp [hk]

omit [Field α] [LinearOrder α] in
theorem heldSamples_append (ht : t.key ∉ timers.map StatsdTimer.key) (k : CString) :
    heldSamples (timers ++ [t]) k = if t.key = k then t.values else heldSamples timers k := by
  unfold heldSamples
  rw [lookup_append ht]
  by_cases hk : t.key = k <;> simp [hk]

omit [Field α] [LinearOrder α] in
theorem heldSamples_of_notMem {k : CString} (hk : k ∉ timers.map StatsdTimer.key) :
    heldSamples timers k = [] := by
  rw [heldSamples, lookup_eq_none hk]
  rfl

omit [Field α] [LinearOrder α] in
theorem getElem?_of_key {key : CString} (h : (timers.map StatsdTimer.key)[i]? = some key) :
    ∃ t, timers[i]? = some t ∧ t.key = key := by
  rwa [List.getElem?_map, Option.map_eq_some_iff] at h

omit [Field α] [LinearOrder α] in
/-- An update through a pointer changes one entry. -/
theorem mem_of_mem_modify {g : StatsdTimer α → StatsdTimer α} (h : t ∈ timers.modify i g) :
    t ∈ timers ∨ ∃ t', timers[i]? = some t' ∧ t = g t' := by
  obtain ⟨j, hj⟩ := List.mem_iff_getElem?.mp h
  rw [List.getElem?_modify] at hj
  obtain ⟨t', ht', rfl⟩ := Option.map_eq_some_iff.mp hj
  by_cases hij : i = j
  · subst hij
    exact .inr ⟨t', ht', by simp⟩
  · exact .inl (by simpa [hij] using List.mem_of_getElem? ht')

end Held

/-! ## One step of the queue thread -/

omit [Field α] in
theorem initial_consistent : Consistent (initial : TimerThreads α) :=
  ⟨List.nodup_nil, trivial, by rintro i ⟨⟩, trivial, by rintro t ⟨⟩, by rintro a ⟨⟩,
    fun _ => List.Perm.refl _⟩

omit [Field α] in
/-- The locked addition to an entry keeps the invariant, wherever the flush thread is. -/
theorem push_consistent {s : TimerThreads α} (h : Consistent s) {key : CString} {t : Nat}
    {value : α} (hat : (s.timers.map StatsdTimer.key)[t]? = some key) :
    Consistent { s with
      timers := s.timers.modify t fun t =>
        { t with values := t.values ++ [value], count := t.count + 1 }
      updatePc := .idle
      returned := s.returned ++ [(key, value)] } := by
  obtain ⟨e, he, rfl⟩ := getElem?_of_key hat
  refine ⟨?_, trivial, ?_, h.endsClean, ?_, h.sorted, fun k => ?_⟩
  · exact nodup_map_modify h.nodup fun _ => rfl
  · intro i hi
    rw [List.length_modify]
    exact h.entries_lt i hi
  · intro t ht
    rcases mem_of_mem_modify ht with ht | ⟨t', ht', rfl⟩
    · exact h.counted t ht
    · have hcount := h.counted t' (List.mem_of_getElem? ht')
      simp [hcount]
  · have hold := h.conserved k
    rw [returnedSamples_append, heldSamples_modify h.nodup he fun _ => by rfl]
    by_cases hk : e.key = k
    · subst hk
      rw [heldSamples_eq h.nodup he] at hold
      rw [if_pos rfl, if_pos rfl, ← List.append_assoc]
      exact hold.append_right [value]
    · rw [if_neg hk, if_neg hk, List.append_nil]
      exact hold

omit [Field α] in
/-- The locked insertion of a new entry keeps the invariant, since it comes behind all others. -/
theorem insert_consistent {s : TimerThreads α} (h : Consistent s) {key : CString} {value : α}
    (hat : key ∉ s.timers.map StatsdTimer.key) :
    Consistent { s with
      timers := s.timers ++ [⟨key, 1, [value]⟩]
      updatePc := .idle
      returned := s.returned ++ [(key, value)] } := by
  refine ⟨?_, trivial, ?_, h.endsClean, ?_, h.sorted, fun k => ?_⟩
  · exact nodup_map_append h.nodup hat
  · intro i hi
    rw [List.length_append]
    exact Nat.lt_add_right _ (h.entries_lt i hi)
  · intro t ht
    rcases List.mem_append.mp ht with ht | ht
    · exact h.counted t ht
    · rw [List.mem_singleton.mp ht]
      rfl
  · have hold := h.conserved k
    rw [returnedSamples_append, heldSamples_append (t := ⟨key, 1, [value]⟩) hat]
    by_cases hk : key = k
    · subst hk
      rw [heldSamples_of_notMem hat, List.append_nil] at hold
      rw [if_pos rfl, if_pos rfl]
      exact hold.append_right [value]
    · rw [if_neg hk, if_neg hk, List.append_nil]
      exact hold

omit [Field α] in
/-- **A step of the queue thread** keeps the invariant, with one case for each place in its call. -/
theorem updateStep_consistent {s s' : TimerThreads α} (h : Consistent s)
    (hs : updateStep s = some s') : Consistent s' := by
  have hat := h.updateAt
  unfold updateStep at hs
  split at hs
  · cases hs
  · split at hs
    · rename_i hfind
      obtain rfl := Option.some.inj hs
      exact ⟨h.nodup, keys_getElem?_of_find hfind, h.entries_lt, h.endsClean, h.counted, h.sorted,
        h.conserved⟩
    · rename_i hfind hcopy
      obtain rfl := Option.some.inj hs
      obtain rfl := (strcpyKey_eq_ok hcopy).1
      exact ⟨h.nodup, notMem_keys_of_find hfind, h.entries_lt, h.endsClean, h.counted, h.sorted,
        h.conserved⟩
    · cases hs
  · rename_i key t value hpc
    rw [hpc] at hat
    obtain rfl := Option.some.inj hs
    exact push_consistent h hat
  · rename_i key value hpc
    rw [hpc] at hat
    obtain rfl := Option.some.inj hs
    exact insert_consistent h hat

/-! ## One step of the flush thread -/

omit [Field α] in
/-- A step that leaves the table and the arrays alone. -/
theorem Consistent.move {s : TimerThreads α} (h : Consistent s) {pc : TimerFlushPc α} {ts : Int}
    {report : Report α} (hentries : ∀ i ∈ entries pc, i < s.timers.length)
    (hclean : EndsClean pc) : Consistent { s with flushPc := pc, ts, report } :=
  ⟨h.nodup, h.updateAt, hentries, hclean, h.counted, h.sorted, h.conserved⟩

omit [Field α] [LinearOrder α] in
theorem nextOf_lt {timers : List (StatsdTimer α)} {i j : Nat} (h : nextOf timers i = some j) :
    j < timers.length := by
  unfold nextOf at h
  split at h
  · obtain rfl := Option.some.inj h
    assumption
  · cases h

omit [Field α] [LinearOrder α] in
/-- The pointers after a round of `HASH_ITER` are again to entries of the table. -/
theorem iterStep_spec {timers : List (StatsdTimer α)} {el : Option Nat}
    (hel : ∀ i ∈ el.toList, i < timers.length) :
    (∀ i ∈ entries (iterStep timers el), i < timers.length) ∧ EndsClean (iterStep timers el) := by
  cases el with
  | none => exact ⟨by rintro i ⟨⟩, rfl⟩
  | some el =>
    refine ⟨fun i hi => ?_, trivial⟩
    rcases List.mem_append.mp hi with hi | hi
    · exact hel i hi
    · exact nextOf_lt (Option.mem_toList.mp hi)

omit [Field α] in
/-- The locked region: the samples go from the table to the sorted array, all of them, whatever was
added since the count was tested. -/
theorem sort_consistent {s : TimerThreads α} (h : Consistent s) {el : Nat} {tmp : Option Nat}
    (hpc : s.flushPc = .sort el tmp) {t : StatsdTimer α} (ht : s.timers[el]? = some t)
    (summary : TimerSummary α) :
    Consistent { s with
      timers := s.timers.modify el fun t => { t with values := [], count := 0 }
      flushPc := .readGraphite el tmp summary
      sorted := s.sorted ++ [(t.key, utarraySort t.values)] } := by
  have hentries := h.entries_lt
  rw [hpc] at hentries
  have hkeys : (s.timers.modify el fun t => { t with values := [], count := 0 }).map
      StatsdTimer.key = s.timers.map StatsdTimer.key := map_modify fun _ => rfl
  refine ⟨?_, ?_, ?_, trivial, ?_, ?_, fun k => ?_⟩
  · rw [hkeys]
    exact h.nodup
  · have hat := h.updateAt
    show UpdateAt _ s.updatePc
    cases hupd : s.updatePc with
    | idle => trivial
    | find key value => trivial
    | push key t value =>
      rw [hupd] at hat
      rw [UpdateAt, hkeys]
      exact hat
    | insert key value =>
      rw [hupd] at hat
      rw [UpdateAt, hkeys]
      exact hat
  · intro i hi
    rw [List.length_modify]
    exact hentries i hi
  · intro t ht
    rcases mem_of_mem_modify ht with ht | ⟨t', -, rfl⟩
    · exact h.counted t ht
    · rfl
  · intro a ha
    rcases List.mem_append.mp ha with ha | ha
    · exact h.sorted a ha
    · rw [List.mem_singleton.mp ha]
      exact pairwise_utarraySort t.values
  -- the samples of this timer change places, those of the others stay
  · have hold := h.conserved k
    rw [sortedSamples_append, heldSamples_modify h.nodup ht fun _ => by rfl]
    by_cases hk : t.key = k
    · subst hk
      rw [heldSamples_eq h.nodup ht] at hold
      rw [if_pos rfl, if_pos rfl, List.append_nil]
      exact ((perm_utarraySort t.values).append_left _).trans hold
    · rw [if_neg hk, if_neg hk, List.append_nil]
      exact hold

variable {firstByte : α → Int} {cfg : FlushConfig}

/-- **A step of the flush thread** keeps the invariant, with one case for each place in its loop. -/
theorem flushStep_consistent {s s' : TimerThreads α} (h : Consistent s)
    (hs : flushStep firstByte cfg s = some s') : Consistent s' := by
  have hentries := h.entries_lt
  unfold flushStep at hs
  split at hs
  · cases hs
  · obtain rfl := Option.some.inj hs
    exact h.move (by rintro i ⟨⟩) trivial
  · cases hs
  · rename_i el tmp hpc
    rw [hpc] at hentries
    obtain ⟨t, -, rfl⟩ := Option.map_eq_some_iff.mp hs
    by_cases hcount : 0 < t.count
    · rw [if_pos hcount]
      exact h.move hentries trivial
    · rw [if_neg hcount]
      exact h.move (fun i hi => hentries i (List.mem_append_right _ hi)) trivial
  · rename_i el tmp hpc
    obtain ⟨t, ht, hs⟩ := Option.bind_eq_some_iff.mp hs
    simp only at hs
    split at hs
    · cases hs
    · obtain rfl := Option.some.inj hs
      exact sort_consistent h hpc ht _
  · rename_i el tmp summary hpc
    rw [hpc] at hentries
    obtain ⟨t, -, rfl⟩ := Option.map_eq_some_iff.mp hs
    exact h.move hentries trivial
  · rename_i el tmp summary hpc
    rw [hpc] at hentries
    obtain ⟨t, -, rfl⟩ := Option.map_eq_some_iff.mp hs
    exact h.move (fun i hi => hentries i (List.mem_cons_of_mem _ hi)) trivial
  · rename_i tmp hpc
    rw [hpc] at hentries
    obtain rfl := Option.some.inj hs
    obtain ⟨hlt, hclean⟩ := iterStep_spec hentries
    exact h.move hlt hclean

theorem act_consistent {s s' : TimerThreads α} {a : Action α} (h : Consistent s)
    (hs : act firstByte cfg s a = some s') : Consistent s' := by
  cases a with
  | callUpdate key value =>
    unfold act at hs
    simp only at hs
    split at hs
    · obtain rfl := Option.some.inj hs
      exact ⟨h.nodup, trivial, h.entries_lt, h.endsClean, h.counted, h.sorted, h.conserved⟩
    · cases hs
  | update => exact updateStep_consistent h hs
  | startPass ts =>
    unfold act at hs
    simp only at hs
    split at hs
    · obtain rfl := Option.some.inj hs
      have hhead : ∀ i ∈ (if s.timers = [] then none else some 0 : Option Nat).toList,
          i < s.timers.length := by
        intro i hi
        by_cases hnil : s.timers = []
        · rw [if_pos hnil] at hi
          cases hi
        · rw [if_neg hnil] at hi
          obtain rfl := List.mem_singleton.mp hi
          exact List.length_pos_iff.mpr hnil
      obtain ⟨hlt, hclean⟩ := iterStep_spec hhead
      exact h.move hlt hclean
    · cases hs
  | flush => exact flushStep_consistent h hs

theorem reachable_consistent {s : TimerThreads α} (h : (system firstByte cfg).Reachable s) :
    Consistent s := by
  refine h.invariant (I := Consistent) ?_ ?_
  · rintro s rfl
    exact initial_consistent
  · intro s a s' hi hs
    exact act_consistent hi hs

/-! ## Conservation -/

/-- **No sample is lost or counted twice**, however the two threads are interleaved: the
samples of a key whose calls have returned are, each once, those in the sorted arrays of the
passes and those still in the table; and every count is the length of its array. -/
theorem samples_conserved {s : TimerThreads α} (h : (system firstByte cfg).Reachable s) :
    (∀ key, (sortedSamples s.sorted key ++ heldSamples s.timers key).Perm
      (returnedSamples s.returned key)) ∧
      (∀ a ∈ s.sorted, a.2.Pairwise (· ≤ ·)) ∧ ∀ t ∈ s.timers, t.count = t.values.length :=
  have hinv := reachable_consistent h
  ⟨hinv.conserved, hinv.sorted, hinv.counted⟩

/-- The flush thread is never stuck in the loop: its pointers are to entries, and the percentile
element exists for the percentiles that the theorem allows. -/
theorem flushStep_progress (hpct : cfg.percentile = 90) {s : TimerThreads α}
    (h : (system firstByte cfg).Reachable s) (hpc : s.flushPc ≠ .sleeping) :
    ∃ s', flushStep firstByte cfg s = some s' := by
  have hinv := reachable_consistent h
  have hentries := hinv.entries_lt
  have hclean := hinv.endsClean
  refine Option.isSome_iff_exists.mp ?_
  unfold flushStep
  cases hs : s.flushPc with
  | sleeping => exact absurd hs hpc
  | test el tmp =>
    rw [hs] at hentries hclean
    cases el with
    | none =>
      obtain rfl : tmp = none := hclean
      rfl
    | some el =>
      have hlt := hentries el (List.mem_append_left _ (List.mem_singleton_self el))
      simp only [List.getElem?_eq_getElem hlt, Option.map_some, Option.isSome_some]
  | sort el tmp =>
    rw [hs] at hentries
    have hlt := hentries el (List.mem_cons_self ..)
    -- the count is the length of the array, so there is an element to read
    have hcount := hinv.counted _ (List.getElem_mem hlt)
    obtain ⟨summary, hsummary⟩ := @summarize_ok α _ _ firstByte cfg.percentile
      (by omega) (by omega) (utarraySort s.timers[el].values)
    rw [length_utarraySort, ← hcount] at hsummary
    simp only [List.getElem?_eq_getElem hlt, Option.bind_some, hsummary, Option.isSome_some]
  | readGraphite el tmp summary =>
    rw [hs] at hentries
    have hlt := hentries el (List.mem_cons_self ..)
    simp only [List.getElem?_eq_getElem hlt, Option.map_some, Option.isSome_some]
  | readGmetric el tmp summary =>
    rw [hs] at hentries
    have hlt := hentries el (List.mem_cons_self ..)
    simp only [List.getElem?_eq_getElem hlt, Option.map_some, Option.isSome_some]
  | next tmp => rfl

/-! ## Uninterrupted calls -/

omit [Field α] [LinearOrder α] in
/-- An uninterrupted `update_timer` is the function on the tables. -/
theorem update_alone {s : TimerThreads α} {t t' : Tables α} {key : CString} {value : α}
    (hpc : s.updatePc = .find key value) (hs : s.timers = t.timers)
    (ht : updateTimer t key value = .ok t') :
    (updateStep s).bind updateStep = some { s with
      timers := t'.timers
      updatePc := .idle
      returned := s.returned ++ [(key, value)] } := by
  obtain ⟨i, hfind, rfl⟩ | ⟨hfind, hlt, rfl⟩ := updateTimer_cases ht
  · simp only [updateStep, hpc, hs, hfind, Option.bind_some]
  · simp only [updateStep, hpc, hs, hfind, strcpyKey_of_lt hlt, Option.bind_some]

/-- An uninterrupted round over a timer with samples is the body of the loop in the
sequential pass. -/
theorem round_alone {s : TimerThreads α} {el : Nat} {tmp : Option Nat} {t : StatsdTimer α}
    {r : StatsdTimer α × Report α} (hpc : s.flushPc = .test (some el) tmp)
    (ht : s.timers[el]? = some t) (hcount : 0 < t.count)
    (hr : flushTimer firstByte cfg s.ts t = .ok r) :
    ((((flushStep firstByte cfg s).bind (flushStep firstByte cfg)).bind
      (flushStep firstByte cfg)).bind (flushStep firstByte cfg)) =
      some { s with
        timers := s.timers.modify el fun t => { t with values := [], count := 0 }
        report := s.report.append r.2
        sorted := s.sorted ++ [(t.key, utarraySort t.values)]
        flushPc := .next tmp } := by
  unfold flushTimer at hr
  rw [if_pos hcount] at hr
  cases hsummary : summarize firstByte cfg.percentile t.count (utarraySort t.values) with
  | error e =>
    rw [hsummary] at hr
    cases hr
  | ok summary =>
    rw [hsummary] at hr
    obtain rfl := Except.ok.inj hr
    have hcleared : (s.timers.modify el fun t => { t with values := [], count := 0 })[el]? =
        some ⟨t.key, 0, []⟩ := by
      rw [List.getElem?_modify, ht]
      simp
    simp only [flushStep, hpc, ht, hcount, hsummary, hcleared, if_true, Option.map_some,
      Option.bind_some]
    rfl

theorem reachable_act {s s' : TimerThreads α} {a : Action α}
    (h : (system firstByte cfg).Reachable s) (hs : act firstByte cfg s a = some s') :
    (system firstByte cfg).Reachable s' := h.next hs

end Machine

/-! ## A run -/

/-- The theorem at an update with a pass after it. -/
theorem samples_conserved_pass :
    ∃ s : TimerThreads Rat, (system (fun _ => 0) ⟨true, false, 10, 90, none⟩).Reachable s ∧
      s.sorted = [(['a'], [5])] ∧ s.returned = [(['a'], 5)] ∧
      (∀ key, (sortedSamples s.sorted key ++ heldSamples s.timers key).Perm
        (returnedSamples s.returned key)) ∧
      (∀ a ∈ s.sorted, a.2.Pairwise (· ≤ ·)) ∧ ∀ t ∈ s.timers, t.count = t.values.length := by
  have h0 : (system (fun _ => 0) ⟨true, false, 10, 90, none⟩).Reachable
      (initial : TimerThreads Rat) := .start rfl
  have h1 := reachable_act (a := .callUpdate ['a'] 5) h0 rfl
  have h2 := reachable_act (a := .update) h1 rfl
  have h3 := reachable_act (a := .update) h2 rfl
  have h4 := reachable_act (a := .startPass 0) h3 rfl
  have h5 := reachable_act (a := .flush) h4 rfl
  have h6 := reachable_act (a := .flush) h5 rfl
  exact ⟨_, h6, rfl, rfl, samples_conserved h6⟩

end TimerThreads
end StatsdC
