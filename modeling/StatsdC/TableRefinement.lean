import Mathlib.Algebra.BigOperators.Group.List.Basic
import Mathlib.Algebra.Field.Basic
import Mathlib.Algebra.Order.Ring.Rat
import StatsdC.PercentileIndex

/-!
# The tables over whole runs

What the tables are for, said without them: a history of updates and flush passes determines, for
each key, the counter total and the timer samples since the last pass and the gauge value since the
start (`counterTotal`, `samples`, `gaugeValue`).  These are folds over the history that look at
one key only, and no table occurs in them.

`Refines` says that the tables hold exactly this: one entry per key, in the order of first use,
with the total, the samples or the value of the key, and with a count that is the number of the
samples.  `TableOp.apply_refines` is the step, with one lemma for each update and one for the pass
(`flushPass_refines`), and `tables_refine` says it of every history.  The history is any list of
operations whose keys fit their fields (`WellFormed`); nothing is said about which packets lead to
it, so that both front ends can use it.

The percentile is one from 50 to 100 in the lemmas and the default of 90 in the theorem, since for
small ones the element that a pass looks up does not exist.  A pass is one operation here, and so
is an update.  A history with `2 ^ 31` samples of one timer between two passes is beyond what the
`int` of the program counts, and the theorem is not about that.
-/

namespace StatsdC
open OrderedTable

/-- An update or a complete flush pass, with what it is given. -/
inductive TableOp (α : Type) where
  | counter (key : CString) (value sampleRate : α)
  | timer (key : CString) (value : α)
  | gauge (key : CString) (value : α) (plusminus : Int)
  | flush (env : FlushEnv)

/-! ## The abstract tables -/

namespace TableOp
variable {α : Type}

/-- Keys that fit their fields, and the three modes of a gauge update that the front ends use. -/
def WellFormed : TableOp α → Prop
  | counter key _ _ | timer key _ => key.length < keySize
  | gauge key _ plusminus => key.length < keySize ∧ 0 ≤ plusminus ∧ plusminus ≤ 2
  | flush _ => True

/-- Whether this is a pass. -/
def isFlush : TableOp α → Bool
  | flush _ => true
  | _ => false

/-- The counter this updates. -/
def counterKey : TableOp α → Option CString
  | counter key _ _ => some key
  | _ => none

/-- The timer this updates. -/
def timerKey : TableOp α → Option CString
  | timer key _ => some key
  | _ => none

/-- The gauge this updates. -/
def gaugeKey : TableOp α → Option CString
  | gauge key _ _ => some key
  | _ => none

/-- The sample this records for the timer `k`. -/
def sample (k : CString) : TableOp α → Option α
  | timer key value => if key = k then some value else none
  | _ => none

end TableOp

section History
variable {α : Type}

/-- The keys of a history for one kind of entry, in the order of their first use.  This is the order
of the table. -/
def keysOf (keyOf : TableOp α → Option CString) (h : List (TableOp α)) : List CString :=
  (h.filterMap keyOf).eraseDups

/-- What happened since the last pass, or since the start if there was none. -/
def sinceFlush (h : List (TableOp α)) : List (TableOp α) :=
  (h.reverse.takeWhile fun op => !op.isFlush).reverse

/-- The samples of the timer `k` since the last pass. -/
def samples (h : List (TableOp α)) (k : CString) : List α :=
  (sinceFlush h).filterMap (TableOp.sample k)

variable [Field α] [DecidableEq α]

/-- What an operation adds to the counter `k`: for an update of it the value, divided by the rate
unless that is zero. -/
def TableOp.added (k : CString) : TableOp α → α
  | counter key value sampleRate =>
    if key = k then if sampleRate = 0 then value else value / sampleRate else 0
  | _ => 0

/-- What an operation makes of the value `g` of the gauge `k`.  A pass leaves it. -/
def TableOp.gaugeStep (k : CString) (g : α) : TableOp α → α
  | gauge key value plusminus =>
    if key = k then
      if plusminus = 0 then value else if plusminus = 1 then g - value else g + value
    else g
  | _ => g

/-- The total of the counter `k` since the last pass, as a sum over the history. -/
def counterTotal (h : List (TableOp α)) (k : CString) : α :=
  ((sinceFlush h).map (TableOp.added k)).sum

/-- The value of the gauge `k`, folded from zero over the whole history. -/
def gaugeValue (h : List (TableOp α)) (k : CString) : α := h.foldl (TableOp.gaugeStep k) 0

/-- The counters a history leaves. -/
def countersOf (h : List (TableOp α)) : List (StatsdCounter α) :=
  (keysOf TableOp.counterKey h).map fun k => ⟨k, counterTotal h k⟩

/-- The timers a history leaves. -/
def timersOf (h : List (TableOp α)) : List (StatsdTimer α) :=
  (keysOf TableOp.timerKey h).map fun k => ⟨k, (samples h k).length, samples h k⟩

/-- The gauges a history leaves. -/
def gaugesOf (h : List (TableOp α)) : List (StatsdGauge α) :=
  (keysOf TableOp.gaugeKey h).map fun k => ⟨k, gaugeValue h k⟩

/-- The tables hold what the history says, and nothing else.  The stats are not part of it. -/
structure Refines (h : List (TableOp α)) (t : Tables α) : Prop where
  counters : t.counters = countersOf h
  timers : t.timers = timersOf h
  gauges : t.gauges = gaugesOf h

end History

/-! ## One more operation -/

section Append
variable {α : Type} (h : List (TableOp α)) (op : TableOp α)

theorem keysOf_append_none {keyOf : TableOp α → Option CString} (hop : keyOf op = none) :
    keysOf keyOf (h ++ [op]) = keysOf keyOf h := by
  simp [keysOf, hop]

theorem keysOf_append_of_mem {keyOf : TableOp α → Option CString} {k : CString}
    (hop : keyOf op = some k) (hk : k ∈ keysOf keyOf h) :
    keysOf keyOf (h ++ [op]) = keysOf keyOf h := by
  rw [keysOf, List.filterMap_append, List.filterMap_cons_some hop, List.filterMap_nil,
    eraseDups_append_of_mem (List.mem_eraseDups.mp hk), keysOf]

theorem keysOf_append_of_notMem {keyOf : TableOp α → Option CString} {k : CString}
    (hop : keyOf op = some k) (hk : k ∉ keysOf keyOf h) :
    keysOf keyOf (h ++ [op]) = keysOf keyOf h ++ [k] := by
  have hk' : k ∉ h.filterMap keyOf := fun hmem => hk (List.mem_eraseDups.mpr hmem)
  rw [keysOf, List.filterMap_append, List.filterMap_cons_some hop, List.filterMap_nil,
    eraseDups_append_of_notMem hk', keysOf]

theorem sinceFlush_append :
    sinceFlush (h ++ [op]) = if op.isFlush then [] else sinceFlush h ++ [op] := by
  unfold sinceFlush
  cases hop : op.isFlush <;> simp [hop]

theorem samples_append (k : CString) :
    samples (h ++ [op]) k =
      if op.isFlush then [] else samples h k ++ (op.sample k).toList := by
  rw [samples, sinceFlush_append]
  split
  · rfl
  · rw [List.filterMap_append, samples]
    cases hop : op.sample k <;> simp [hop]

variable [Field α]

theorem gaugeValue_append (k : CString) :
    gaugeValue (h ++ [op]) k = op.gaugeStep k (gaugeValue h k) := by
  rw [gaugeValue, List.foldl_append]
  rfl

variable [DecidableEq α]

theorem counterTotal_append (k : CString) :
    counterTotal (h ++ [op]) k = if op.isFlush then 0 else counterTotal h k + op.added k := by
  rw [counterTotal, sinceFlush_append]
  split
  · rfl
  · rw [List.map_append, List.sum_append, counterTotal, List.map_singleton, List.sum_singleton]

end Append

/-! ## Operations on other tables -/

section Other
variable {α : Type} (h : List (TableOp α)) {op : TableOp α}

theorem timersOf_append_other (hop : op.timerKey = none) (hflush : op.isFlush = false) :
    timersOf (h ++ [op]) = timersOf h := by
  have hsample : ∀ k, op.sample k = none := by
    intro k
    cases op with
    | timer key value => cases hop
    | _ => rfl
  unfold timersOf
  simp only [keysOf_append_none h op hop, samples_append, hflush, hsample, Bool.false_eq_true,
    if_false, Option.toList_none, List.append_nil]

variable [Field α]

theorem gaugesOf_append_other (hop : op.gaugeKey = none) : gaugesOf (h ++ [op]) = gaugesOf h := by
  have hstep : ∀ k g, op.gaugeStep k g = g := by
    intro k g
    cases op with
    | gauge key value plusminus => cases hop
    | _ => rfl
  unfold gaugesOf
  simp only [keysOf_append_none h op hop, gaugeValue_append, hstep]

variable [DecidableEq α]

theorem countersOf_append_other (hop : op.counterKey = none) (hflush : op.isFlush = false) :
    countersOf (h ++ [op]) = countersOf h := by
  have hadded : ∀ k, op.added k = (0 : α) := by
    intro k
    cases op with
    | counter key value sampleRate => cases hop
    | _ => rfl
  unfold countersOf
  simp only [keysOf_append_none h op hop, counterTotal_append, hflush, hadded, Bool.false_eq_true,
    if_false, add_zero]

end Other

/-! ## Keys that were never used -/

section Unused
variable {α : Type} {h : List (TableOp α)} {k : CString}

theorem mem_of_mem_sinceFlush {op : TableOp α} (hop : op ∈ sinceFlush h) : op ∈ h := by
  rw [sinceFlush, List.mem_reverse] at hop
  exact List.mem_reverse.mp ((List.takeWhile_prefix _).subset hop)

theorem ne_of_notMem_keysOf {keyOf : TableOp α → Option CString} (hk : k ∉ keysOf keyOf h)
    {op : TableOp α} (hop : op ∈ h) : keyOf op ≠ some k := fun heq =>
  hk (List.mem_eraseDups.mpr (List.mem_filterMap.mpr ⟨op, hop, heq⟩))

theorem samples_of_notMem (hk : k ∉ keysOf TableOp.timerKey h) : samples h k = [] := by
  refine List.filterMap_eq_nil_iff.mpr fun op hop => ?_
  have hne := ne_of_notMem_keysOf hk (mem_of_mem_sinceFlush hop)
  cases op with
  | timer key value =>
    have hkey : key ≠ k := fun heq => hne (by rw [heq]; rfl)
    simp [TableOp.sample, hkey]
  | _ => rfl

variable [Field α] [DecidableEq α]

theorem counterTotal_of_notMem (hk : k ∉ keysOf TableOp.counterKey h) : counterTotal h k = 0 := by
  refine List.sum_eq_zero fun x hx => ?_
  obtain ⟨op, hop, rfl⟩ := List.mem_map.mp hx
  have hne := ne_of_notMem_keysOf hk (mem_of_mem_sinceFlush hop)
  cases op with
  | counter key value sampleRate =>
    have hkey : key ≠ k := fun heq => hne (by rw [heq]; rfl)
    simp [TableOp.added, hkey]
  | _ => rfl

omit [DecidableEq α] in
theorem gaugeValue_of_notMem (hk : k ∉ keysOf TableOp.gaugeKey h) : gaugeValue h k = 0 := by
  induction h using List.reverseRecOn with
  | nil => rfl
  | append_singleton h op ih =>
    have hne := ne_of_notMem_keysOf hk (List.mem_append_right h (List.mem_singleton_self op))
    have hk' : k ∉ keysOf TableOp.gaugeKey h := fun hmem => hk <| by
      obtain ⟨op', hop', heq⟩ := List.mem_filterMap.mp (List.mem_eraseDups.mp hmem)
      exact List.mem_eraseDups.mpr (List.mem_filterMap.mpr ⟨op', List.mem_append_left _ hop', heq⟩)
    rw [gaugeValue_append, ih hk']
    cases op with
    | gauge key value plusminus =>
      have hkey : key ≠ k := fun heq => hne (by rw [heq]; rfl)
      simp [TableOp.gaugeStep, hkey]
    | _ => rfl

end Unused

/-! ## What a pass leaves -/

section Pass
variable {α : Type} [Field α] [LinearOrder α] (firstByte : α → Int) (cfg : FlushConfig)

/-- From 50 to 100, the percentile element exists. -/
theorem summarize_ok {pctThreshold : Int} (hlo : 50 ≤ pctThreshold) (hhi : pctThreshold ≤ 100)
    (values : List α) : ∃ s, summarize firstByte pctThreshold values.length values = .ok s := by
  refine exists_summarize_iff.mpr fun hlen => ?_
  have hlow : 100 ≤ pctThreshold * values.length := by nlinarith
  have hpos := (one_le_thresholdIndex_iff (by omega)).mpr hlow
  have hle := @thresholdIndex_le pctThreshold values.length (by omega) hhi
  exact exists_utarrayEltptr_iff.mpr ⟨Int.sub_nonneg_of_le hpos, by omega⟩

/-- A timer is cleared. -/
theorem flushTimer_ok (hlo : 50 ≤ cfg.percentile) (hhi : cfg.percentile ≤ 100) (ts : Int)
    (k : CString) (values : List α) :
    ∃ r, flushTimer firstByte cfg ts ⟨k, values.length, values⟩ = .ok (⟨k, 0, []⟩, r) := by
  unfold flushTimer
  split
  · have hlen : (utarraySort values).length = values.length := List.length_insertionSort _ _
    obtain ⟨s, hs⟩ := summarize_ok firstByte hlo hhi (utarraySort values)
    rw [hlen] at hs
    simp only [hs]
    exact ⟨_, rfl⟩
  · rename_i hzero
    obtain rfl : values = [] := List.length_eq_zero_iff.mp (by simpa using hzero)
    exact ⟨_, rfl⟩

theorem flushTimers_ok (hlo : 50 ≤ cfg.percentile) (hhi : cfg.percentile ≤ 100) (ts : Int)
    (values : CString → List α) (ks : List CString) :
    ∃ r, flushTimers firstByte cfg ts (ks.map fun k => ⟨k, (values k).length, values k⟩) =
      .ok (ks.map fun k => ⟨k, 0, []⟩, r) := by
  induction ks with
  | nil => exact ⟨_, rfl⟩
  | cons k ks ih =>
    obtain ⟨r, hr⟩ := flushTimer_ok firstByte cfg hlo hhi ts k (values k)
    obtain ⟨rs, hrs⟩ := ih
    simp only [List.map_cons, flushTimers, hr, hrs]
    exact ⟨_, rfl⟩

omit [Field α] [LinearOrder α] in
/-- The last update of a pass does not fail, and changes no metric. -/
theorem updateStat_lastFlush (t : Tables α) (value : CString) :
    ∃ stats, updateStat t "graphite".toList "last_flush".toList value = .ok { t with stats } := by
  have hgroup : strcpyKey "graphite".toList = .ok "graphite".toList := rfl
  have hkey : strcpyKey "last_flush".toList = .ok "last_flush".toList := rfl
  simp only [updateStat, hgroup, hkey, bind, Except.bind]
  split <;> exact ⟨_, rfl⟩

/-- **A pass** does not fail; it clears counters and timers and leaves everything
else. -/
theorem flushPass_ok (hlo : 50 ≤ cfg.percentile) (hhi : cfg.percentile ≤ 100) (env : FlushEnv)
    {t : Tables α} {ks : List CString} {values : CString → List α}
    (ht : t.timers = ks.map fun k => ⟨k, (values k).length, values k⟩) :
    ∃ t' r, flushPass firstByte cfg env t = .ok (t', r) ∧ t'.gauges = t.gauges ∧
      t'.counters = t.counters.map (fun c => { c with value := 0 }) ∧
      t'.timers = ks.map fun k => ⟨k, 0, []⟩ := by
  obtain ⟨r, hr⟩ := flushTimers_ok firstByte cfg hlo hhi env.ts values ks
  have hcounters : (t.counters.map (flushCounter cfg env.ts)).map Prod.fst =
      t.counters.map fun c => { c with value := 0 } := by
    rw [List.map_map]
    rfl
  simp only [flushPass, ht, hr, hcounters]
  split
  · obtain ⟨stats, hstats⟩ := updateStat_lastFlush
      { t with counters := t.counters.map fun c => { c with value := 0 },
               timers := ks.map fun k => ⟨k, 0, []⟩ } (printD env.now)
    rw [hstats]
    exact ⟨_, _, rfl, rfl, rfl, rfl⟩
  · exact ⟨_, _, rfl, rfl, rfl, rfl⟩

end Pass

/-! ## One step -/

section Step
variable {α : Type} [Field α] [LinearOrder α] {h : List (TableOp α)} {t : Tables α}

theorem updateCounter_refines (hr : Refines h t) {key : CString} (hkey : key.length < keySize)
    (value sampleRate : α) :
    ∃ t', updateCounter t key value sampleRate = .ok t' ∧
      Refines (h ++ [.counter key value sampleRate]) t' := by
  have hcopy := strcpyKey_of_lt hkey
  have hentry : ∀ k, StatsdCounter.key (⟨k, counterTotal h k⟩ : StatsdCounter α) = k := fun _ => rfl
  have hnd : (keysOf TableOp.counterKey h).Nodup := nodup_eraseDups _
  -- the totals change at `key` alone
  have hnew : (fun k => (⟨k, counterTotal (h ++ [.counter key value sampleRate]) k⟩ :
      StatsdCounter α)) = Function.update (fun k => ⟨k, counterTotal h k⟩) key
        ⟨key, counterTotal h key + contribution value sampleRate⟩ := by
    funext k
    rw [counterTotal_append]
    by_cases hk : k = key
    · subst hk
      rw [Function.update_self]
      simp [TableOp.isFlush, TableOp.added, contribution, div_eq_mul_inv]
    · rw [Function.update_of_ne hk]
      simp [TableOp.isFlush, TableOp.added, Ne.symm hk]
  refine ⟨{ t with counters := countersOf (h ++ [.counter key value sampleRate]) }, ?_, rfl,
    hr.timers.trans (timersOf_append_other h rfl rfl).symm,
    hr.gauges.trans (gaugesOf_append_other h rfl).symm⟩
  by_cases hmem : key ∈ keysOf TableOp.counterKey h
  · obtain ⟨i, hfind, hmodify⟩ := find_map_of_mem hentry hnd hmem
    rw [countersOf, keysOf_append_of_mem h _ rfl hmem, hnew,
      ← hmodify fun c => { c with value := c.value + contribution value sampleRate }]
    simp only [updateCounter, hr.counters, countersOf, hfind]
  · have hfind := find_map_of_notMem hentry hmem
    rw [countersOf, keysOf_append_of_notMem h _ rfl hmem, hnew, ← map_append_singleton hmem]
    simp only [updateCounter, hr.counters, countersOf, hfind, hcopy, bind, Except.bind,
      counterTotal_of_notMem hmem, zero_add]

theorem updateTimer_refines (hr : Refines h t) {key : CString} (hkey : key.length < keySize)
    (value : α) :
    ∃ t', updateTimer t key value = .ok t' ∧ Refines (h ++ [.timer key value]) t' := by
  have hcopy := strcpyKey_of_lt hkey
  have hentry : ∀ k, StatsdTimer.key ⟨k, (samples h k).length, samples h k⟩ = k := fun _ => rfl
  have hnd : (keysOf TableOp.timerKey h).Nodup := nodup_eraseDups _
  -- the samples change at `key` alone
  have hsamples : ∀ k, samples (h ++ [.timer key value]) k =
      samples h k ++ if key = k then [value] else [] := by
    intro k
    rw [samples_append]
    by_cases hk : key = k <;> simp [TableOp.isFlush, TableOp.sample, hk]
  have hnew : (fun k => (⟨k, (samples (h ++ [.timer key value]) k).length,
      samples (h ++ [.timer key value]) k⟩ : StatsdTimer α)) =
      Function.update (fun k => ⟨k, (samples h k).length, samples h k⟩) key
        ⟨key, (samples h key).length + 1, samples h key ++ [value]⟩ := by
    funext k
    rw [hsamples]
    by_cases hk : k = key
    · subst hk
      simp
    · rw [Function.update_of_ne hk]
      simp [Ne.symm hk]
  refine ⟨{ t with timers := timersOf (h ++ [.timer key value]) }, ?_,
    hr.counters.trans (countersOf_append_other h rfl rfl).symm, rfl,
    hr.gauges.trans (gaugesOf_append_other h rfl).symm⟩
  by_cases hmem : key ∈ keysOf TableOp.timerKey h
  · obtain ⟨i, hfind, hmodify⟩ := find_map_of_mem hentry hnd hmem
    rw [timersOf, keysOf_append_of_mem h _ rfl hmem, hnew,
      ← hmodify fun s => { s with values := s.values ++ [value], count := s.count + 1 }]
    simp only [updateTimer, hr.timers, timersOf, hfind]
  · have hfind := find_map_of_notMem hentry hmem
    rw [timersOf, keysOf_append_of_notMem h _ rfl hmem, hnew, ← map_append_singleton hmem]
    simp only [updateTimer, hr.timers, timersOf, hfind, hcopy, bind, Except.bind,
      samples_of_notMem hmem, List.nil_append, List.length_nil, Nat.zero_add]

omit [LinearOrder α] in
/-- The three modes. -/
theorem plusminusValue_eq {m : Int} (hlo : 0 ≤ m) (hhi : m ≤ 2) (old value : α) :
    plusminusValue old value m =
      some (if m = 0 then value else if m = 1 then old - value else old + value) := by
  obtain rfl | rfl | rfl : m = 0 ∨ m = 1 ∨ m = 2 := by omega
  all_goals rfl

theorem updateGaugePlusminus_refines (hr : Refines h t) {key : CString}
    (hkey : key.length < keySize) (value : α) {m : Int} (hlo : 0 ≤ m) (hhi : m ≤ 2) :
    ∃ t', updateGaugePlusminus t key value m = .ok t' ∧ Refines (h ++ [.gauge key value m]) t' := by
  have hcopy := strcpyKey_of_lt hkey
  have hentry : ∀ k, StatsdGauge.key (⟨k, gaugeValue h k⟩ : StatsdGauge α) = k := fun _ => rfl
  have hnd : (keysOf TableOp.gaugeKey h).Nodup := nodup_eraseDups _
  -- the values change at `key` alone
  have hnew : (fun k => (⟨k, gaugeValue (h ++ [.gauge key value m]) k⟩ : StatsdGauge α)) =
      Function.update (fun k => ⟨k, gaugeValue h k⟩) key
        ⟨key, (TableOp.gauge key value m).gaugeStep key (gaugeValue h key)⟩ := by
    funext k
    rw [gaugeValue_append]
    by_cases hk : k = key
    · subst hk
      rw [Function.update_self]
    · rw [Function.update_of_ne hk]
      simp [TableOp.gaugeStep, Ne.symm hk]
  refine ⟨{ t with gauges := gaugesOf (h ++ [.gauge key value m]) }, ?_,
    hr.counters.trans (countersOf_append_other h rfl rfl).symm,
    hr.timers.trans (timersOf_append_other h rfl rfl).symm, rfl⟩
  by_cases hmem : key ∈ keysOf TableOp.gaugeKey h
  · obtain ⟨i, hfind, hmodify⟩ := find_map_of_mem hentry hnd hmem
    have hstep : (fun g : StatsdGauge α =>
        { g with value := (plusminusValue g.value value m).getD g.value }) =
        fun g => { g with value := (TableOp.gauge key value m).gaugeStep key g.value } := by
      funext g
      rw [plusminusValue_eq hlo hhi]
      simp [TableOp.gaugeStep]
    rw [gaugesOf, keysOf_append_of_mem h _ rfl hmem, hnew,
      ← hmodify fun g => { g with value := (TableOp.gauge key value m).gaugeStep key g.value }]
    simp only [updateGaugePlusminus, hr.gauges, gaugesOf, hfind, hstep]
  · have hfind := find_map_of_notMem hentry hmem
    rw [gaugesOf, keysOf_append_of_notMem h _ rfl hmem, hnew, ← map_append_singleton hmem]
    simp only [updateGaugePlusminus, hr.gauges, gaugesOf, hfind, hcopy, bind, Except.bind,
      gaugeValue_of_notMem hmem, plusminusValue_eq hlo hhi, TableOp.gaugeStep, if_true]

/-- A pass starts the counters and timers over, which is what it means for a history that ends with
it. -/
theorem flushPass_refines (firstByte : α → Int) {cfg : FlushConfig} (hlo : 50 ≤ cfg.percentile)
    (hhi : cfg.percentile ≤ 100) (hr : Refines h t) (env : FlushEnv) :
    ∃ t' r, flushPass firstByte cfg env t = .ok (t', r) ∧ Refines (h ++ [.flush env]) t' := by
  obtain ⟨t', r, hok, hgauges, hcounters, htimers⟩ :=
    flushPass_ok firstByte cfg hlo hhi env hr.timers
  refine ⟨t', r, hok, ?_, ?_, hgauges.trans (hr.gauges.trans (gaugesOf_append_other h rfl).symm)⟩
  · rw [hcounters, hr.counters, countersOf, countersOf, List.map_map,
      keysOf_append_none h (.flush env) rfl]
    simp only [counterTotal_append, TableOp.isFlush, if_true]
    rfl
  · rw [htimers, timersOf, keysOf_append_none h (.flush env) rfl]
    simp only [samples_append, TableOp.isFlush, if_true, List.length_nil]

end Step

/-! ## Runs -/

section Run
variable {α : Type} [Field α] [LinearOrder α] (firstByte : α → Int) (cfg : FlushConfig)

/-- The tables after an operation. -/
def TableOp.apply (t : Tables α) : TableOp α → Except FlushFault (Tables α)
  | counter key value sampleRate => (updateCounter t key value sampleRate).mapError .table
  | timer key value => (updateTimer t key value).mapError .table
  | gauge key value plusminus => (updateGaugePlusminus t key value plusminus).mapError .table
  | flush env => (flushPass firstByte cfg env t).map Prod.fst

/-- The tables after a sequence of operations on empty ones; the first fault ends it. -/
def runOps (h : List (TableOp α)) : Except FlushFault (Tables α) :=
  h.foldlM (TableOp.apply firstByte cfg) .empty

variable {cfg}

/-- One operation keeps the tables in step with the history. -/
theorem TableOp.apply_refines (hlo : 50 ≤ cfg.percentile) (hhi : cfg.percentile ≤ 100)
    {h : List (TableOp α)} {t : Tables α} (hr : Refines h t) {op : TableOp α}
    (hop : op.WellFormed) :
    ∃ t', op.apply firstByte cfg t = .ok t' ∧ Refines (h ++ [op]) t' := by
  cases op with
  | counter key value sampleRate =>
    obtain ⟨t', hok, hr'⟩ := updateCounter_refines hr hop value sampleRate
    exact ⟨t', by rw [apply, hok]; rfl, hr'⟩
  | timer key value =>
    obtain ⟨t', hok, hr'⟩ := updateTimer_refines hr hop value
    exact ⟨t', by rw [apply, hok]; rfl, hr'⟩
  | gauge key value plusminus =>
    obtain ⟨t', hok, hr'⟩ := updateGaugePlusminus_refines hr hop.1 value hop.2.1 hop.2.2
    exact ⟨t', by rw [apply, hok]; rfl, hr'⟩
  | flush env =>
    obtain ⟨t', r, hok, hr'⟩ := flushPass_refines firstByte hlo hhi hr env
    exact ⟨t', by rw [apply, hok]; rfl, hr'⟩

/-- Every run succeeds, in step with its history.  The induction is on the history, from its end. -/
theorem runOps_refines (hlo : 50 ≤ cfg.percentile) (hhi : cfg.percentile ≤ 100)
    (h : List (TableOp α)) (hops : ∀ op ∈ h, op.WellFormed) :
    ∃ t, runOps firstByte cfg h = .ok t ∧ Refines h t := by
  induction h using List.reverseRecOn with
  | nil => exact ⟨.empty, rfl, rfl, rfl, rfl⟩
  | append_singleton h op ih =>
    obtain ⟨t, hok, hr⟩ := ih fun op' hop' => hops op' (List.mem_append_left _ hop')
    obtain ⟨t', hok', hr'⟩ := op.apply_refines firstByte hlo hhi hr
      (hops op (List.mem_append_right _ (List.mem_singleton_self op)))
    refine ⟨t', ?_, hr'⟩
    rw [runOps] at hok ⊢
    rw [List.foldlM_append, hok]
    simp only [bind, Except.bind, List.foldlM_cons, List.foldlM_nil, hok']
    rfl

/-- **The metric tables over whole runs.**  With the default percentile, every
sequence of updates and passes succeeds and leaves the counters, timers and gauges
that its history says, in the order of their first use; and a pass run then removes
no entry and changes no gauge. -/
theorem tables_refine (hpct : cfg.percentile = 90) (h : List (TableOp α))
    (hops : ∀ op ∈ h, op.WellFormed) :
    ∃ t, runOps firstByte cfg h = .ok t ∧ Refines h t ∧
      ∀ env, ∃ t' r, flushPass firstByte cfg env t = .ok (t', r) ∧ t'.gauges = t.gauges ∧
        t'.counters.map StatsdCounter.key = t.counters.map StatsdCounter.key ∧
        t'.timers.map StatsdTimer.key = t.timers.map StatsdTimer.key := by
  have hlo : 50 ≤ cfg.percentile := by omega
  have hhi : cfg.percentile ≤ 100 := by omega
  obtain ⟨t, hok, hr⟩ := runOps_refines firstByte hlo hhi h hops
  refine ⟨t, hok, hr, fun env => ?_⟩
  obtain ⟨t', r, hpass, hgauges, hcounters, htimers⟩ :=
    flushPass_ok firstByte cfg hlo hhi env hr.timers
  refine ⟨t', r, hpass, hgauges, ?_, ?_⟩
  · rw [hcounters, List.map_map]
    rfl
  · rw [htimers, hr.timers, timersOf, List.map_map, List.map_map]
    rfl

/-- The theorem at a run with a pass between two counts. -/
theorem tables_refine_pass :
    ∃ t, runOps (fun _ => 0) ⟨true, false, 10, 90, none⟩
        [.counter ['a'] (2 : Rat) 0, .flush ⟨0, 0, false⟩, .counter ['a'] 3 (1 / 2),
          .timer ['b'] 5, .gauge ['c'] 7 1] = .ok t ∧
      t.counters = [⟨['a'], 6⟩] ∧ t.timers = [⟨['b'], 1, [5]⟩] ∧ t.gauges = [⟨['c'], -7⟩] := by
  have hpct : FlushConfig.percentile ⟨true, false, 10, 90, none⟩ = 90 := rfl
  obtain ⟨t, hok, hr, -⟩ := tables_refine (fun _ => 0) hpct
    [.counter ['a'] (2 : Rat) 0, .flush ⟨0, 0, false⟩, .counter ['a'] 3 (1 / 2),
      .timer ['b'] 5, .gauge ['c'] 7 1]
    (by simp [TableOp.WellFormed, keySize])
  refine ⟨t, hok, ?_, ?_, ?_⟩
  · rw [hr.counters]
    show [(⟨['a'], counterTotal _ ['a']⟩ : StatsdCounter Rat)] = _
    norm_num [counterTotal, sinceFlush, TableOp.isFlush, TableOp.added]
  · rw [hr.timers]
    rfl
  · have hvalue : (0 : Rat) - 7 = -7 := by norm_num
    rw [hr.gauges, ← hvalue]
    rfl

end Run
end StatsdC
