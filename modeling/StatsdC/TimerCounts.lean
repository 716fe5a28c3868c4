import StatsdC.Lib.Fallible
import StatsdC.TableRefinement

/-!
# The counts that are reported for a timer

Runs of updates and flush passes with what every pass reports.  The pass clears the count of a
timer before it writes the line with it, so all counts in all reports are zero.

`runReporting` runs a history and keeps the reports, and is otherwise the run of
`StatsdC.TableRefinement`.  `ZeroCounts` says that every integer in a report is zero, except the
total number of entries; a pass reports nothing else (`zeroCounts_flushPass`), and it follows for
all reports of a run (`runReporting_refines`).  What the backends are told of one timer is read out
of the reports by the path of its line or the name of its message (`graphiteCount`,
`gmetricCount`), as a client of the backend would find it.

`countsAddUp_iff` says when the counts reported and the samples held still add up to the updates
made: as long as no sample of the timer has been flushed (`FlushesSamples`).  A pass over a timer
without samples does no harm, and a pass with no backend reports nothing.  Updates are counted
without a bound, while the `int` of the program ends at `2 ^ 31` samples between two passes; the
statement is about histories that stay below it.
-/

namespace StatsdC
open OrderedTable Fallible

/-! ## Runs with their reports -/

section Run
variable {α : Type} [Field α] [LinearOrder α] (firstByte : α → Int) (cfg : FlushConfig)

/-- The tables after an operation, and the reports so far.  Only a pass adds one. -/
def TableOp.applyReporting (s : Tables α × List (Report α)) :
    TableOp α → Except FlushFault (Tables α × List (Report α))
  | flush env => (flushPass firstByte cfg env s.1).map fun r => (r.1, s.2 ++ [r.2])
  | op => (op.apply firstByte cfg s.1).map fun t => (t, s.2)

/-- The tables after a sequence of operations on empty ones, and what was reported. -/
def runReporting (h : List (TableOp α)) : Except FlushFault (Tables α × List (Report α)) :=
  h.foldlM (TableOp.applyReporting firstByte cfg) (.empty, [])

end Run

/-! ## Counts -/

section Counts
variable {α : Type}

/-- The integer that is reported, if it is one, and zero for other numbers, which are no counts. -/
def MetricValue.count : MetricValue α → Int
  | int n => n
  | real _ => 0

/-- The count that a pass reports to Graphite for the timer `k`, found by the path of its line. -/
def graphiteCount (k : CString) (r : Report α) : Int :=
  ((r.graphite.filter fun l => l.path = "stats.timers.".toList ++ k ++ ".count".toList).map
    fun l => l.value.count).sum

/-- The count that a pass reports to Ganglia for the timer `k`, found by the name of its message. -/
def gmetricCount (k : CString) (r : Report α) : Int :=
  ((r.gmetric.filter fun m => m.name = k ++ "_count".toList).map fun m => m.value.count).sum

/-- The samples that the tables hold of the timer `k`, none if there is no such timer. -/
def held (t : Tables α) (k : CString) : Nat :=
  ((lookup StatsdTimer.key t.timers k).map fun s => s.values.length).getD 0

/-- The updates of the timer `k` in a history, flushed or not. -/
def updates (h : List (TableOp α)) (k : CString) : Nat :=
  h.countP fun op => op.timerKey = some k

/-- A pass follows an update of the timer `k`, at once or later. -/
def FlushesSamples (h : List (TableOp α)) (k : CString) : Prop :=
  ∃ as env bs, h = as ++ .flush env :: bs ∧ ∃ value, .timer k value ∈ as

/-- Updates of timers and passes. -/
def TableOp.OnTimers : TableOp α → Prop
  | timer key _ => key.length < keySize
  | flush _ => True
  | counter .. | gauge .. => False

variable [Field α] [LinearOrder α]

/-- After the history `h`, the counts reported for the timer `k` and its samples still
held add up to its updates, in the report of each backend that is enabled. -/
def CountsAddUp (firstByte : α → Int) (cfg : FlushConfig) (h : List (TableOp α)) (k : CString) :
    Prop :=
  ∃ t reports, runReporting firstByte cfg h = .ok (t, reports) ∧
    (cfg.enableGraphite → (reports.map (graphiteCount k)).sum + held t k = updates h k) ∧
    (cfg.enableGmetric → (reports.map (gmetricCount k)).sum + held t k = updates h k)

end Counts

/-! ## Every count reported is zero -/

section Zero
variable {α : Type}

/-- A report whose integers are all zero, the total of the entries apart, which has a path and a
name of its own. -/
structure ZeroCounts (r : Report α) : Prop where
  graphite : ∀ l ∈ r.graphite, l.value.count = 0 ∨ l.path = "statsd.numStats".toList
  gmetric : ∀ m ∈ r.gmetric, m.value.count = 0 ∨ m.name = "statsd_numstats_collected".toList

theorem zeroCounts_empty : ZeroCounts (.empty : Report α) := by
  refine ⟨?_, ?_⟩
  · rintro l ⟨⟩
  · rintro m ⟨⟩

theorem ZeroCounts.append {r s : Report α} (hr : ZeroCounts r) (hs : ZeroCounts s) :
    ZeroCounts (r.append s) := by
  refine ⟨fun l hl => ?_, fun m hm => ?_⟩
  · rcases List.mem_append.mp hl with hl | hl
    · exact hr.graphite l hl
    · exact hs.graphite l hl
  · rcases List.mem_append.mp hm with hm | hm
    · exact hr.gmetric m hm
    · exact hs.gmetric m hm

theorem zeroCounts_concat {rs : List (Report α)} (h : ∀ r ∈ rs, ZeroCounts r) :
    ZeroCounts (Report.concat rs) := by
  induction rs with
  | nil => exact zeroCounts_empty
  | cons r rs ih =>
    have hrest := ih fun s hs => h s (List.mem_cons_of_mem _ hs)
    exact (h r (List.mem_cons_self ..)).append hrest

/-- What is sent to the backends that are enabled. -/
theorem zeroCounts_enabled {cfg : FlushConfig} {graphite : List (GraphiteLine α)}
    {gmetric : List (GmetricMessage α)} (h : ZeroCounts ⟨graphite, gmetric⟩) :
    ZeroCounts (.enabled cfg graphite gmetric) := by
  refine ⟨fun l hl => ?_, fun m hm => ?_⟩
  · by_cases hg : cfg.enableGraphite = true
    · rw [Report.enabled, if_pos hg] at hl
      exact h.graphite l hl
    · rw [Report.enabled, if_neg hg] at hl
      cases hl
  · by_cases hg : cfg.enableGmetric = true
    · rw [Report.enabled, if_pos hg] at hm
      exact h.gmetric m hm
    · rw [Report.enabled, if_neg hg] at hm
      cases hm

variable [Field α] [LinearOrder α]

omit [Field α] [LinearOrder α] in
theorem zeroCounts_reportValue (cfg : FlushConfig) (ts : Int) (key : CString) (rate value : α)
    (counts units : CString) : ZeroCounts (reportValue cfg ts key rate value counts units) := by
  refine zeroCounts_enabled ⟨?_, ?_⟩
  · simp [MetricValue.count]
  · simp [MetricValue.count]

omit [LinearOrder α] in
/-- The count has been cleared when it is reported. -/
theorem zeroCounts_reportTimer (cfg : FlushConfig) (ts : Int) (key : CString)
    (s : TimerSummary α) : ZeroCounts (reportTimer cfg ts key s 0) := by
  refine zeroCounts_enabled ⟨?_, ?_⟩
  · simp [MetricValue.count]
  · simp [MetricValue.count]

theorem zeroCounts_flushTimer {firstByte : α → Int} {cfg : FlushConfig} {ts : Int}
    {s : StatsdTimer α} {r : StatsdTimer α × Report α}
    (h : flushTimer firstByte cfg ts s = .ok r) : ZeroCounts r.2 := by
  unfold flushTimer at h
  split at h
  · split at h
    · cases h
    · obtain rfl := Except.ok.inj h
      exact zeroCounts_reportTimer cfg ts s.key _
  · obtain rfl := Except.ok.inj h
    exact zeroCounts_empty

theorem zeroCounts_flushTimers {firstByte : α → Int} {cfg : FlushConfig} {ts : Int}
    {timers : List (StatsdTimer α)} {r : List (StatsdTimer α) × Report α}
    (h : flushTimers firstByte cfg ts timers = .ok r) : ZeroCounts r.2 := by
  induction timers generalizing r with
  | nil =>
    obtain rfl := Except.ok.inj h
    exact zeroCounts_empty
  | cons s timers ih =>
    obtain ⟨first, rest, hfirst, hrest, rfl⟩ := flushTimers_cons_eq_ok h
    exact (zeroCounts_flushTimer hfirst).append (ih hrest)

/-- **A pass reports no count but zero**, whatever the tables hold. -/
theorem zeroCounts_flushPass {firstByte : α → Int} {cfg : FlushConfig} {env : FlushEnv}
    {t : Tables α} {r : Tables α × Report α} (h : flushPass firstByte cfg env t = .ok r) :
    ZeroCounts r.2 := by
  obtain ⟨timers, htimers, hreport, -⟩ := flushPass_eq_ok h
  rw [hreport]
  refine .append (zeroCounts_concat fun s hs => ?_) <| .append
    (zeroCounts_flushTimers htimers) <| .append (zeroCounts_concat fun s hs => ?_) <|
    zeroCounts_enabled ⟨?_, ?_⟩
  · obtain ⟨c, -, rfl⟩ := List.mem_map.mp hs
    exact zeroCounts_reportValue ..
  · obtain ⟨g, -, rfl⟩ := List.mem_map.mp hs
    exact zeroCounts_reportValue ..
  · simp
  · simp

omit [Field α] [LinearOrder α] in
theorem ZeroCounts.graphiteCount_eq {r : Report α} (h : ZeroCounts r) (k : CString) :
    graphiteCount k r = 0 := by
  refine List.sum_eq_zero fun n hn => ?_
  obtain ⟨l, hl, rfl⟩ := List.mem_map.mp hn
  obtain ⟨hmem, hpath⟩ := List.mem_filter.mp hl
  rcases h.graphite l hmem with hzero | hstats
  · exact hzero
  · -- the path of the total is no timer's
    rw [hstats] at hpath
    simp at hpath

omit [Field α] [LinearOrder α] in
theorem ZeroCounts.gmetricCount_eq {r : Report α} (h : ZeroCounts r) (k : CString) :
    gmetricCount k r = 0 := by
  refine List.sum_eq_zero fun n hn => ?_
  obtain ⟨m, hm, rfl⟩ := List.mem_map.mp hn
  obtain ⟨hmem, hname⟩ := List.mem_filter.mp hm
  rcases h.gmetric m hmem with hzero | hstats
  · exact hzero
  · -- a name that ends in `d` is no timer's
    rw [hstats, decide_eq_true_eq] at hname
    have hlast := congrArg List.getLast? hname
    rw [List.getLast?_append] at hlast
    cases hlast

end Zero

/-! ## Runs -/

section Runs
variable {α : Type}

theorem TableOp.OnTimers.wellFormed {op : TableOp α} (h : op.OnTimers) : op.WellFormed := by
  cases op with
  | timer key value => exact h
  | flush env => trivial
  | counter key value sampleRate => cases h
  | gauge key value plusminus => cases h

theorem updates_append (h : List (TableOp α)) (op : TableOp α) (k : CString) :
    updates (h ++ [op]) k = updates h k + if op.timerKey = some k then 1 else 0 := by
  rw [updates, List.countP_append, updates, List.countP_singleton]
  by_cases hk : op.timerKey = some k <;> simp [hk]

theorem updates_eq_zero_iff {h : List (TableOp α)} {k : CString} :
    updates h k = 0 ↔ ∀ value, .timer k value ∉ h := by
  rw [updates, List.countP_eq_zero]
  constructor
  · intro hnone value hmem
    exact hnone _ hmem (by simp [TableOp.timerKey])
  · rintro hnone (_ | ⟨key, value⟩ | _ | _) hop
    · simp [TableOp.timerKey]
    · simp only [TableOp.timerKey, Option.some.injEq, decide_eq_true_eq]
      rintro rfl
      exact hnone value hop
    · simp [TableOp.timerKey]
    · simp [TableOp.timerKey]

/-- Where an operation stands in a history that was extended by one. -/
theorem append_singleton_eq {h as bs : List (TableOp α)} {op op' : TableOp α}
    (heq : h ++ [op] = as ++ op' :: bs) :
    (h = as ∧ op = op') ∨ ∃ bs', h = as ++ op' :: bs' := by
  rcases List.eq_nil_or_concat' bs with rfl | ⟨bs', b, rfl⟩
  · obtain ⟨hh, hop⟩ := List.append_inj' heq rfl
    exact .inl ⟨hh, (List.cons.inj hop).1⟩
  · rw [← List.cons_append, ← List.append_assoc] at heq
    exact .inr ⟨bs', (List.append_inj' heq rfl).1⟩

/-- The last pass decides. -/
theorem flushesSamples_append_flush {h : List (TableOp α)} {env : FlushEnv} {k : CString} :
    FlushesSamples (h ++ [.flush env]) k ↔ ∃ value, .timer k value ∈ h := by
  constructor
  · rintro ⟨as, env', bs, heq, value, hmem⟩
    refine ⟨value, ?_⟩
    rcases append_singleton_eq heq with ⟨rfl, -⟩ | ⟨bs', rfl⟩
    · exact hmem
    · exact List.mem_append_left _ hmem
  · rintro ⟨value, hmem⟩
    exact ⟨h, env, [], rfl, value, hmem⟩

theorem flushesSamples_append_other {h : List (TableOp α)} {op : TableOp α} {k : CString}
    (hop : op.isFlush = false) : FlushesSamples (h ++ [op]) k ↔ FlushesSamples h k := by
  constructor
  · rintro ⟨as, env, bs, heq, hmem⟩
    rcases append_singleton_eq heq with ⟨-, rfl⟩ | ⟨bs', rfl⟩
    · cases hop
    · exact ⟨as, env, bs', rfl, hmem⟩
  · rintro ⟨as, env, bs, rfl, hmem⟩
    exact ⟨as, env, bs ++ [op], by simp, hmem⟩

/-- All updates are in the samples since the last pass exactly if none was flushed. -/
theorem length_samples_eq_updates_iff {h : List (TableOp α)} {k : CString} :
    (samples h k).length = updates h k ↔ ¬ FlushesSamples h k := by
  induction h using List.reverseRecOn with
  | nil =>
    refine iff_of_true rfl ?_
    rintro ⟨as, env, bs, heq, -⟩
    simp at heq
  | append_singleton h op ih =>
    rw [samples_append, updates_append]
    cases op with
    | flush env =>
      rw [flushesSamples_append_flush, not_exists, ← updates_eq_zero_iff]
      simp [TableOp.isFlush, TableOp.timerKey, eq_comm]
    | timer key value =>
      rw [flushesSamples_append_other rfl, ← ih]
      by_cases hk : key = k <;> simp [TableOp.isFlush, TableOp.timerKey, TableOp.sample, hk]
    | counter key value sampleRate =>
      rw [flushesSamples_append_other rfl, ← ih]
      simp [TableOp.isFlush, TableOp.timerKey, TableOp.sample]
    | gauge key value plusminus =>
      rw [flushesSamples_append_other rfl, ← ih]
      simp [TableOp.isFlush, TableOp.timerKey, TableOp.sample]

variable [Field α] [LinearOrder α]

/-- The samples held are those since the last pass. -/
theorem held_eq {h : List (TableOp α)} {t : Tables α} (hr : Refines h t) (k : CString) :
    held t k = (samples h k).length := by
  have hkeys : (timersOf h).map StatsdTimer.key = keysOf TableOp.timerKey h := by
    rw [timersOf, List.map_map]
    exact List.map_id _
  rw [held, hr.timers]
  by_cases hk : k ∈ keysOf TableOp.timerKey h
  · have hnd : ((timersOf h).map StatsdTimer.key).Nodup := hkeys ▸ nodup_eraseDups _
    obtain ⟨i, hi⟩ := List.mem_iff_getElem?.mp
      (List.mem_map_of_mem (f := fun k => (⟨k, (samples h k).length, samples h k⟩ :
        StatsdTimer α)) hk)
    have hfind := lookup_getElem? hnd hi
    rw [hfind]
    rfl
  · rw [lookup_eq_none (hkeys ▸ hk), samples_of_notMem hk]
    rfl

variable (firstByte : α → Int) {cfg : FlushConfig}

theorem applyReporting_update {t t' : Tables α} {op : TableOp α} (hop : op.isFlush = false)
    (hok : op.apply firstByte cfg t = .ok t') (reports : List (Report α)) :
    op.applyReporting firstByte cfg (t, reports) = .ok (t', reports) := by
  cases op with
  | flush env => cases hop
  | counter key value sampleRate => simp only [TableOp.applyReporting, hok, Except.map]
  | timer key value => simp only [TableOp.applyReporting, hok, Except.map]
  | gauge key value plusminus => simp only [TableOp.applyReporting, hok, Except.map]

/-- Every run succeeds, in step with its history, and reports no count but zero. -/
theorem runReporting_refines (hlo : 50 ≤ cfg.percentile) (hhi : cfg.percentile ≤ 100)
    (h : List (TableOp α)) (hops : ∀ op ∈ h, op.WellFormed) :
    ∃ t reports, runReporting firstByte cfg h = .ok (t, reports) ∧ Refines h t ∧
      ∀ r ∈ reports, ZeroCounts r := by
  induction h using List.reverseRecOn with
  | nil => exact ⟨.empty, [], rfl, ⟨rfl, rfl, rfl⟩, by rintro r ⟨⟩⟩
  | append_singleton h op ih =>
    obtain ⟨t, reports, hok, hr, hzero⟩ := ih fun op' hop' => hops op' (List.mem_append_left _ hop')
    obtain ⟨t', hok', hr'⟩ := op.apply_refines firstByte hlo hhi hr
      (hops op (List.mem_append_right _ (List.mem_singleton_self op)))
    -- the last operation starts from what the others have left and reported
    have hrun : ∀ s, op.applyReporting firstByte cfg (t, reports) = .ok s →
        runReporting firstByte cfg (h ++ [op]) = .ok s := by
      intro s hs
      rw [runReporting] at hok ⊢
      rw [List.foldlM_append, bind_eq_ok]
      refine ⟨_, hok, ?_⟩
      rw [List.foldlM_cons, bind_eq_ok]
      exact ⟨s, hs, rfl⟩
    cases op with
    | flush env =>
      cases hpass : flushPass firstByte cfg env t with
      | error e =>
        rw [TableOp.apply, hpass] at hok'
        cases hok'
      | ok r =>
        rw [TableOp.apply, hpass] at hok'
        obtain rfl := Except.ok.inj hok'
        refine ⟨r.1, reports ++ [r.2], hrun _ ?_, hr', fun s hs => ?_⟩
        · rw [TableOp.applyReporting, hpass]
          rfl
        · rcases List.mem_append.mp hs with hs | hs
          · exact hzero s hs
          · rw [List.mem_singleton.mp hs]
            exact zeroCounts_flushPass hpass
    | counter key value sampleRate =>
      exact ⟨t', reports, hrun _ (applyReporting_update firstByte rfl hok' reports), hr', hzero⟩
    | timer key value =>
      exact ⟨t', reports, hrun _ (applyReporting_update firstByte rfl hok' reports), hr', hzero⟩
    | gauge key value plusminus =>
      exact ⟨t', reports, hrun _ (applyReporting_update firstByte rfl hok' reports), hr', hzero⟩

/-- What adds up after a run: the samples that are held, and nothing else. -/
theorem countsAddUp_iff_samples (hlo : 50 ≤ cfg.percentile) (hhi : cfg.percentile ≤ 100)
    (henabled : cfg.enableGraphite ∨ cfg.enableGmetric) {h : List (TableOp α)}
    (hops : ∀ op ∈ h, op.WellFormed) (k : CString) :
    CountsAddUp firstByte cfg h k ↔ (samples h k).length = updates h k := by
  obtain ⟨t, reports, hok, hr, hzero⟩ := runReporting_refines firstByte hlo hhi h hops
  -- every count that is reported is zero
  have hgraphite : (reports.map (graphiteCount k)).sum = 0 := by
    refine List.sum_eq_zero fun n hn => ?_
    obtain ⟨r, hr, rfl⟩ := List.mem_map.mp hn
    exact (hzero r hr).graphiteCount_eq k
  have hgmetric : (reports.map (gmetricCount k)).sum = 0 := by
    refine List.sum_eq_zero fun n hn => ?_
    obtain ⟨r, hr, rfl⟩ := List.mem_map.mp hn
    exact (hzero r hr).gmetricCount_eq k
  have hheld := held_eq hr k
  constructor
  · rintro ⟨t', reports', hok', hsum, hsum'⟩
    obtain ⟨rfl, rfl⟩ := Prod.mk.inj (Except.ok.inj (hok.symm.trans hok'))
    rcases henabled with hg | hg
    · have := hsum hg
      omega
    · have := hsum' hg
      omega
  · intro heq
    exact ⟨t, reports, hok, fun _ => by omega, fun _ => by omega⟩

/-- **The counts add up** as long as no pass has flushed a sample of the timer; from then on they
never do again. -/
theorem countsAddUp_iff (hpct : cfg.percentile = 90)
    (henabled : cfg.enableGraphite ∨ cfg.enableGmetric) {h : List (TableOp α)}
    (hops : ∀ op ∈ h, op.OnTimers) (k : CString) :
    CountsAddUp firstByte cfg h k ↔ ¬ FlushesSamples h k := by
  have hwell : ∀ op ∈ h, op.WellFormed := fun op hop => (hops op hop).wellFormed
  rw [countsAddUp_iff_samples firstByte (by omega) (by omega) henabled hwell,
    length_samples_eq_updates_iff]

/-- The theorem at an update without a pass behind it. -/
theorem countsAddUp_unflushed :
    CountsAddUp (fun _ => 0) ⟨true, false, 10, 90, none⟩
      [.flush ⟨0, 0, false⟩, .timer ['a'] (5 : Rat)] ['a'] := by
  refine (countsAddUp_iff _ rfl (.inl rfl) ?_ _).mpr ?_
  · simp [TableOp.OnTimers, keySize]
  · rintro ⟨as, env, bs, heq, value, hmem⟩
    rcases as with _ | ⟨a, _ | ⟨b, as⟩⟩
    · cases hmem
    · simp at heq
    · simp at heq

/-- The sample 5, flushed by a pass: the pass reports a count of 0, and nothing is
held. -/
theorem flushed_sample_not_counted :
    (∀ op ∈ [TableOp.timer ['a'] (5 : Rat), .flush ⟨0, 0, false⟩], op.OnTimers) ∧
      ¬ CountsAddUp (fun _ => 0) ⟨true, false, 10, 90, none⟩
        [.timer ['a'] (5 : Rat), .flush ⟨0, 0, false⟩] ['a'] := by
  have hops : ∀ op ∈ [TableOp.timer ['a'] (5 : Rat), .flush ⟨0, 0, false⟩], op.OnTimers := by
    simp [TableOp.OnTimers, keySize]
  refine ⟨hops, ?_⟩
  rw [countsAddUp_iff_samples _ (by decide) (by decide) (.inl rfl)
    fun op hop => (hops op hop).wellFormed]
  simp [samples, sinceFlush, updates, TableOp.isFlush, TableOp.timerKey]

end Runs
end StatsdC
