import Mathlib.Data.List.Sort
import StatsdC.Lib.Binary64
import StatsdC.Tables

/-!
# A flush pass

One pass of `p_thread_flush` over the tables, run without interference: what it leaves in them and
what it reports.  The report is kept structured, a Graphite line as its path, value and time and a
Ganglia message as its fields, since how a number is formatted does not matter to the pass itself;
the texts are in `StatsdC.GraphitePayload` and `StatsdC.UtString`, the datagrams in
`StatsdC.Gmetric`.

A pass goes through the counters, the timers and the gauges, in this order, and then reports how
many metrics there are in the tables.  Counters and timers are cleared on the way, a timer only if
it has samples, and an entry is never taken out.  Each of the two backends gets its part of the
report only if it is enabled.

The percentile value is read through the `char *` that `utarray_eltptr` returns: the number
reported is the first byte of the sample, here the parameter `firstByte`.  The index of the
percentile element is computed in doubles, as in the program, with quotient and product rounded.
All other arithmetic is that of the number type, exact for the numbers of `StatsdC.Numbers`, and a
division by an interval of zero or a missing percentile element is in
`StatsdC.FlushArithmetic`.

The samples are sorted by a stable sort with `double_sort`.  C does not say which order `qsort`
leaves of samples that compare equal, but those are the same number.  With a NaN among the samples
`double_sort` is no order at all, and what `qsort` leaves is up to the library.
-/

namespace StatsdC

/-- The options that a pass reads.  `enableGmetric` is its value once the pass has
tried to open the connection. -/
structure FlushConfig where
  enableGraphite : Bool
  enableGmetric : Bool
  flushInterval : Int
  /-- `percentiles[0]`. -/
  percentile : Int
  gangliaMetricPrefix : Option CString

/-- What a pass finds outside: the time at its start, the time at its end, and
whether a socket to Graphite could be made. -/
structure FlushEnv where
  ts : Int
  now : Int
  socket : Bool

/-- A number as it is reported: with `%f` or `%Lf`, or with `%d`. -/
inductive MetricValue (α : Type) where
  | real (x : α)
  | int (n : Int)
  deriving DecidableEq

/-- A line for Graphite: the path, the value and the time, which are written with a space between
each two. -/
structure GraphiteLine (α : Type) where
  path : CString
  value : MetricValue α
  ts : Int
  deriving DecidableEq

/-- A message for Ganglia, without the fields that are the same in all. -/
structure GmetricMessage (α : Type) where
  group : CString
  name : CString
  value : MetricValue α
  units : CString
  deriving DecidableEq

/-- What a pass reports: lines and messages in the order in which they are made. -/
structure Report (α : Type) where
  graphite : List (GraphiteLine α)
  gmetric : List (GmetricMessage α)
  deriving DecidableEq

/-- An access without a meaning. -/
inductive FlushFault where
  /-- The `NULL` that `utarray_eltptr` returned is read. -/
  | nullElement
  | table (fault : TableFault)
  deriving DecidableEq

namespace Report
variable {α : Type}

/-- Nothing. -/
def empty : Report α := ⟨[], []⟩

/-- One report after another. -/
def append (r s : Report α) : Report α := ⟨r.graphite ++ s.graphite, r.gmetric ++ s.gmetric⟩

/-- The lines and messages of the backends that are enabled.  A pass makes neither for the others.
-/
def enabled (cfg : FlushConfig) (graphite : List (GraphiteLine α))
    (gmetric : List (GmetricMessage α)) : Report α :=
  ⟨if cfg.enableGraphite then graphite else [], if cfg.enableGmetric then gmetric else []⟩

end Report

/-- A key behind `ganglia_metric_prefix`, which may not be set. -/
def FlushConfig.prefixed (cfg : FlushConfig) (key : CString) : CString :=
  cfg.gangliaMetricPrefix.getD [] ++ key

section Pass
variable {α : Type} [Add α] [Div α] [Zero α] [NatCast α] [IntCast α] [LT α] [DecidableLT α]
variable [BEq α]

/-- The report on a counter or gauge: `rate` under its key and `value` under its key behind
`counts`.  For Ganglia the second name has no prefix. -/
def reportValue (cfg : FlushConfig) (ts : Int) (key : CString) (rate value : α)
    (counts units : CString) : Report α :=
  let k := cfg.prefixed key
  .enabled cfg
    [⟨"stats.".toList ++ key, .real rate, ts⟩, ⟨counts ++ key, .real value, ts⟩]
    [⟨k, k, .real rate, units⟩, ⟨key, key, .real value, units⟩]

/-- The body of the loop over the counters: the rate is the value divided by the interval, and the
counter starts over. -/
def flushCounter (cfg : FlushConfig) (ts : Int) (c : StatsdCounter α) :
    StatsdCounter α × Report α :=
  let value := c.value / (cfg.flushInterval : α)
  ({ c with value := 0 },
    reportValue cfg ts c.key value c.value "stats_counts_".toList "count".toList)

/-- The body of the loop over the gauges, which reports the value twice and leaves the gauge as it
is. -/
def flushGauge (cfg : FlushConfig) (ts : Int) (g : StatsdGauge α) : Report α :=
  reportValue cfg ts g.key g.value g.value "stats_gauges_".toList "gauge".toList

/-- `double_sort`.  Two numbers that are equal for C give 0, and two that do not compare, which
takes a NaN, give 1. -/
def doubleSort (a b : α) : Int := if a == b then 0 else if a < b then -1 else 1

/-- `utarray_sort` with `double_sort`, as a stable insertion sort.  With a NaN among the samples
`double_sort` is no order, and which order `qsort` leaves is up to the C library. -/
def utarraySort (values : List α) : List α :=
  values.insertionSort fun a b => doubleSort a b ≤ 0

/-- The loop that takes the least and the greatest value, from the first one on.  A timer without
samples has two zeros, which are not reported. -/
def minMax : List α → α × α
  | [] => (0, 0)
  | x :: xs =>
    xs.foldl (fun m i => (if i < m.1 then i else m.1, if m.2 < i then i else m.2)) (x, x)

/-- `utarray_eltptr`.  A negative index is larger than any length, as an unsigned
one. -/
def utarrayEltptr (values : List α) (j : Int) : Option α :=
  if 0 ≤ j then values[j.toNat]? else none

/-- `( pctThreshold / 100.0 ) * s_timer->count` as an `int`: quotient and product are
rounded, and what is left of a fraction is cut off. -/
def thresholdIndex (pctThreshold : Int) (count : Nat) : Int :=
  Binary64.truncate (Binary64.nearest (Binary64.nearest (pctThreshold / 100) * count))

/-- What a pass computes of a timer, under the names of the local variables. -/
structure TimerSummary (α : Type) where
  mean : α
  max : α
  maxAtThreshold : α
  min : α
  deriving DecidableEq

/-- The summary of the sorted values.  One value is all there is to say; of more, the mean leaves
out the last of them and the percentile value is a byte. -/
def summarize (firstByte : α → Int) (pctThreshold : Int) (count : Nat) (values : List α) :
    Except FlushFault (TimerSummary α) :=
  let (min, max) := minMax values
  if 1 < count then
    match utarrayEltptr values (thresholdIndex pctThreshold count - 1) with
    | none => .error .nullElement
    | some x =>
      -- the last value is left out of the sum
      let sum := (values.take (count - 1)).foldl (· + ·) 0
      .ok ⟨sum / (count : α), max, (firstByte x : α), min⟩
  else
    .ok ⟨min, max, max, min⟩

/-- The report on a timer. -/
def reportTimer (cfg : FlushConfig) (ts : Int) (key : CString) (s : TimerSummary α) (count : Nat) :
    Report α :=
  let path := "stats.timers.".toList ++ key
  let thousand : α := ((1000 : Nat) : α)
  .enabled cfg
    [⟨path ++ ".mean".toList, .real s.mean, ts⟩,
      ⟨path ++ ".upper".toList, .real s.max, ts⟩,
      ⟨path ++ ".upper_".toList ++ printD cfg.percentile, .real s.maxAtThreshold, ts⟩,
      ⟨path ++ ".lower".toList, .real s.min, ts⟩,
      ⟨path ++ ".count".toList, .int count, ts⟩]
    [⟨key, key ++ "_mean".toList, .real (s.mean / thousand), "sec".toList⟩,
      ⟨key, key ++ "_upper".toList, .real (s.max / thousand), "sec".toList⟩,
      ⟨key, key ++ "_".toList ++ printD cfg.percentile ++ "th_pct".toList,
        .real (s.maxAtThreshold / thousand), "sec".toList⟩,
      ⟨key, key ++ "_lower".toList, .real (s.min / thousand), "sec".toList⟩,
      ⟨key, key ++ "_count".toList, .int count, "count".toList⟩]

/-- The body of the loop over the timers.  The count is cleared with the values, before it is
reported, and a timer with no samples is passed over. -/
def flushTimer (firstByte : α → Int) (cfg : FlushConfig) (ts : Int) (t : StatsdTimer α) :
    Except FlushFault (StatsdTimer α × Report α) :=
  if 0 < t.count then
    match summarize firstByte cfg.percentile t.count (utarraySort t.values) with
    | .error e => .error e
    | .ok s =>
      -- `s_timer->count` is read again for the report
      let t := { t with values := [], count := 0 }
      .ok (t, reportTimer cfg ts t.key s t.count)
  else
    .ok (t, .empty)

/-- The loop over the timers. -/
def flushTimers (firstByte : α → Int) (cfg : FlushConfig) (ts : Int) :
    List (StatsdTimer α) → Except FlushFault (List (StatsdTimer α) × Report α)
  | [] => .ok ([], .empty)
  | t :: timers =>
    match flushTimer firstByte cfg ts t with
    | .error e => .error e
    | .ok (t, report) =>
      match flushTimers firstByte cfg ts timers with
      | .error e => .error e
      | .ok (timers, reports) => .ok (t :: timers, report.append reports)

/-- The reports of a loop, one after another. -/
def Report.concat : List (Report α) → Report α := List.foldr Report.append .empty

/-- `statsd.numStats`. -/
def reportTotals (cfg : FlushConfig) (ts : Int) (numStats : Nat) : Report α :=
  .enabled cfg [⟨"statsd.numStats".toList, .int numStats, ts⟩]
    [⟨"statsd".toList, "statsd_numstats_collected".toList, .int numStats, "count".toList⟩]

/-- `p_thread_flush`, from one sleep to the next.  A pass that reads a missing percentile element
has no result. -/
def flushPass (firstByte : α → Int) (cfg : FlushConfig) (env : FlushEnv) (t : Tables α) :
    Except FlushFault (Tables α × Report α) :=
  let counters := t.counters.map (flushCounter cfg env.ts)
  match flushTimers firstByte cfg env.ts t.timers with
  | .error e => .error e
  | .ok (timers, timersReport) =>
    -- a timer without values counts too
    let numStats := t.counters.length + t.timers.length + t.gauges.length
    let report := (Report.concat (counters.map Prod.snd)).append <| timersReport.append <|
      (Report.concat (t.gauges.map (flushGauge cfg env.ts))).append <|
      reportTotals cfg env.ts numStats
    let t := { t with counters := counters.map Prod.fst, timers }
    -- `connect` and `send` may fail: the time is noted all the same
    if cfg.enableGraphite && env.socket then
      match updateStat t "graphite".toList "last_flush".toList (printD env.now) with
      | .error e => .error (.table e)
      | .ok t => .ok (t, report)
    else
      .ok (t, report)

/-! ## What a pass that ends has done -/

variable {firstByte : α → Int} {cfg : FlushConfig}

/-- A loop that ends has been through its first timer and through the others. -/
theorem flushTimers_cons_eq_ok {ts : Int} {t : StatsdTimer α} {timers : List (StatsdTimer α)}
    {r : List (StatsdTimer α) × Report α}
    (h : flushTimers firstByte cfg ts (t :: timers) = .ok r) :
    ∃ first rest, flushTimer firstByte cfg ts t = .ok first ∧
      flushTimers firstByte cfg ts timers = .ok rest ∧
      r = (first.1 :: rest.1, first.2.append rest.2) := by
  unfold flushTimers at h
  cases hfirst : flushTimer firstByte cfg ts t with
  | error e =>
    rw [hfirst] at h
    cases h
  | ok first =>
    rw [hfirst] at h
    cases hrest : flushTimers firstByte cfg ts timers with
    | error e =>
      simp only [hrest] at h
      cases h
    | ok rest =>
      simp only [hrest] at h
      exact ⟨first, rest, rfl, rfl, (Except.ok.inj h).symm⟩

/-- The tables after the three loops. -/
def flushedTables (cfg : FlushConfig) (ts : Int) (t : Tables α) (timers : List (StatsdTimer α)) :
    Tables α :=
  { t with counters := t.counters.map fun c => (flushCounter cfg ts c).1, timers }

/-- A pass that ends has been through the timers, and what follows its loops is at most one update
of a stat, which is the time of the pass. -/
theorem flushPass_eq_ok {env : FlushEnv} {t : Tables α} {r : Tables α × Report α}
    (h : flushPass firstByte cfg env t = .ok r) :
    ∃ timers, flushTimers firstByte cfg env.ts t.timers = .ok timers ∧
      r.2 = (Report.concat (t.counters.map fun c => (flushCounter cfg env.ts c).2)).append
        (timers.2.append ((Report.concat (t.gauges.map (flushGauge cfg env.ts))).append
          (reportTotals cfg env.ts (t.counters.length + t.timers.length + t.gauges.length)))) ∧
      (r.1 = flushedTables cfg env.ts t timers.1 ∨
        updateStat (flushedTables cfg env.ts t timers.1) "graphite".toList "last_flush".toList
          (printD env.now) = .ok r.1) := by
  have hsnd : t.counters.map (fun c => (flushCounter cfg env.ts c).2) =
      (t.counters.map (flushCounter cfg env.ts)).map Prod.snd := by
    rw [List.map_map]
    rfl
  have hfst : ∀ timers, flushedTables cfg env.ts t timers =
      { t with counters := (t.counters.map (flushCounter cfg env.ts)).map Prod.fst, timers } := by
    intro timers
    rw [flushedTables, List.map_map]
    rfl
  unfold flushPass at h
  cases htimers : flushTimers firstByte cfg env.ts t.timers with
  | error e =>
    rw [htimers] at h
    cases h
  | ok timers =>
    rw [htimers] at h
    refine ⟨timers, rfl, ?_⟩
    rw [hsnd, hfst]
    simp only at h
    split at h
    · split at h
      · cases h
      · rename_i hstat
        obtain rfl := Except.ok.inj h
        exact ⟨rfl, .inr hstat⟩
    · obtain rfl := Except.ok.inj h
      exact ⟨rfl, .inl rfl⟩

end Pass
end StatsdC
