import StatsdC.Options
import StatsdC.TableRefinement
import StatsdC.TimerSamples

/-!
# The arithmetic of a pass

The pass once more, with the checks that the program leaves out: a divisor that is zero and a
percentile element that does not exist end it.  In the program the first divides a `long double`
by zero, which is an infinity or a NaN in the report, and the second reads through a null pointer.

`checkedPass` is made of the same loops as `flushPass`, each step with its check in front, so that
where no check fails it is the pass itself (`checkedPass_refines`).  That no check fails is
`PassDefined`, and in a state that can be reached it is so exactly if there is an interval to divide
by, or no counter to divide, and every timer with more than one sample has enough of them for the
percentile (`passDefined_iff`).

The divisors of a pass are the interval, for the rate of a counter, and the number of samples, for
the mean of a timer with more than one; so the second of them is never zero.  That a timer's count
is the number of its samples holds in every reachable state (`StatsdC.TimerCounts`), and without it
the second part of the condition would not be exact.

With the options as they are unless others are given, both conditions hold; `-F 0` and a small
`-T` make them fail (`zero_interval_divides`).
-/

namespace StatsdC
open Fallible

/-- What a check finds: a divisor that is zero, or a percentile element that is not there. -/
inductive ArithmeticFault where
  | divisionByZero
  /-- The `NULL` of `utarray_eltptr`. -/
  | nullElement
  deriving DecidableEq

/-- A division with its divisor checked.  Zero has one sign here, since the divisors are integers.
-/
def checkedDiv (x y : Num) : Except ArithmeticFault Num :=
  if y = 0 then .error .divisionByZero else .ok (x / y)

/-- `flushCounter`, checked: the rate is divided by the interval. -/
def checkedCounter (cfg : FlushConfig) (ts : Int) (c : StatsdCounter Num) :
    Except ArithmeticFault (StatsdCounter Num × Report Num) := do
  let value ← checkedDiv c.value (cfg.flushInterval : Num)
  return ({ c with value := 0 },
    reportValue cfg ts c.key value c.value "stats_counts_".toList "count".toList)

/-- `summarize`, checked: the percentile element, and then the division of the mean. -/
def checkedSummarize (firstByte : Num → Int) (pctThreshold : Int) (count : Nat)
    (values : List Num) : Except ArithmeticFault (TimerSummary Num) :=
  let (min, max) := minMax values
  if 1 < count then
    match utarrayEltptr values (thresholdIndex pctThreshold count - 1) with
    | none => .error .nullElement
    | some x => do
      let sum := (values.take (count - 1)).foldl (· + ·) 0
      let mean ← checkedDiv sum (count : Num)
      return ⟨mean, max, (firstByte x : Num), min⟩
  else
    .ok ⟨min, max, max, min⟩

/-- `flushTimer`, checked.  A timer without samples divides nothing. -/
def checkedTimer (firstByte : Num → Int) (cfg : FlushConfig) (ts : Int) (s : StatsdTimer Num) :
    Except ArithmeticFault (StatsdTimer Num × Report Num) :=
  if 0 < s.count then do
    let summary ← checkedSummarize firstByte cfg.percentile s.count (utarraySort s.values)
    return ({ s with values := [], count := 0 }, reportTimer cfg ts s.key summary 0)
  else
    .ok (s, .empty)

/-- The loops over the counters and the timers, checked, each up to the first check that fails. -/
def checkedPass (firstByte : Num → Int) (cfg : FlushConfig) (ts : Int) (t : Tables Num) :
    Except ArithmeticFault
      (List (StatsdCounter Num × Report Num) × List (StatsdTimer Num × Report Num)) := do
  let counters ← t.counters.mapM (checkedCounter cfg ts)
  let timers ← t.timers.mapM (checkedTimer firstByte cfg ts)
  return (counters, timers)

/-- The arithmetic of a pass is defined: no check fails in it. -/
def PassDefined (firstByte : Num → Int) (cfg : FlushConfig) (ts : Int) (t : Tables Num) : Prop :=
  ∃ r, checkedPass firstByte cfg ts t = .ok r

/-! ## The checks change nothing else -/

section Checked
variable {firstByte : Num → Int} {cfg : FlushConfig} {ts : Int} {t : Tables Num}

theorem checkedDiv_eq_ok_iff {x y z : Num} : checkedDiv x y = .ok z ↔ y ≠ 0 ∧ z = x / y := by
  unfold checkedDiv
  by_cases hy : y = 0
  · rw [if_pos hy]
    exact iff_of_false nofun fun h => h.1 hy
  · rw [if_neg hy]
    simp [hy, eq_comm]

theorem intCast_num_eq_zero_iff {z : Int} : (z : Num) = 0 ↔ z = 0 := by
  have hcast : (z : Num) = .fin (z : Rat) := rfl
  have hzero : (0 : Num) = .fin 0 := rfl
  rw [hcast, hzero, Num.fin.injEq]
  exact Int.cast_eq_zero

theorem natCast_num_ne_zero {n : Nat} (h : 1 < n) : (n : Num) ≠ 0 := by
  have hcast : (n : Num) = .fin (n : Rat) := rfl
  have hzero : (0 : Num) = .fin 0 := rfl
  rw [hcast, hzero, ne_eq, Num.fin.injEq]
  exact Nat.cast_ne_zero.mpr (by omega)

theorem checkedCounter_eq_ok_iff {c : StatsdCounter Num} {r : StatsdCounter Num × Report Num} :
    checkedCounter cfg ts c = .ok r ↔ cfg.flushInterval ≠ 0 ∧ r = flushCounter cfg ts c := by
  simp only [checkedCounter, bind_eq_ok, checkedDiv_eq_ok_iff, pure_eq_ok, ne_eq,
    intCast_num_eq_zero_iff]
  constructor
  · intro ⟨value, ⟨hne, heq⟩, hr⟩
    exact ⟨hne, by rw [← hr, heq]; rfl⟩
  · intro ⟨hne, hr⟩
    exact ⟨_, ⟨hne, rfl⟩, hr.symm⟩

/-- The check of the element is the only one that can fail. -/
theorem checkedSummarize_eq_ok_iff {pctThreshold : Int} {count : Nat} {values : List Num}
    {summary : TimerSummary Num} :
    checkedSummarize firstByte pctThreshold count values = .ok summary ↔
      summarize firstByte pctThreshold count values = .ok summary := by
  unfold checkedSummarize summarize
  simp only
  by_cases hmany : 1 < count
  · rw [if_pos hmany, if_pos hmany]
    cases utarrayEltptr values (thresholdIndex pctThreshold count - 1) with
    | none => exact iff_of_false nofun nofun
    | some x =>
      simp only [bind_eq_ok, checkedDiv_eq_ok_iff, pure_eq_ok, natCast_num_ne_zero hmany,
        ne_eq, not_false_eq_true, true_and, exists_eq_left, Except.ok.injEq]
  · rw [if_neg hmany, if_neg hmany, Except.ok.injEq, Except.ok.injEq]

theorem checkedTimer_eq_ok_iff {s : StatsdTimer Num} {r : StatsdTimer Num × Report Num} :
    checkedTimer firstByte cfg ts s = .ok r ↔ flushTimer firstByte cfg ts s = .ok r := by
  unfold checkedTimer flushTimer
  by_cases hcount : 0 < s.count
  · rw [if_pos hcount, if_pos hcount]
    simp only [bind_eq_ok, checkedSummarize_eq_ok_iff, pure_eq_ok]
    cases summarize firstByte cfg.percentile s.count (utarraySort s.values) with
    | error e => exact iff_of_false (fun ⟨_, h, _⟩ => by cases h) nofun
    | ok summary => simp
  · rw [if_neg hcount, if_neg hcount, Except.ok.injEq, Except.ok.injEq]

theorem flushTimers_of_checked {timers : List (StatsdTimer Num)}
    {rs : List (StatsdTimer Num × Report Num)}
    (h : timers.mapM (checkedTimer firstByte cfg ts) = .ok rs) :
    flushTimers firstByte cfg ts timers =
      .ok (rs.map Prod.fst, Report.concat (rs.map Prod.snd)) := by
  induction timers generalizing rs with
  | nil =>
    obtain rfl := pure_eq_ok.mp h
    rfl
  | cons s timers ih =>
    simp only [List.mapM_cons, bind_eq_ok] at h
    obtain ⟨r, hr, rs', hrs, hok⟩ := h
    obtain rfl := pure_eq_ok.mp hok
    rw [flushTimers, checkedTimer_eq_ok_iff.mp hr]
    simp only [ih hrs]
    rfl

/-- **Where no check fails**, a pass goes through, over the same counters and timers and with the
same reports on them. -/
theorem checkedPass_refines {env : FlushEnv}
    {counters : List (StatsdCounter Num × Report Num)}
    {timers : List (StatsdTimer Num × Report Num)}
    (h : checkedPass firstByte cfg env.ts t = .ok (counters, timers)) :
    counters = t.counters.map (flushCounter cfg env.ts) ∧
      flushTimers firstByte cfg env.ts t.timers =
        .ok (timers.map Prod.fst, Report.concat (timers.map Prod.snd)) ∧
      ∃ r, flushPass firstByte cfg env t = .ok r := by
  simp only [checkedPass, bind_eq_ok] at h
  obtain ⟨counters', hcounters, timers', htimers, hok⟩ := h
  obtain ⟨rfl, rfl⟩ := Prod.mk.inj (pure_eq_ok.mp hok)
  have hloop := flushTimers_of_checked htimers
  refine ⟨((mapM_eq_ok_iff fun _ _ => checkedCounter_eq_ok_iff).mp hcounters).2, hloop, ?_⟩
  unfold flushPass
  simp only [hloop]
  split
  · obtain ⟨stats, hstats⟩ := updateStat_lastFlush
      { t with
        counters := (t.counters.map (flushCounter cfg env.ts)).map Prod.fst
        timers := timers'.map Prod.fst } (printD env.now)
    rw [hstats]
    exact ⟨_, rfl⟩
  · exact ⟨_, rfl⟩

end Checked

/-! ## When the arithmetic is defined -/

section Defined
variable {firstByte : Num → Int} {cfg : FlushConfig} {ts : Int} {t : Tables Num}

theorem checkedSummarize_ok_iff {pctThreshold : Int} {count : Nat} {values : List Num} :
    (∃ summary, checkedSummarize firstByte pctThreshold count values = .ok summary) ↔
      (1 < count → ∃ x, utarrayEltptr values (thresholdIndex pctThreshold count - 1) = some x) := by
  simp only [checkedSummarize_eq_ok_iff]
  exact exists_summarize_iff

/-- A timer's percentile element exists if there are enough samples. -/
theorem checkedTimer_ok_iff (hlo : 1 ≤ cfg.percentile) (hhi : cfg.percentile ≤ 100)
    {s : StatsdTimer Num} (hcount : s.count = s.values.length) :
    (∃ r, checkedTimer firstByte cfg ts s = .ok r) ↔
      (2 ≤ s.values.length → 100 ≤ cfg.percentile * s.values.length) := by
  have hlen : (utarraySort s.values).length = s.values.length := List.length_insertionSort _ _
  have hle := @thresholdIndex_le cfg.percentile s.values.length (by omega) hhi
  have hindex := @one_le_thresholdIndex_iff cfg.percentile s.values.length (by omega)
  have hsummary : (∃ summary,
      checkedSummarize firstByte cfg.percentile s.count (utarraySort s.values) = .ok summary) ↔
      (2 ≤ s.values.length → 100 ≤ cfg.percentile * s.values.length) := by
    rw [checkedSummarize_ok_iff, hcount, exists_utarrayEltptr_iff, hlen, ← hindex]
    refine imp_congr Iff.rfl ?_
    omega
  rw [← hsummary]
  unfold checkedTimer
  by_cases hpos : 0 < s.count
  · rw [if_pos hpos]
    simp only [bind_eq_ok, pure_eq_ok]
    constructor
    · intro ⟨_, summary, hok, _⟩
      exact ⟨summary, hok⟩
    · intro ⟨summary, hok⟩
      exact ⟨_, summary, hok, rfl⟩
  · rw [if_neg hpos]
    refine iff_of_true ⟨_, rfl⟩ (checkedSummarize_ok_iff.mpr fun hmany => ?_)
    omega

/-- **When the arithmetic of a pass is defined**, in every state that can be reached: the interval
divides only if there is a counter, and a timer with more than one sample needs enough of them for
the first percentile element. -/
theorem passDefined_iff (h : (daemon firstByte).Reachable t) (hlo : 1 ≤ cfg.percentile)
    (hhi : cfg.percentile ≤ 100) :
    PassDefined firstByte cfg ts t ↔
      (t.counters = [] ∨ cfg.flushInterval ≠ 0) ∧
        ∀ s ∈ t.timers, 2 ≤ s.values.length → 100 ≤ cfg.percentile * s.values.length := by
  have hcounted := reachable_timersCounted h
  have hcounters : (∃ r, t.counters.mapM (checkedCounter cfg ts) = .ok r) ↔
      (t.counters = [] ∨ cfg.flushInterval ≠ 0) := by
    rw [exists_mapM_ok_iff, List.eq_nil_iff_forall_not_mem]
    simp only [checkedCounter_eq_ok_iff]
    constructor
    · intro hall
      by_cases hzero : cfg.flushInterval = 0
      · exact .inl fun c hc => (hall c hc).choose_spec.1 hzero
      · exact .inr hzero
    · intro hgood c hc
      exact ⟨_, hgood.resolve_left fun hnil => hnil c hc, rfl⟩
  have htimers : (∃ r, t.timers.mapM (checkedTimer firstByte cfg ts) = .ok r) ↔
      ∀ s ∈ t.timers, 2 ≤ s.values.length → 100 ≤ cfg.percentile * s.values.length := by
    rw [exists_mapM_ok_iff]
    exact forall₂_congr fun s hs => checkedTimer_ok_iff hlo hhi (hcounted s hs)
  rw [← hcounters, ← htimers]
  simp only [PassDefined, checkedPass, bind_eq_ok, pure_eq_ok]
  constructor
  · intro ⟨_, counters, hc, timers, ht, _⟩
    exact ⟨⟨counters, hc⟩, ⟨timers, ht⟩⟩
  · intro ⟨⟨counters, hc⟩, ⟨timers, ht⟩⟩
    exact ⟨_, counters, hc, timers, ht, rfl⟩

/-- A counter, and a timer with two samples. -/
def twoSampleTables : Tables Num :=
  { sevenTables with timers := [⟨['k'], 2, [.fin 7, .fin 7]⟩] }

theorem reachable_twoSampleTables (firstByte : Num → Int) :
    (daemon firstByte).Reachable twoSampleTables := by
  have hone := (reachable_sevenTables firstByte).next (apply_timerPacket firstByte rfl)
  exact hone.next (apply_timerPacket firstByte rfl)

/-- The theorem at these tables, with the options as they are unless others are given. -/
theorem passDefined_twoSamples :
    PassDefined (fun _ => 0) ⟨true, false, 10, 90, none⟩ 0 twoSampleTables := by
  refine (passDefined_iff (reachable_twoSampleTables _) (by decide) (by decide)).mpr
    ⟨.inr (by decide), fun s hs _ => ?_⟩
  obtain rfl := List.mem_singleton.mp hs
  decide

/-- **An interval of zero**, which `-F 0` asks for, divides the counter `k`. -/
theorem zero_interval_divides : (daemon fun _ => 0).Reachable overflownTables ∧
    ¬ PassDefined (fun _ => 0) ⟨true, false, atoi ['0'], 90, none⟩ 0 overflownTables := by
  refine ⟨reachable_overflownTables _, ?_⟩
  intro ⟨r, hr⟩
  cases hr

end Defined
end StatsdC
