import StatsdC.GraphitePayload

/-!
# The names in a report

A pass names everything it reports by a key and a fixed text around it.  For Graphite the kinds of
names are kept apart by that text, and a path can be read back (`MetricPath.parse_text`); only the
rate of a counter and the value of a gauge share theirs.  For Ganglia a counter or a gauge is sent
twice, once behind the prefix and once without it, and nothing keeps these names apart from each
other or from those of the timers.

`namesDistinct_iff` is the exact condition on the keys: for Graphite, that no key is that of a
counter and of a gauge; for Ganglia, that the keys avoid all that `NamesApart` lists.  It is about
every pass from a reachable state, with any configuration, and a backend that is not enabled asks
for nothing.  What is used of a reachable state is that keys are unique and have no period in them,
which `StatsdC.Daemon` shows.

The names are read off a report by a function for each backend (`Report.paths`, `Report.names`),
and both are cases of one notion (`Report.Reading`), so that the walk through the loops of a pass
is made once.  The list of names that a pass makes of its keys is then compared with itself: names
with different endings differ in their last three characters, and names with the same ending
differ in their keys.  Without a prefix two messages about one counter have the same name
(`namesDistinct_noPrefix`), whatever the other keys are.
-/

namespace StatsdC
open CString

/-! ## Paths -/

/-- What a path in the text for Graphite names: a kind of value, with the key and the statistic it
belongs to. -/
inductive MetricPath where
  /-- The rate of a counter, or the value of a gauge. -/
  | value (key : CString)
  | counts (key : CString)
  | gauges (key : CString)
  | timer (key suffix : CString)
  | numStats
  deriving DecidableEq

namespace MetricPath

/-- The path as the flush thread prints it, without the value behind it. -/
def text : MetricPath → CString
  | value key => "stats.".toList ++ key
  | counts key => "stats_counts_".toList ++ key
  | gauges key => "stats_gauges_".toList ++ key
  | timer key suffix => "stats.timers.".toList ++ key ++ suffix
  | numStats => "statsd.numStats".toList

theorem text_timer (key suffix : CString) :
    (timer key suffix).text = "stats.timers.".toList ++ key ++ suffix := rfl

/-- A path over keys without a period, with the name of a timer's statistic behind
one. -/
def Clean : MetricPath → Prop
  | value key | counts key | gauges key => '.' ∉ key
  | timer key suffix => '.' ∉ key ∧ suffix.head? = some '.'
  | numStats => True

/-- What a path names, from its text: the kind is read off what follows `stats`.  Only clean keys
are read back. -/
def parse (path : CString) : MetricPath :=
  match path.drop 5 with
  | '.' :: rest =>
    if '.' ∈ rest then
      -- behind `timers.`, the key ends at the next period
      timer ((rest.drop 7).takeWhile (· != '.')) ((rest.drop 7).dropWhile (· != '.'))
    else
      value rest
  | '_' :: 'c' :: rest => counts (rest.drop 6)
  | '_' :: 'g' :: rest => gauges (rest.drop 6)
  | _ => numStats

/-- **A path can be read back**, as long as its key has no period that would end it early. -/
theorem parse_text {p : MetricPath} (h : p.Clean) : parse p.text = p := by
  cases p with
  | value key =>
    show (if '.' ∈ key then _ else value key) = value key
    rw [if_neg h]
  | counts key => rfl
  | gauges key => rfl
  | timer key suffix =>
    obtain ⟨hkey, hsuffix⟩ := h
    obtain ⟨suffix, rfl⟩ : ∃ s, suffix = '.' :: s := by
      cases suffix with
      | nil => cases hsuffix
      | cons c s => exact ⟨s, by rw [Option.some.inj hsuffix]⟩
    have hperiod : '.' ∈ "timers.".toList ++ key ++ '.' :: suffix := by simp
    have hnot : ∀ c ∈ key, (c != '.') = true := by
      intro c hc
      rw [bne_iff_ne]
      rintro rfl
      exact hkey hc
    show (if '.' ∈ "timers.".toList ++ key ++ '.' :: suffix then
        timer ((key ++ '.' :: suffix).takeWhile (· != '.'))
          ((key ++ '.' :: suffix).dropWhile (· != '.'))
      else value ("timers.".toList ++ key ++ '.' :: suffix)) = timer key ('.' :: suffix)
    rw [if_pos hperiod, takeWhile_append_cons hnot (by decide),
      List.dropWhile_append_of_pos hnot, List.dropWhile_cons_of_neg (by decide)]
  | numStats => rfl

/-- Paths that differ in what they name differ, since each is read back. -/
theorem text_inj {p q : MetricPath} (hp : p.Clean) (hq : q.Clean) (h : p.text = q.text) :
    p = q := by
  rw [← parse_text hp, h, parse_text hq]

end MetricPath

/-- The statistics of a timer, as they stand in a path.  The percentile is printed into one of them.
-/
def timerSuffixes (cfg : FlushConfig) : List CString :=
  [".mean".toList, ".upper".toList, ".upper_".toList ++ printD cfg.percentile, ".lower".toList,
    ".count".toList]

theorem nodup_timerSuffixes (cfg : FlushConfig) : (timerSuffixes cfg).Nodup := by
  simp [timerSuffixes]

theorem head?_of_mem_timerSuffixes {cfg : FlushConfig} {suffix : CString}
    (h : suffix ∈ timerSuffixes cfg) : suffix.head? = some '.' := by
  simp only [timerSuffixes, List.mem_cons, List.not_mem_nil, or_false] at h
  rcases h with rfl | rfl | rfl | rfl | rfl <;> rfl

/-! ## What is read off a report -/

/-- Something that is read off a report piece by piece, such as its paths or its names. -/
structure Report.Reading {α β : Type} (f : Report α → List β) : Prop where
  empty : f .empty = []
  append : ∀ r s, f (r.append s) = f r ++ f s

/-- The paths for Graphite, in the order of the lines. -/
def Report.paths {α : Type} (r : Report α) : List CString := r.graphite.map GraphiteLine.path

/-- The names for Ganglia, in the order of the messages. -/
def Report.names {α : Type} (r : Report α) : List CString := r.gmetric.map GmetricMessage.name

theorem Report.reading_paths {α : Type} : Report.Reading (Report.paths (α := α)) :=
  ⟨rfl, fun _ _ => List.map_append⟩

theorem Report.reading_names {α : Type} : Report.Reading (Report.names (α := α)) :=
  ⟨rfl, fun _ _ => List.map_append⟩

/-- The keys of the timers that are reported: those with a sample since the last pass. -/
def reportedTimers {α : Type} (timers : List (StatsdTimer α)) : List CString :=
  (timers.filter (0 < ·.count)).map StatsdTimer.key

theorem Report.Reading.concat {α β : Type} {f : Report α → List β} (hf : Report.Reading f)
    (rs : List (Report α)) : f (Report.concat rs) = rs.flatMap f := by
  induction rs with
  | nil => exact hf.empty
  | cons r rs ih =>
    show f (r.append (Report.concat rs)) = _
    rw [hf.append, ih, List.flatMap_cons]

section Reading
variable {α β : Type} [Add α] [Div α] [Zero α] [NatCast α] [IntCast α] [LT α] [DecidableLT α]
variable [BEq α] {firstByte : α → Int} {cfg : FlushConfig} {f : Report α → List β}

/-- What is read off the loop over the timers. -/
theorem Report.Reading.flushTimers (hf : Report.Reading f) {g : CString → List β} {ts : Int}
    (hg : ∀ key s count, f (reportTimer cfg ts key s count) = g key)
    {timers : List (StatsdTimer α)} {r : List (StatsdTimer α) × Report α}
    (h : StatsdC.flushTimers firstByte cfg ts timers = .ok r) :
    f r.2 = (reportedTimers timers).flatMap g := by
  induction timers generalizing r with
  | nil =>
    obtain rfl := Except.ok.inj h
    exact hf.empty
  | cons t timers ih =>
    obtain ⟨first, rest, hfirst, hrest, rfl⟩ := flushTimers_cons_eq_ok h
    rw [hf.append, ih hrest]
    unfold flushTimer at hfirst
    by_cases hcount : 0 < t.count
    · rw [if_pos hcount] at hfirst
      have hkeys : reportedTimers (t :: timers) = t.key :: reportedTimers timers := by
        rw [reportedTimers, List.filter_cons_of_pos (by simpa using hcount)]
        rfl
      rw [hkeys, List.flatMap_cons]
      split at hfirst
      · cases hfirst
      · obtain rfl := Except.ok.inj hfirst
        rw [hg]
    · rw [if_neg hcount] at hfirst
      obtain rfl := Except.ok.inj hfirst
      have hkeys : reportedTimers (t :: timers) = reportedTimers timers := by
        rw [reportedTimers, List.filter_cons_of_neg (by simpa using hcount)]
        rfl
      rw [hkeys, hf.empty, List.nil_append]

/-- What is read off a pass. -/
theorem Report.Reading.flushPass (hf : Report.Reading f) (counter gauge timer : CString → List β)
    (totals : List β) {env : FlushEnv} {t : Tables α} {r : Tables α × Report α}
    (hcounter : ∀ c, f (flushCounter cfg env.ts c).2 = counter c.key)
    (hgauge : ∀ g, f (flushGauge cfg env.ts g) = gauge g.key)
    (htimer : ∀ key s count, f (reportTimer cfg env.ts key s count) = timer key)
    (htotals : ∀ n, f (reportTotals cfg env.ts n) = totals)
    (h : StatsdC.flushPass firstByte cfg env t = .ok r) :
    f r.2 = (t.counters.map StatsdCounter.key).flatMap counter ++
      ((reportedTimers t.timers).flatMap timer ++
        ((t.gauges.map StatsdGauge.key).flatMap gauge ++ totals)) := by
  obtain ⟨timers, htimers, hreport, -⟩ := flushPass_eq_ok h
  rw [hreport, hf.append, hf.append, hf.append, hf.concat, hf.concat, hf.flushTimers htimer htimers,
    htotals]
  simp only [List.flatMap_map, hcounter, hgauge]

/-- A backend that is not enabled gets nothing. -/
theorem Report.Reading.disabled (hf : Report.Reading f) {env : FlushEnv} {t : Tables α}
    {r : Tables α × Report α} (hnone : ∀ graphite gmetric, f (.enabled cfg graphite gmetric) = [])
    (h : StatsdC.flushPass firstByte cfg env t = .ok r) : f r.2 = [] := by
  rw [hf.flushPass (fun _ => []) (fun _ => []) (fun _ => []) [] (fun _ => hnone _ _)
    (fun _ => hnone _ _) (fun _ _ _ => hnone _ _) (fun _ => hnone _ _) h]
  simp

end Reading

/-! ## The names of a pass -/

/-- The keys that a pass goes through, in the order of its loops. -/
structure PassKeys where
  counters : List CString
  timers : List CString
  gauges : List CString

/-- The keys of the tables: of the timers, those with a sample, and of the others all. -/
def passKeys {α : Type} (t : Tables α) : PassKeys where
  counters := t.counters.map StatsdCounter.key
  timers := reportedTimers t.timers
  gauges := t.gauges.map StatsdGauge.key

namespace PassKeys
variable (keys : PassKeys) (cfg : FlushConfig)

/-- The paths for Graphite, as the loops print them: two for a counter or a gauge, five for a timer,
and the totals. -/
def paths : List MetricPath :=
  (keys.counters.flatMap fun k => [.value k, .counts k]) ++
    ((keys.timers.flatMap fun k => (timerSuffixes cfg).map (.timer k)) ++
      ((keys.gauges.flatMap fun k => [.value k, .gauges k]) ++ [.numStats]))

/-- The two names of a counter or a gauge for Ganglia: one with the configured prefix and one
without. -/
def valueNames (key : CString) : List CString := [cfg.prefixed key, key]

/-- The statistics of a timer, as they stand in a name for Ganglia. -/
def timerEndings : List CString :=
  ["_mean".toList, "_upper".toList, "_".toList ++ printD cfg.percentile ++ "th_pct".toList,
    "_lower".toList, "_count".toList]

/-- The names of a timer for Ganglia. -/
def timerNames (key : CString) : List CString := (timerEndings cfg).map (key ++ ·)

/-- `statsd_numstats_collected`, the name of the number of values in the pass. -/
def totalsName : CString := "statsd_numstats_collected".toList

/-- The names for Ganglia, as the loops send them.  No name tells whether it is for a counter or a
gauge. -/
def names : List CString :=
  keys.counters.flatMap (valueNames cfg) ++ (keys.timers.flatMap (timerNames cfg) ++
    (keys.gauges.flatMap (valueNames cfg) ++ [totalsName]))

end PassKeys

section Reading
variable {α : Type} [Add α] [Div α] [Zero α] [NatCast α] [IntCast α] [LT α] [DecidableLT α]
variable [BEq α] {firstByte : α → Int} {cfg : FlushConfig} {env : FlushEnv}
variable {t : Tables α} {r : Tables α × Report α}

/-- The paths of a pass, when Graphite is enabled. -/
theorem paths_flushPass (hgraphite : cfg.enableGraphite = true)
    (h : flushPass firstByte cfg env t = .ok r) :
    r.2.paths = ((passKeys t).paths cfg).map MetricPath.text := by
  have henabled : ∀ graphite gmetric, (Report.enabled (α := α) cfg graphite gmetric).paths =
      graphite.map GraphiteLine.path := by
    intro graphite gmetric
    rw [Report.paths, Report.enabled, if_pos hgraphite]
  have hcounter : ∀ c : StatsdCounter α, (flushCounter cfg env.ts c).2.paths =
      [MetricPath.value c.key, .counts c.key].map MetricPath.text := fun c => henabled _ _
  have hgauge : ∀ g : StatsdGauge α, (flushGauge cfg env.ts g).paths =
      [MetricPath.value g.key, .gauges g.key].map MetricPath.text := fun g => henabled _ _
  have htimer : ∀ key (s : TimerSummary α) count, (reportTimer cfg env.ts key s count).paths =
      ((timerSuffixes cfg).map (MetricPath.timer key)).map MetricPath.text := by
    intro key s count
    simp only [reportTimer, henabled, timerSuffixes, List.map_cons, List.map_nil,
      MetricPath.text_timer, List.append_assoc]
  have htotals : ∀ n, (reportTotals (α := α) cfg env.ts n).paths =
      [MetricPath.numStats].map MetricPath.text := fun n => henabled _ _
  simp only [PassKeys.paths, passKeys, List.map_append, List.map_flatMap]
  exact Report.reading_paths.flushPass _ _ _ _ hcounter hgauge htimer htotals h

/-- The names of a pass, when Ganglia is enabled. -/
theorem names_flushPass (hgmetric : cfg.enableGmetric = true)
    (h : flushPass firstByte cfg env t = .ok r) : r.2.names = (passKeys t).names cfg := by
  have henabled : ∀ graphite gmetric, (Report.enabled (α := α) cfg graphite gmetric).names =
      gmetric.map GmetricMessage.name := by
    intro graphite gmetric
    rw [Report.names, Report.enabled, if_pos hgmetric]
  have hcounter : ∀ c : StatsdCounter α, (flushCounter cfg env.ts c).2.names =
      PassKeys.valueNames cfg c.key := fun c => henabled _ _
  have hgauge : ∀ g : StatsdGauge α, (flushGauge cfg env.ts g).names =
      PassKeys.valueNames cfg g.key := fun g => henabled _ _
  have htimer : ∀ key (s : TimerSummary α) count, (reportTimer cfg env.ts key s count).names =
      PassKeys.timerNames cfg key := by
    intro key s count
    rw [reportTimer, henabled]
    simp only [PassKeys.timerNames, PassKeys.timerEndings, List.map_cons, List.map_nil,
      List.append_assoc]
  have htotals : ∀ n, (reportTotals (α := α) cfg env.ts n).names = [PassKeys.totalsName] :=
    fun n => henabled _ _
  exact Report.reading_names.flushPass _ _ _ _ hcounter hgauge htimer htotals h

end Reading

/-! ## When names are distinct -/

/-- Two injective images of a list, side by side: distinct exactly if the list is, and no image of
one is an image of the other. -/
theorem nodup_flatMap_pair_iff {κ β : Type} {a b : κ → β} (ha : a.Injective) (hb : b.Injective)
    {l : List κ} :
    (l.flatMap fun k => [a k, b k]).Nodup ↔ l.Nodup ∧ ∀ k ∈ l, ∀ k' ∈ l, a k ≠ b k' := by
  have hperm : (l.map a ++ l.map b).Perm (l.flatMap fun k => [a k, b k]) := by
    have h := List.flatMap_append_perm l (fun k => [a k]) (fun k => [b k])
    rwa [← List.map_eq_flatMap, ← List.map_eq_flatMap] at h
  rw [← hperm.nodup_iff, List.nodup_append, List.nodup_map_iff ha, List.nodup_map_iff hb]
  simp only [List.forall_mem_map]
  constructor
  · intro h
    exact ⟨h.1, h.2.2⟩
  · intro h
    exact ⟨h.1, h.1, h.2⟩

namespace PassKeys
variable {keys : PassKeys} {cfg : FlushConfig}

/-- Keys of hash tables, without a period: what the tables of a reachable state guarantee. -/
structure Unique (keys : PassKeys) : Prop where
  counters : keys.counters.Nodup
  timers : keys.timers.Nodup
  gauges : keys.gauges.Nodup
  period_notMem : ∀ k ∈ keys.counters ++ (keys.timers ++ keys.gauges), '.' ∉ k

theorem clean_of_mem_paths (h : keys.Unique) {p : MetricPath} (hp : p ∈ keys.paths cfg) :
    p.Clean := by
  have hperiod := h.period_notMem
  simp only [List.mem_append] at hperiod
  simp only [paths, List.mem_append, List.mem_flatMap, List.mem_map, List.mem_cons,
    List.not_mem_nil, or_false] at hp
  rcases hp with ⟨k, hk, rfl | rfl⟩ | ⟨k, hk, s, hs, rfl⟩ | ⟨k, hk, rfl | rfl⟩ | rfl
  · exact hperiod k (.inl hk)
  · exact hperiod k (.inl hk)
  · exact ⟨hperiod k (.inr (.inl hk)), head?_of_mem_timerSuffixes hs⟩
  · exact hperiod k (.inr (.inr hk))
  · exact hperiod k (.inr (.inr hk))
  · trivial

/-- Paths are distinct where what they name is. -/
theorem nodup_map_text_iff (h : keys.Unique) :
    ((keys.paths cfg).map MetricPath.text).Nodup ↔ (keys.paths cfg).Nodup := by
  constructor
  · exact List.Nodup.of_map _
  · intro hnd
    refine hnd.map_on ?_
    intro p hp q hq heq
    exact MetricPath.text_inj (clean_of_mem_paths h hp) (clean_of_mem_paths h hq) heq

theorem nodup_timerPaths (h : keys.timers.Nodup) :
    (keys.timers.flatMap fun k => (timerSuffixes cfg).map (MetricPath.timer k)).Nodup := by
  refine List.nodup_flatMap.mpr ⟨fun k _ => ?_, h.imp fun hne => ?_⟩
  · refine (nodup_timerSuffixes cfg).map ?_
    intro s s' heq
    exact (MetricPath.timer.inj heq).2
  · intro p hp hq
    obtain ⟨s, _, rfl⟩ := List.mem_map.mp hp
    obtain ⟨s', _, heq⟩ := List.mem_map.mp hq
    exact hne (MetricPath.timer.inj heq).1.symm

/-- **The paths for Graphite** are distinct exactly if no key is that of a counter and
of a gauge. -/
theorem nodup_paths_iff (h : keys.Unique) :
    ((keys.paths cfg).map MetricPath.text).Nodup ↔ ∀ k ∈ keys.counters, k ∉ keys.gauges := by
  have hcounters : (keys.counters.flatMap fun k => [MetricPath.value k, .counts k]).Nodup :=
    (nodup_flatMap_pair_iff (fun _ _ he => MetricPath.value.inj he)
      fun _ _ he => MetricPath.counts.inj he).mpr ⟨h.counters, fun _ _ _ _ => nofun⟩
  have hgauges : (keys.gauges.flatMap fun k => [MetricPath.value k, .gauges k]).Nodup :=
    (nodup_flatMap_pair_iff (fun _ _ he => MetricPath.value.inj he)
      fun _ _ he => MetricPath.gauges.inj he).mpr ⟨h.gauges, fun _ _ _ _ => nofun⟩
  rw [nodup_map_text_iff h, paths, List.nodup_append', List.nodup_append', List.nodup_append']
  constructor
  · intro hnd k hcounter hgauge
    have hleft : MetricPath.value k ∈
        keys.counters.flatMap fun k => [MetricPath.value k, .counts k] :=
      List.mem_flatMap.mpr ⟨k, hcounter, List.mem_cons_self⟩
    refine hnd.2.2 hleft ?_
    simp [hgauge]
  · intro hne
    refine ⟨hcounters, ⟨nodup_timerPaths h.timers, ⟨hgauges, List.nodup_singleton _, ?_⟩, ?_⟩, ?_⟩
    · simp
    · intro p hp hq
      obtain ⟨k, _, hmem⟩ := List.mem_flatMap.mp hp
      obtain ⟨s, _, rfl⟩ := List.mem_map.mp hmem
      simp at hq
    · intro p hp hq
      obtain ⟨k, hk, hmem⟩ := List.mem_flatMap.mp hp
      have hkind : p = .value k ∨ p = .counts k := by simpa using hmem
      rcases hkind with rfl | rfl
      · -- only a gauge shares the path of a rate
        have hgauge : k ∈ keys.gauges := by simpa using hq
        exact hne k hk hgauge
      · simp at hq

/-! ### Names for Ganglia -/

/-- The endings of the statistics differ in their last three characters, whatever the percentile. -/
theorem timerEndings_last (cfg : FlushConfig) :
    ((timerEndings cfg).map fun e => e.reverse.take 3) =
      ["nae".toList, "rep".toList, "tcp".toList, "rew".toList, "tnu".toList] := by
  simp [timerEndings]

theorem nodup_timerEndings_last (cfg : FlushConfig) :
    ((timerEndings cfg).map fun e => e.reverse.take 3).Nodup := by
  rw [timerEndings_last]
  decide

theorem three_le_of_mem_timerEndings {e : CString} (h : e ∈ timerEndings cfg) :
    3 ≤ e.reverse.length := by
  simp only [timerEndings, List.mem_cons, List.not_mem_nil, or_false] at h
  rcases h with rfl | rfl | rfl | rfl | rfl <;> simp

/-- A name tells the timer and the statistic, since the endings differ at their end. -/
theorem timerName_inj {k k' e e' : CString} (he : e ∈ timerEndings cfg)
    (he' : e' ∈ timerEndings cfg) (h : k ++ e = k' ++ e') : k = k' ∧ e = e' := by
  have hlast : e.reverse.take 3 = e'.reverse.take 3 := by
    have htake := congrArg (fun n => n.reverse.take 3) h
    simp only [List.reverse_append] at htake
    rwa [List.take_append_of_le_length (three_le_of_mem_timerEndings he),
      List.take_append_of_le_length (three_le_of_mem_timerEndings he')] at htake
  have heq : e = e' := List.inj_on_of_nodup_map (nodup_timerEndings_last cfg) he he' hlast
  subst heq
  exact ⟨List.append_cancel_right h, rfl⟩

theorem nodup_timerNames (h : keys.timers.Nodup) :
    (keys.timers.flatMap (timerNames cfg)).Nodup := by
  refine List.nodup_flatMap.mpr ⟨fun k _ => ?_, h.imp fun hne => ?_⟩
  · have hnd : (timerEndings cfg).Nodup := List.Nodup.of_map _ (nodup_timerEndings_last cfg)
    refine hnd.map ?_
    intro e e' heq
    exact List.append_cancel_left heq
  · intro n hn hn'
    obtain ⟨e, he, rfl⟩ := List.mem_map.mp hn
    obtain ⟨e', he', heq⟩ := List.mem_map.mp hn'
    exact hne (timerName_inj he' he heq).1.symm

/-- No statistic is sent under the name of the totals. -/
theorem totalsName_notMem_timerNames (key : CString) : totalsName ∉ timerNames cfg key := by
  intro h
  obtain ⟨e, he, heq⟩ := List.mem_map.mp h
  have hlast : e.reverse.take 3 = totalsName.reverse.take 3 := by
    rw [← heq, List.reverse_append,
      List.take_append_of_le_length (three_le_of_mem_timerEndings he)]
  have hmem := List.mem_map_of_mem (f := fun e => e.reverse.take 3) he
  rw [timerEndings_last, hlast] at hmem
  revert hmem
  decide

/-- What the keys of counters and gauges have to avoid for the names to be distinct: one
another, each other's names behind the prefix, the names of the timers that are
reported, and the name of the totals. -/
structure NamesApart (cfg : FlushConfig) (keys : PassKeys) : Prop where
  gauges : ∀ k ∈ keys.counters, k ∉ keys.gauges
  prefixed : ∀ k ∈ keys.counters ++ keys.gauges, ∀ k' ∈ keys.counters ++ keys.gauges,
    cfg.prefixed k ≠ k'
  timers : ∀ k ∈ keys.counters ++ keys.gauges, ∀ n ∈ valueNames cfg k, ∀ timer ∈ keys.timers,
    n ∉ timerNames cfg timer
  totals : ∀ k ∈ keys.counters ++ keys.gauges, ∀ n ∈ valueNames cfg k, n ≠ totalsName

/-- The names of counters and gauges, and then all others. -/
theorem perm_names (keys : PassKeys) (cfg : FlushConfig) :
    (keys.names cfg).Perm ((keys.counters ++ keys.gauges).flatMap (valueNames cfg) ++
      (keys.timers.flatMap (timerNames cfg) ++ [totalsName])) := by
  rw [names, List.flatMap_append, List.append_assoc, ← List.append_assoc (keys.timers.flatMap _),
    ← List.append_assoc (keys.gauges.flatMap _)]
  exact (List.perm_append_comm.append_right _).append_left _

/-- The others are distinct, whatever the keys of the timers. -/
theorem nodup_timerNames_totalsName (h : keys.timers.Nodup) :
    (keys.timers.flatMap (timerNames cfg) ++ [totalsName]).Nodup := by
  refine List.nodup_append'.mpr ⟨nodup_timerNames h, List.nodup_singleton _, ?_⟩
  intro n hn htotals
  obtain ⟨key, _, hname⟩ := List.mem_flatMap.mp hn
  rw [List.mem_singleton.mp htotals] at hname
  exact totalsName_notMem_timerNames key hname

theorem nodup_valueNames_iff (h : keys.Unique) :
    ((keys.counters ++ keys.gauges).flatMap (valueNames cfg)).Nodup ↔
      (∀ k ∈ keys.counters, k ∉ keys.gauges) ∧ ∀ k ∈ keys.counters ++ keys.gauges,
        ∀ k' ∈ keys.counters ++ keys.gauges, cfg.prefixed k ≠ k' := by
  have hkeys : (keys.counters ++ keys.gauges).Nodup ↔ ∀ k ∈ keys.counters, k ∉ keys.gauges := by
    rw [List.nodup_append']
    constructor
    · intro hnd k hk hk'
      exact hnd.2.2 hk hk'
    · intro hne
      exact ⟨h.counters, h.gauges, hne⟩
  rw [← hkeys]
  exact nodup_flatMap_pair_iff (a := cfg.prefixed) (b := id)
    (fun _ _ he => List.append_cancel_left he) Function.injective_id

theorem disjoint_valueNames_iff :
    ((keys.counters ++ keys.gauges).flatMap (valueNames cfg)).Disjoint
        (keys.timers.flatMap (timerNames cfg) ++ [totalsName]) ↔
      ∀ k ∈ keys.counters ++ keys.gauges, ∀ n ∈ valueNames cfg k,
        (∀ timer ∈ keys.timers, n ∉ timerNames cfg timer) ∧ n ≠ totalsName := by
  simp only [List.disjoint_left, List.mem_flatMap, List.mem_append, List.mem_singleton]
  constructor
  · intro hall k hk n hn
    have hnot := hall ⟨k, hk, hn⟩
    refine ⟨?_, fun heq => hnot (.inr heq)⟩
    intro timer htimer hmem
    exact hnot (.inl ⟨timer, htimer, hmem⟩)
  · intro hall n hleft hmem
    obtain ⟨k, hk, hn⟩ := hleft
    rcases hmem with ⟨timer, htimer, hname⟩ | heq
    · exact (hall k hk n hn).1 timer htimer hname
    · exact (hall k hk n hn).2 heq

/-- **The names for Ganglia** are distinct exactly if the keys of counters and gauges avoid each
other and all the others. -/
theorem nodup_names_iff (h : keys.Unique) : (keys.names cfg).Nodup ↔ NamesApart cfg keys := by
  have hrest : (keys.timers.flatMap (timerNames cfg) ++ [totalsName]).Nodup :=
    nodup_timerNames_totalsName h.timers
  rw [(perm_names keys cfg).nodup_iff, List.nodup_append', nodup_valueNames_iff h,
    disjoint_valueNames_iff]
  constructor
  · intro hnd
    obtain ⟨⟨hgauges, hprefixed⟩, _, hapart⟩ := hnd
    refine ⟨hgauges, hprefixed, ?_, ?_⟩
    · intro k hk n hn
      exact (hapart k hk n hn).1
    · intro k hk n hn
      exact (hapart k hk n hn).2
  · intro hapart
    refine ⟨⟨hapart.gauges, hapart.prefixed⟩, hrest, ?_⟩
    intro k hk n hn
    exact ⟨hapart.timers k hk n hn, hapart.totals k hk n hn⟩

end PassKeys

/-! ## The names of a pass from a reachable state -/

/-- No path and no name is there twice. -/
def NamesDistinct {α : Type} (r : Report α) : Prop := r.paths.Nodup ∧ r.names.Nodup

/-- A key of the daemon has no period, and no table has it twice. -/
theorem DaemonState.uniqueKeys {t : Tables Num} (h : DaemonState t) : (passKeys t).Unique := by
  refine ⟨h.counters.nodup, ?_, h.gauges.nodup, fun k hk => ?_⟩
  · exact h.timers.nodup.sublist ((List.filter_sublist).map _)
  · rcases List.mem_append.mp hk with hk | hk
    · exact (h.counters.metricKey k hk).period_notMem
    · rcases List.mem_append.mp hk with hk | hk
      · exact (h.timers.metricKey k (((List.filter_sublist).map _).subset hk)).period_notMem
      · exact (h.gauges.metricKey k hk).period_notMem

/-- **No name is reported twice** in a pass from a reachable state exactly if, for each
backend that is enabled, the keys of counters and gauges avoid what they could be
confused with there. -/
theorem namesDistinct_iff {firstByte : Num → Int} {cfg : FlushConfig} {env : FlushEnv}
    {t : Tables Num} {r : Tables Num × Report Num} (hreach : (daemon firstByte).Reachable t)
    (h : flushPass firstByte cfg env t = .ok r) :
    NamesDistinct r.2 ↔
      (cfg.enableGraphite = true → ∀ k ∈ (passKeys t).counters, k ∉ (passKeys t).gauges) ∧
        (cfg.enableGmetric = true → (passKeys t).NamesApart cfg) := by
  have hunique := (reachable_daemonState hreach).uniqueKeys
  have hpaths : r.2.paths.Nodup ↔
      (cfg.enableGraphite = true → ∀ k ∈ (passKeys t).counters, k ∉ (passKeys t).gauges) := by
    by_cases hgraphite : cfg.enableGraphite = true
    · rw [paths_flushPass hgraphite h, PassKeys.nodup_paths_iff hunique]
      simp only [hgraphite, true_implies]
    · have hnil : r.2.paths = [] := Report.reading_paths.disabled (fun _ _ => by
        rw [Report.paths, Report.enabled, if_neg hgraphite, List.map_nil]) h
      rw [hnil]
      exact iff_of_true List.nodup_nil fun hg => absurd hg hgraphite
  have hnames : r.2.names.Nodup ↔
      (cfg.enableGmetric = true → (passKeys t).NamesApart cfg) := by
    by_cases hgmetric : cfg.enableGmetric = true
    · rw [names_flushPass hgmetric h, PassKeys.nodup_names_iff hunique]
      simp only [hgmetric, true_implies]
    · have hnil : r.2.names = [] := Report.reading_names.disabled (fun _ _ => by
        rw [Report.names, Report.enabled, if_neg hgmetric, List.map_nil]) h
      rw [hnil]
      exact iff_of_true List.nodup_nil fun hg => absurd hg hgmetric
  rw [NamesDistinct, hpaths, hnames]

/-- A configuration with both backends, and a prefix for Ganglia or none. -/
def bothBackends (gangliaMetricPrefix : Option CString) : FlushConfig :=
  ⟨true, true, 10, 90, gangliaMetricPrefix⟩

theorem flushPass_overflown (gangliaMetricPrefix : Option CString) :
    ∃ r, flushPass (fun _ => 0) (bothBackends gangliaMetricPrefix) ⟨0, 0, true⟩ overflownTables =
      .ok r := ⟨_, rfl⟩

/-- The theorem for the counter `k` behind the prefix `web.`. -/
theorem namesDistinct_prefix :
    ∃ r, flushPass (fun _ => 0) (bothBackends (some "web.".toList)) ⟨0, 0, true⟩ overflownTables =
      .ok r ∧ NamesDistinct r.2 := by
  obtain ⟨r, hpass⟩ := flushPass_overflown (some "web.".toList)
  have hkeys : passKeys overflownTables = ⟨[['k']], [], []⟩ := rfl
  refine ⟨r, hpass, (namesDistinct_iff (reachable_overflownTables _) hpass).mpr ?_⟩
  rw [hkeys]
  refine ⟨fun _ => by decide, fun _ => ⟨by decide, by decide, by decide, by decide⟩⟩

/-- **Without a prefix** the rate and the value of the counter `k` are sent to Ganglia
under one name. -/
theorem namesDistinct_noPrefix : (daemon fun _ => 0).Reachable overflownTables ∧
    ∃ r, flushPass (fun _ => 0) (bothBackends none) ⟨0, 0, true⟩ overflownTables = .ok r ∧
      ¬ NamesDistinct r.2 := by
  obtain ⟨r, hpass⟩ := flushPass_overflown none
  refine ⟨reachable_overflownTables _, r, hpass, ?_⟩
  intro ⟨_, hnames⟩
  have hkeys : passKeys overflownTables = ⟨[['k']], [], []⟩ := rfl
  rw [names_flushPass rfl hpass, hkeys] at hnames
  revert hnames
  decide

end StatsdC
