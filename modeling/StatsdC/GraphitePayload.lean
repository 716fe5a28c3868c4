import StatsdC.Daemon
import StatsdC.Numerals

/-!
# The text for Graphite

A pass formats its report into one text: a line for each value, with three fields between spaces
and a newline at its end.  The names of the metrics stand in that text as they are in the tables,
so it can be taken apart again only because no name has a space or a newline.

`reachable_graphitePayload` says this for every pass from a reachable state, with any
configuration: the text consists of lines (`PayloadLines`), each of three nonempty fields of which
the first is a path over `[A-Za-z0-9_.-]` that begins with `stats`.  No packet can inject a line
of its own.  The second field is a number or what stands for an infinity or a NaN, and the third is
the time of the pass.

The proof follows the structure of a report.  Every line of it is on a path (`OnPaths`), which is
shown for each of the functions that report something and kept by putting reports together; a line
on a path has three fields (`threeFields_text`), because the characters of a formatted number are
neither spaces nor newlines; and lines that are written one behind the other are found again at
their newlines (`splitOn_lines`).

How the bytes get into the buffer of the pass is in `StatsdC.UtString`, with what the fields of a
line are read as.
-/

namespace StatsdC
open CString Decimal

/-- A number as it is formatted: `%f` or `%Lf`, which print the same digits here, or `%d`. -/
def MetricValue.text : MetricValue Num → CString
  | .real x => printLf x
  | .int n => printD n

/-- `"%s %f %ld\n"`, with the path for the `%s`. -/
def GraphiteLine.text (l : GraphiteLine Num) : CString :=
  l.path ++ ' ' :: (l.value.text ++ ' ' :: printD l.ts)

/-- `utstring_body(statString)`, as it is sent: every line with its newline, in the order of the
loops. -/
def Report.graphitePayload (r : Report Num) : CString :=
  r.graphite.flatMap fun l => l.text ++ ['\n']

/-- The characters of a path, `[A-Za-z0-9_.-]`: those of a key, and the period between its parts. -/
def isPathChar (c : Char) : Bool := isKeyChar c || c == '.'

/-- The path of a line: it begins with `stats`, and no space or newline is in it. -/
structure StatsPath (path : CString) : Prop where
  stats : "stats".toList <+: path
  chars : ∀ c ∈ path, isPathChar c = true

/-- A line of three nonempty fields, the first of which is a path: what the text protocol of
Graphite asks for. -/
def ThreeFields (line : CString) : Prop :=
  ∃ path value ts, line.splitOn ' ' = [path, value, ts] ∧
    StatsPath path ∧ path ≠ [] ∧ value ≠ [] ∧ ts ≠ []

/-- The text consists of such lines, each with a newline at its end and none in between. -/
def PayloadLines (payload : CString) : Prop :=
  ∃ lines, payload.splitOn '\n' = lines ++ [[]] ∧ ∀ line ∈ lines, ThreeFields line

/-- The keys of the metric tables are over `[A-Za-z0-9_-]`, as `sanitize_key` leaves them. -/
structure KeysClean (t : Tables Num) : Prop where
  counters : ∀ c ∈ t.counters, ∀ a ∈ c.key, isKeyChar a = true
  timers : ∀ s ∈ t.timers, ∀ a ∈ s.key, isKeyChar a = true
  gauges : ∀ g ∈ t.gauges, ∀ a ∈ g.key, isKeyChar a = true

theorem DaemonState.keysClean {t : Tables Num} (h : DaemonState t) : KeysClean t :=
  ⟨fun _ hc => (h.counters.metricKey _ (List.mem_map_of_mem hc)).chars,
    fun _ hs => (h.timers.metricKey _ (List.mem_map_of_mem hs)).chars,
    fun _ hg => (h.gauges.metricKey _ (List.mem_map_of_mem hg)).chars⟩

/-! ## Lines -/

/-- Lines, and what follows the last of them, are found again at their newlines. -/
theorem splitOn_lines_append {lines : List CString} (h : ∀ line ∈ lines, '\n' ∉ line)
    {tail : CString} (htail : '\n' ∉ tail) :
    (lines.flatMap (· ++ ['\n']) ++ tail).splitOn '\n' = lines ++ [tail] := by
  induction lines with
  | nil => exact List.splitOn_eq_singleton htail
  | cons line lines ih =>
    have hline := h line (List.mem_cons_self ..)
    rw [List.flatMap_cons, List.append_assoc, List.append_assoc, List.singleton_append,
      List.splitOn_append_cons_self_of_not_mem hline, List.cons_append,
      ih fun l hl => h l (List.mem_cons_of_mem _ hl)]

theorem splitOn_lines {lines : List CString} (h : ∀ line ∈ lines, '\n' ∉ line) :
    (lines.flatMap (· ++ ['\n'])).splitOn '\n' = lines ++ [[]] := by
  rw [← List.append_nil (lines.flatMap _), splitOn_lines_append h List.not_mem_nil]

/-- A character of a formatted number.  The letters are those of `inf` and `nan`. -/
def isNumberChar (c : Char) : Bool := c.isDigit || c == '.' || c == '-' || c.isLower

theorem isNumberChar_of_isDigit {c : Char} (h : c.isDigit = true) : isNumberChar c = true := by
  simp [isNumberChar, h]

theorem isNumberChar_of_mem_printD {z : Int} {c : Char} (h : c ∈ printD z) :
    isNumberChar c = true := by
  unfold printD printInt at h
  split at h
  · rcases List.mem_cons.mp h with rfl | h
    · decide
    · exact isNumberChar_of_isDigit (isDigit_of_mem_printNat h)
  · exact isNumberChar_of_isDigit (isDigit_of_mem_printNat h)

theorem isNumberChar_of_mem_printFixed {n : Nat} {c : Char} (h : c ∈ printFixed 6 n) :
    isNumberChar c = true := by
  rcases List.mem_append.mp h with h | h
  · exact isNumberChar_of_isDigit (isDigit_of_mem_printNat h)
  · rcases List.mem_cons.mp h with rfl | h
    · decide
    · exact isNumberChar_of_isDigit (isDigit_of_mem_leftpad h)

theorem isNumberChar_of_mem_printLf {x : Num} {c : Char} (h : c ∈ printLf x) :
    isNumberChar c = true := by
  cases x with
  | fin q =>
    unfold printLf at h
    simp only at h
    split at h
    · rcases List.mem_cons.mp h with rfl | h
      · decide
      · exact isNumberChar_of_mem_printFixed h
    · exact isNumberChar_of_mem_printFixed h
  | negZero =>
    rcases List.mem_cons.mp h with rfl | h
    · decide
    · exact isNumberChar_of_mem_printFixed h
  | inf neg =>
    have hall : ∀ b : Bool, (printLf (.inf b)).all isNumberChar = true := by decide
    exact List.all_eq_true.mp (hall neg) c h
  | nan =>
    have hall : (printLf .nan).all isNumberChar = true := by decide
    exact List.all_eq_true.mp hall c h

theorem printLf_ne_nil (x : Num) : printLf x ≠ [] := by
  cases x with
  | fin q =>
    unfold printLf
    simp only
    split
    · exact List.cons_ne_nil _ _
    · exact List.append_ne_nil_of_left_ne_nil (printNat_ne_nil _) _
  | negZero => exact List.cons_ne_nil _ _
  | inf neg => cases neg <;> exact List.cons_ne_nil _ _
  | nan => exact List.cons_ne_nil _ _

theorem MetricValue.isNumberChar_of_mem_text {v : MetricValue Num} {c : Char} (h : c ∈ v.text) :
    isNumberChar c = true := by
  cases v with
  | real x => exact isNumberChar_of_mem_printLf h
  | int n => exact isNumberChar_of_mem_printD h

theorem MetricValue.text_ne_nil (v : MetricValue Num) : v.text ≠ [] := by
  cases v with
  | real x => exact printLf_ne_nil x
  | int n => exact Numeral.printD_ne_nil n

variable {l : GraphiteLine Num}

/-- Neither a space nor a newline is in a field. -/
theorem notMem_fields {c : Char} (hpath : isPathChar c = false) (hnumber : isNumberChar c = false)
    (h : StatsPath l.path) : c ∉ l.path ∧ c ∉ l.value.text ∧ c ∉ printD l.ts := by
  refine ⟨fun hc => ?_, fun hc => ?_, fun hc => ?_⟩
  · rw [h.chars c hc] at hpath
    cases hpath
  · rw [MetricValue.isNumberChar_of_mem_text hc] at hnumber
    cases hnumber
  · rw [isNumberChar_of_mem_printD hc] at hnumber
    cases hnumber

/-- A line on a path has three fields, whatever its number is. -/
theorem threeFields_text (h : StatsPath l.path) : ThreeFields l.text := by
  obtain ⟨hpath, hvalue, hts⟩ := notMem_fields (c := ' ') (by decide) (by decide) h
  refine ⟨l.path, l.value.text, printD l.ts, ?_, h, ?_, l.value.text_ne_nil,
    Numeral.printD_ne_nil _⟩
  · rw [GraphiteLine.text, List.splitOn_append_cons_self_of_not_mem hpath,
      List.splitOn_append_cons_self_of_not_mem hvalue, List.splitOn_eq_singleton hts]
  · intro hnil
    have hprefix := h.stats
    rw [hnil, List.prefix_nil] at hprefix
    revert hprefix
    decide

theorem newline_notMem_text (h : StatsPath l.path) : '\n' ∉ l.text := by
  obtain ⟨hpath, hvalue, hts⟩ := notMem_fields (c := '\n') (by decide) (by decide) h
  have hspace : '\n' ≠ ' ' := by decide
  simp [GraphiteLine.text, hpath, hvalue, hts, hspace]

/-! ## Reports -/

/-- Every line of the report is on a path, which the loops keep line by line. -/
def OnPaths (r : Report Num) : Prop := ∀ l ∈ r.graphite, StatsPath l.path

theorem onPaths_empty : OnPaths .empty := by rintro l ⟨⟩

theorem OnPaths.append {r s : Report Num} (hr : OnPaths r) (hs : OnPaths s) :
    OnPaths (r.append s) := by
  intro l hl
  rcases List.mem_append.mp hl with hl | hl
  · exact hr l hl
  · exact hs l hl

theorem onPaths_concat {rs : List (Report Num)} (h : ∀ r ∈ rs, OnPaths r) :
    OnPaths (Report.concat rs) := by
  induction rs with
  | nil => exact onPaths_empty
  | cons r rs ih =>
    exact (h r (List.mem_cons_self ..)).append (ih fun s hs => h s (List.mem_cons_of_mem _ hs))

theorem onPaths_enabled {cfg : FlushConfig} {graphite : List (GraphiteLine Num)}
    {gmetric : List (GmetricMessage Num)} (h : ∀ l ∈ graphite, StatsPath l.path) :
    OnPaths (.enabled cfg graphite gmetric) := by
  intro l hl
  by_cases hg : cfg.enableGraphite = true
  · rw [Report.enabled, if_pos hg] at hl
    exact h l hl
  · rw [Report.enabled, if_neg hg] at hl
    cases hl

/-- The text of an `OnPaths` report. -/
theorem OnPaths.payloadLines {r : Report Num} (h : OnPaths r) : PayloadLines r.graphitePayload := by
  refine ⟨r.graphite.map GraphiteLine.text, ?_, fun line hline => ?_⟩
  · have hpayload : r.graphitePayload =
        (r.graphite.map GraphiteLine.text).flatMap (· ++ ['\n']) := by
      rw [List.flatMap_map]
      rfl
    rw [hpayload]
    refine splitOn_lines fun line hline => ?_
    obtain ⟨l, hl, rfl⟩ := List.mem_map.mp hline
    exact newline_notMem_text (h l hl)
  · obtain ⟨l, hl, rfl⟩ := List.mem_map.mp hline
    exact threeFields_text (h l hl)

section Paths
variable {key : CString}

theorem isPathChar_of_isKeyChar {c : Char} (h : isKeyChar c = true) : isPathChar c = true := by
  rw [isPathChar, h, Bool.true_or]

/-- A key behind a text that begins with `stats` is again a path. -/
theorem statsPath_append {head : CString} (hhead : StatsPath head)
    (hkey : ∀ c ∈ key, isPathChar c = true) : StatsPath (head ++ key) := by
  refine ⟨hhead.stats.trans (List.prefix_append _ _), fun c hc => ?_⟩
  rcases List.mem_append.mp hc with hc | hc
  · exact hhead.chars c hc
  · exact hkey c hc

theorem isPathChar_of_mem_printD {z : Int} {c : Char} (h : c ∈ printD z) : isPathChar c = true := by
  have hdigit : ∀ {d : Char}, d.isDigit = true → isPathChar d = true := by
    intro d hd
    have hrange := Char.isDigit_iff_toNat.mp hd
    have hlo : '0' ≤ d := hrange.1
    have hhi : d ≤ '9' := hrange.2
    simp [isPathChar, isKeyChar, hlo, hhi]
  unfold printD printInt at h
  split at h
  · rcases List.mem_cons.mp h with rfl | h
    · decide
    · exact hdigit (isDigit_of_mem_printNat h)
  · exact hdigit (isDigit_of_mem_printNat h)

/-- A counter or a gauge is reported on paths, its rate or value and its count alike. -/
theorem onPaths_reportValue {cfg : FlushConfig} {ts : Int} {rate value : Num}
    {counts units : CString} (hcounts : StatsPath counts) (hkey : ∀ c ∈ key, isKeyChar c = true) :
    OnPaths (reportValue cfg ts key rate value counts units) := by
  have hkey' : ∀ c ∈ key, isPathChar c = true := fun c hc => isPathChar_of_isKeyChar (hkey c hc)
  have hstats : StatsPath "stats.".toList := ⟨by decide, List.all_eq_true.mp (by decide)⟩
  refine onPaths_enabled fun l hl => ?_
  rcases List.mem_cons.mp hl with rfl | hl
  · exact statsPath_append hstats hkey'
  · obtain rfl := List.mem_singleton.mp hl
    exact statsPath_append hcounts hkey'

/-- A timer is reported on paths, with all five of its statistics. -/
theorem onPaths_reportTimer {cfg : FlushConfig} {ts : Int} {s : TimerSummary Num} {count : Nat}
    (hkey : ∀ c ∈ key, isKeyChar c = true) : OnPaths (reportTimer cfg ts key s count) := by
  have hstats : StatsPath "stats.timers.".toList := ⟨by decide, List.all_eq_true.mp (by decide)⟩
  have hpath : StatsPath ("stats.timers.".toList ++ key) :=
    statsPath_append hstats fun c hc => isPathChar_of_isKeyChar (hkey c hc)
  have hmean : ∀ c ∈ ".mean".toList, isPathChar c = true := List.all_eq_true.mp (by decide)
  have hupper : ∀ c ∈ ".upper".toList, isPathChar c = true := List.all_eq_true.mp (by decide)
  have hupper_ : ∀ c ∈ ".upper_".toList, isPathChar c = true := List.all_eq_true.mp (by decide)
  have hlower : ∀ c ∈ ".lower".toList, isPathChar c = true := List.all_eq_true.mp (by decide)
  have hcount : ∀ c ∈ ".count".toList, isPathChar c = true := List.all_eq_true.mp (by decide)
  refine onPaths_enabled fun l hl => ?_
  simp only [List.mem_cons, List.not_mem_nil, or_false] at hl
  rcases hl with rfl | rfl | rfl | rfl | rfl
  · exact statsPath_append hpath hmean
  · exact statsPath_append hpath hupper
  · exact statsPath_append (statsPath_append hpath hupper_) fun c => isPathChar_of_mem_printD
  · exact statsPath_append hpath hlower
  · exact statsPath_append hpath hcount

end Paths

variable {firstByte : Num → Int} {cfg : FlushConfig}

theorem onPaths_flushTimer {ts : Int} {t : StatsdTimer Num} {r : StatsdTimer Num × Report Num}
    (hkey : ∀ c ∈ t.key, isKeyChar c = true) (h : flushTimer firstByte cfg ts t = .ok r) :
    OnPaths r.2 := by
  unfold flushTimer at h
  split at h
  · split at h
    · cases h
    · obtain rfl := Except.ok.inj h
      exact onPaths_reportTimer hkey
  · obtain rfl := Except.ok.inj h
    exact onPaths_empty

theorem onPaths_flushTimers {ts : Int} {timers : List (StatsdTimer Num)}
    {r : List (StatsdTimer Num) × Report Num}
    (hkeys : ∀ t ∈ timers, ∀ c ∈ t.key, isKeyChar c = true)
    (h : flushTimers firstByte cfg ts timers = .ok r) : OnPaths r.2 := by
  induction timers generalizing r with
  | nil =>
    obtain rfl := Except.ok.inj h
    exact onPaths_empty
  | cons t timers ih =>
    obtain ⟨first, rest, hfirst, hrest, rfl⟩ := flushTimers_cons_eq_ok h
    exact (onPaths_flushTimer (hkeys t (List.mem_cons_self ..)) hfirst).append
      (ih (fun s hs => hkeys s (List.mem_cons_of_mem _ hs)) hrest)

/-- A pass over clean keys reports on paths. -/
theorem onPaths_flushPass {env : FlushEnv} {t : Tables Num} {r : Tables Num × Report Num}
    (ht : KeysClean t) (h : flushPass firstByte cfg env t = .ok r) : OnPaths r.2 := by
  have hcounts : StatsPath "stats_counts_".toList := ⟨by decide, List.all_eq_true.mp (by decide)⟩
  have hgauges : StatsPath "stats_gauges_".toList := ⟨by decide, List.all_eq_true.mp (by decide)⟩
  have hnumStats : StatsPath "statsd.numStats".toList :=
    ⟨by decide, List.all_eq_true.mp (by decide)⟩
  obtain ⟨timers, htimers, hreport, -⟩ := flushPass_eq_ok h
  rw [hreport]
  refine .append (onPaths_concat fun s hs => ?_) <| .append
    (onPaths_flushTimers ht.timers htimers) <| .append (onPaths_concat fun s hs => ?_) <|
    onPaths_enabled fun l hl => ?_
  · obtain ⟨c, hc, rfl⟩ := List.mem_map.mp hs
    exact onPaths_reportValue hcounts (ht.counters c hc)
  · obtain ⟨g, hg, rfl⟩ := List.mem_map.mp hs
    exact onPaths_reportValue hgauges (ht.gauges g hg)
  · obtain rfl := List.mem_singleton.mp hl
    exact hnumStats

/-- **No name injects text.**  In every state of every run the keys are over
`[A-Za-z0-9_-]`, and the text that a pass sends from there splits into lines of three
fields, the first a path that begins with `stats`. -/
theorem reachable_graphitePayload {t : Tables Num} (h : (daemon firstByte).Reachable t) :
    KeysClean t ∧ ∀ cfg env t' report, flushPass firstByte cfg env t = .ok (t', report) →
      PayloadLines report.graphitePayload := by
  have hclean := (reachable_daemonState h).keysClean
  exact ⟨hclean, fun _ _ _ _ hpass => (onPaths_flushPass hclean hpass).payloadLines⟩

/-- The theorem at the pass that follows the packet that overflows the counter `k`. -/
theorem reachable_graphitePayload_overflown :
    KeysClean overflownTables ∧ ∃ t' report,
      flushPass (fun _ => 0) ⟨true, false, 10, 90, none⟩ ⟨0, 0, true⟩ overflownTables =
        .ok (t', report) ∧ PayloadLines report.graphitePayload := by
  obtain ⟨hclean, hpayload⟩ := reachable_graphitePayload (reachable_overflownTables fun _ => 0)
  obtain ⟨r, hr⟩ : ∃ r, flushPass (fun _ => 0) ⟨true, false, 10, 90, none⟩ ⟨0, 0, true⟩
      overflownTables = .ok r := ⟨_, rfl⟩
  exact ⟨hclean, r.1, r.2, hr, hpayload _ _ _ _ hr⟩

end StatsdC
