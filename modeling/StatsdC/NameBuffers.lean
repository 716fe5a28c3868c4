import StatsdC.MetricNames

/-!
# The buffers of the names

Before a name is put together with `sprintf`, a buffer is reserved for it, sized by hand from the
lengths of its parts.  In the flush pass the sizes are right, down to the byte, but for one: the
name of a percentile has room for four characters of the number.  In `statsd_serialize` it is not
the length that is reserved but its `sizeof`, the same eight bytes for every stat.

Each place in the source at which a name is built has a definition of its own, with the size as the
source computes it and the text as the source formats it (`meanBuffer`, `pctBuffer`, `tmpkeyBuffer`
and the others).  All of them are a `CString.TextBuffer`, and the ones that differ by an ending only
are one family (`endingBuffer`), with one lemma about when the text fits
(`endingBuffer_fits_iff`).

The texts are the names that the snapshot and the report hold (`mem_stats_iff`, `text_mem_names`),
so that nothing is said about a buffer which is not one of the program.  `nameBuffersFit_iff` says
when all of them fit: there is no stat whose key has more than seven characters, and the percentile
is one of at most four if a timer is reported.  The state at the start does not meet it
(`startTables_names_not_fit`), since the three stats have longer keys.  That the block which
`malloc` hands out may be larger than what it was asked for is not considered here.
-/

namespace StatsdC
open CString Decimal

/-! ## `statsd_serialize` -/

/-- `sizeof` of a `size_t`, on a platform with pointers of 64 bits. -/
def sizeofSizeT : Nat := 8

/-- `tmpkey`.  The group is an array and never `NULL`: the name always has a period. -/
def tmpkeyBuffer (name : StatsdStatName) : TextBuffer where
  -- `sizeof` does not evaluate the sum of the lengths that it is applied to
  size := sizeofSizeT
  text := name.tmpkey

/-- The buffers of `statsd_serialize`: one for the key of each stat. -/
def serializeBuffers {α : Type} (t : Tables α) : List TextBuffer :=
  t.stats.map fun s => tmpkeyBuffer s.name

/-! ## The flush pass -/

/-- `k`, for a key behind the prefix: room for both, or a copy of the key. -/
def prefixedBuffer (cfg : FlushConfig) (key : CString) : TextBuffer :=
  match cfg.gangliaMetricPrefix with
  | some gangliaMetricPrefix =>
    ⟨key.length + gangliaMetricPrefix.length + 1, gangliaMetricPrefix ++ key⟩
  | none => ⟨key.length + 1, key⟩

/-- The name of a counter behind the prefix of the configuration, if there is one. -/
def counterBuffer {α : Type} (cfg : FlushConfig) (c : StatsdCounter α) : TextBuffer :=
  prefixedBuffer cfg c.key

/-- The name of a gauge behind the prefix of the configuration, if there is one. -/
def gaugeBuffer {α : Type} (cfg : FlushConfig) (g : StatsdGauge α) : TextBuffer :=
  prefixedBuffer cfg g.key

/-- `k`, for a key with an ending behind it, on the stack. -/
def endingBuffer (extra : Nat) (ending key : CString) : TextBuffer :=
  ⟨key.length + extra, key ++ ending⟩

/-- `%s_mean`, in a buffer of the key's length and 6. -/
def meanBuffer (key : CString) : TextBuffer := endingBuffer 6 "_mean".toList key

/-- `%s_upper`, in a buffer of the key's length and 7. -/
def upperBuffer (key : CString) : TextBuffer := endingBuffer 7 "_upper".toList key

/-- `%s_%dth_pct`, in a buffer of the key's length and 12: the only one whose ending has no fixed
length. -/
def pctBuffer (pctThreshold : Int) (key : CString) : TextBuffer :=
  endingBuffer 12 ("_".toList ++ printD pctThreshold ++ "th_pct".toList) key

/-- `%s_lower`, in a buffer of the key's length and 7. -/
def lowerBuffer (key : CString) : TextBuffer := endingBuffer 7 "_lower".toList key

/-- `%s_count`, in a buffer of the key's length and 7. -/
def countBuffer (key : CString) : TextBuffer := endingBuffer 7 "_count".toList key

/-- The names of a timer, each in a buffer of its own on the stack. -/
def timerBuffers (cfg : FlushConfig) (key : CString) : List TextBuffer :=
  [meanBuffer key, upperBuffer key, pctBuffer cfg.percentile key, lowerBuffer key,
    countBuffer key]

/-- The buffers of a pass: none unless Ganglia is enabled, and none for a timer without
samples. -/
def flushBuffers {α : Type} (cfg : FlushConfig) (t : Tables α) : List TextBuffer :=
  if cfg.enableGmetric then
    t.counters.map (counterBuffer cfg) ++
      ((reportedTimers t.timers).flatMap (timerBuffers cfg) ++ t.gauges.map (gaugeBuffer cfg))
  else
    []

/-- **Every computed name buffer is large enough** for its text and the NUL behind it. -/
def NameBuffersFit {α : Type} (cfg : FlushConfig) (t : Tables α) : Prop :=
  ∀ b ∈ serializeBuffers t ++ flushBuffers cfg t, b.Fits

/-! ## The texts are the names -/

/-- The keys of the stats in the snapshot are the texts of the buffers. -/
theorem mem_stats_iff {t : Tables Num} {k : CString} :
    k ∈ (printedSections t).stats.map Prod.fst ↔ ∃ b ∈ serializeBuffers t, b.text = k := by
  rw [printedSections, mem_map_fst_tableEntries, serializeBuffers]
  simp [tmpkeyBuffer]

theorem text_prefixedBuffer (cfg : FlushConfig) (key : CString) :
    (prefixedBuffer cfg key).text = cfg.prefixed key := by
  unfold prefixedBuffer FlushConfig.prefixed
  cases cfg.gangliaMetricPrefix with
  | none => rfl
  | some gangliaMetricPrefix => rfl

theorem map_text_timerBuffers (cfg : FlushConfig) (key : CString) :
    (timerBuffers cfg key).map TextBuffer.text = PassKeys.timerNames cfg key := by
  simp only [timerBuffers, PassKeys.timerNames, PassKeys.timerEndings, List.map_cons,
    List.map_nil, meanBuffer, upperBuffer, pctBuffer, lowerBuffer, countBuffer, endingBuffer]

section Pass
variable {α : Type} [Add α] [Div α] [Zero α] [NatCast α] [IntCast α] [LT α] [DecidableLT α]
variable [BEq α] {firstByte : α → Int} {cfg : FlushConfig} {env : FlushEnv}
variable {t : Tables α} {r : Tables α × Report α}

/-- The text of a buffer is a name in the report of the pass, so that the buffers are those that are
sent. -/
theorem text_mem_names (h : flushPass firstByte cfg env t = .ok r) {b : TextBuffer}
    (hb : b ∈ flushBuffers cfg t) : b.text ∈ r.2.names := by
  unfold flushBuffers at hb
  split at hb
  · rename_i hgmetric
    rw [names_flushPass hgmetric h, PassKeys.names, passKeys]
    simp only [List.mem_append, List.mem_map, List.mem_flatMap, PassKeys.valueNames,
      List.mem_cons] at hb ⊢
    rcases hb with ⟨c, hc, rfl⟩ | ⟨key, hkey, hmem⟩ | ⟨g, hg, rfl⟩
    · exact .inl ⟨c.key, ⟨c, hc, rfl⟩, .inl (text_prefixedBuffer cfg c.key)⟩
    · refine .inr (.inl ⟨key, hkey, ?_⟩)
      rw [← map_text_timerBuffers]
      exact List.mem_map_of_mem hmem
    · exact .inr (.inr (.inl ⟨g.key, ⟨g, hg, rfl⟩, .inl (text_prefixedBuffer cfg g.key)⟩))
  · cases hb

end Pass

/-! ## When they fit -/

/-- Seven characters fit, and one of them is the period. -/
theorem tmpkeyBuffer_fits_iff {name : StatsdStatName} :
    (tmpkeyBuffer name).Fits ↔ name.groupName.length + name.keyName.length ≤ 6 := by
  have hlen : name.tmpkey.length = name.groupName.length + (name.keyName.length + 1) := by
    rw [StatsdStatName.tmpkey, List.length_append, List.length_cons]
  have hsize : sizeofSizeT = 8 := rfl
  show name.tmpkey.length + 1 ≤ sizeofSizeT ↔ _
  omega

/-- A name behind a prefix always fits, since its buffer is computed from both lengths. -/
theorem prefixedBuffer_fits (cfg : FlushConfig) (key : CString) :
    (prefixedBuffer cfg key).Fits := by
  unfold prefixedBuffer TextBuffer.Fits
  cases cfg.gangliaMetricPrefix with
  | none => exact Nat.le_refl _
  | some gangliaMetricPrefix =>
    simp only [List.length_append]
    omega

/-- A name with an ending fits exactly if there is room for the ending. -/
theorem endingBuffer_fits_iff {extra : Nat} {ending key : CString} :
    (endingBuffer extra ending key).Fits ↔ ending.length < extra := by
  have hlen : (key ++ ending).length = key.length + ending.length := List.length_append
  show (key ++ ending).length + 1 ≤ key.length + extra ↔ _
  omega

/-- The percentiles of which the number has four characters at most. -/
def ShortPercentile (pctThreshold : Int) : Prop := -1000 < pctThreshold ∧ pctThreshold < 10000

theorem pctBuffer_fits_iff {pctThreshold : Int} {key : CString} :
    (pctBuffer pctThreshold key).Fits ↔ ShortPercentile pctThreshold := by
  have hlen : ("_".toList ++ printD pctThreshold ++ "th_pct".toList).length =
      (printD pctThreshold).length + 7 := by
    simp only [List.length_append]
    show 1 + _ + 6 = _
    omega
  have hdigits : (printD pctThreshold).length ≤ 3 + 1 ↔ _ := length_printInt_le_iff (by decide)
  rw [pctBuffer, endingBuffer_fits_iff, hlen, ShortPercentile]
  omega

/-- Of a timer's names, all but that of the percentile always fit, and that one fits if its number
is short. -/
theorem timerBuffers_fit_iff {cfg : FlushConfig} {key : CString} :
    (∀ b ∈ timerBuffers cfg key, b.Fits) ↔ ShortPercentile cfg.percentile := by
  have hmean : (meanBuffer key).Fits := endingBuffer_fits_iff.mpr (by decide)
  have hupper : (upperBuffer key).Fits := endingBuffer_fits_iff.mpr (by decide)
  have hlower : (lowerBuffer key).Fits := endingBuffer_fits_iff.mpr (by decide)
  have hcount : (countBuffer key).Fits := endingBuffer_fits_iff.mpr (by decide)
  simp only [timerBuffers, List.forall_mem_cons, pctBuffer_fits_iff, hmean, hupper, hlower,
    hcount, List.not_mem_nil, false_imp_iff, implies_true, true_and, and_true]

theorem mem_reportedTimers {α : Type} {timers : List (StatsdTimer α)} {key : CString} :
    key ∈ reportedTimers timers ↔ ∃ s ∈ timers, 0 < s.count ∧ s.key = key := by
  simp [reportedTimers, and_assoc]

theorem flushBuffers_fit_iff {α : Type} {cfg : FlushConfig} {t : Tables α} :
    (∀ b ∈ flushBuffers cfg t, b.Fits) ↔
      (cfg.enableGmetric = true → (∃ s ∈ t.timers, 0 < s.count) →
        ShortPercentile cfg.percentile) := by
  unfold flushBuffers
  split
  · rename_i hgmetric
    simp only [List.forall_mem_append, List.forall_mem_map, List.mem_flatMap,
      forall_exists_index, and_imp, counterBuffer, gaugeBuffer, prefixedBuffer_fits, implies_true,
      true_and, and_true, hgmetric, true_imp_iff]
    constructor
    · intro hfit s hs hcount
      have hkey : s.key ∈ reportedTimers t.timers := mem_reportedTimers.mpr ⟨s, hs, hcount, rfl⟩
      exact timerBuffers_fit_iff.mp fun b hb => hfit b s.key hkey hb
    · intro hpct b key hkey hb
      obtain ⟨s, hs, hcount, -⟩ := mem_reportedTimers.mp hkey
      exact timerBuffers_fit_iff.mpr (hpct s hs hcount) b hb
  · rename_i hgmetric
    exact iff_of_true (fun b hb => by cases hb) (fun h => absurd h hgmetric)

/-- **When every buffer is large enough**: no stat has a name of more than six
characters without its period, and the number of the percentile has at most four where a
timer is reported to Ganglia. -/
theorem nameBuffersFit_iff {α : Type} (cfg : FlushConfig) (t : Tables α) :
    NameBuffersFit cfg t ↔
      (∀ s ∈ t.stats, s.name.groupName.length + s.name.keyName.length ≤ 6) ∧
        (cfg.enableGmetric = true → (∃ s ∈ t.timers, 0 < s.count) →
          -1000 < cfg.percentile ∧ cfg.percentile < 10000) := by
  unfold NameBuffersFit
  rw [List.forall_mem_append, flushBuffers_fit_iff, serializeBuffers, List.forall_mem_map]
  simp only [tmpkeyBuffer_fits_iff, ShortPercentile]

/-- **The stats of every process** do not fit: `graphite.last_flush` is written to eight
bytes.  A percentile of five digits does not fit either. -/
theorem startTables_names_not_fit : (daemon fun _ => 0).Reachable startTables ∧
    (∃ b ∈ serializeBuffers startTables, b.text = "graphite.last_flush".toList ∧ ¬ b.Fits) ∧
    ¬ (pctBuffer 10000 ['k']).Fits := by
  refine ⟨reachable_startTables _, ?_, ?_⟩
  · refine ⟨tmpkeyBuffer ⟨"graphite".toList, "last_flush".toList⟩, List.mem_cons_self .., rfl, ?_⟩
    rw [tmpkeyBuffer_fits_iff]
    decide
  · rw [pctBuffer_fits_iff]
    exact fun h => absurd h.2 (by decide)

end StatsdC
