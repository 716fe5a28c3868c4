import StatsdC.Daemon
import StatsdC.PacketFormat
import StatsdC.TableRefinement
import StatsdC.TimerSummary

/-!
# Packets in another order

A batch of counts and timings is processed and flushed.  In another order the same packets leave
the same totals and the same samples, only their tables and arrays are in another order; and since
the samples are sorted before they are summed up, the pass reports the same lines
(`report_of_reordered`).

The proof goes through the histories of `StatsdC.TableRefinement`.  A packet of the batch asks for
one operation (`processPlain_refines`), a batch for a list of them (`processBatch_refines`), and a
permutation of the batch is a permutation of that list.  Totals are sums and do not depend on the
order (`counterTotal_of_perm`), samples are permuted (`samples_perm`), and a summary of sorted
samples is the same for a permutation (`timerReport_of_perm`).  The keys come in another order, so
the lines do: `SameLines` is equality of reports up to the order of their lines and messages, and
`Reports` says that some lines are among those of a report.

The numbers are those of any field with a linear order here, so that sums can be taken in any
order; rounding of sums is not considered.  The arrival times of the packets may differ as well,
since they go into a stat only and no report has it.  Gauges are left out on purpose: what a gauge
holds is what the last packet said.
-/

namespace StatsdC
open CString OrderedTable Fallible

/-! ## Batches -/

/-- A packet `key:value|c`, `key:value|c|@rate` or `key:value|ms`, from its fields. -/
inductive BatchPacket where
  | counter (key value : PacketField) (rate : Option PacketField)
  | timer (key value : PacketField)

namespace BatchPacket

/-- The type field `c`. -/
def typeC : PacketField := ⟨"c".toList, by decide, by decide, by decide⟩

/-- The type field `ms`. -/
def typeMs : PacketField := ⟨"ms".toList, by decide, by decide, by decide⟩

/-- A rate behind its `@`. -/
def rateField (rate : PacketField) : PacketField where
  text := '@' :: rate.text
  ne_nil := List.cons_ne_nil _ _
  colon_notMem := by simp [rate.colon_notMem]
  pipe_notMem := by simp [rate.pipe_notMem]

def key : BatchPacket → PacketField
  | counter key _ _ | timer key _ => key

/-- The one segment of the packet, as `StatsdC.PacketFormat` has it. -/
def segment : BatchPacket → Segment
  | counter _ value rate => ⟨value, typeC, rate.map rateField⟩
  | timer _ value => ⟨value, typeMs, none⟩

/-- The packet as it is sent. -/
def text (p : BatchPacket) : CString := packetText p.key.text [p.segment]

/-- A C string that fits its buffer, with a key that fits its field.  This is what the queue and the
tables need of it. -/
structure WellFormed (p : BatchPacket) : Prop where
  nul_notMem : nul ∉ p.text
  length_le : p.text.length ≤ bufLen - 1
  keyFits : p.key.text.length < keySize

end BatchPacket

section Process
variable {α : Type} [Field α] [LinearOrder α] (strtod : CString → α)

/-- `process_stats_packet` at time `now`, with its effect on the tables, over any type of numbers.
-/
def processPlain (t : Tables α) (bufIn : Buffer) (now : Int) : Except DaemonFault (Tables α) := do
  let calls ← (processStatsPacket strtod bufIn).mapError .packet
  let t ← (applyMetricCalls t (calls.map TracedCall.call)).mapError .table
  (updateStat t "messages".toList "last_msg_seen".toList (printD now)).mapError .table

/-- The tables after a batch of packets, each with the time of its arrival, from empty tables on. -/
def processBatch (ps : List (BatchPacket × Int)) : Except DaemonFault (Tables α) :=
  ps.foldlM (fun t p => processPlain strtod t (queueBuffer p.1.text) p.2) .empty

/-- What a packet asks for, as an operation of a history: the key as it is sanitized, and the
numbers as they are read. -/
def BatchPacket.op : BatchPacket → TableOp α
  | counter key value rate =>
    .counter (sanitizeKey key.text) (num strtod value.text)
      ((rate.map fun r => strtod r.text).getD 1)
  | timer key value => .timer (sanitizeKey key.text) (num strtod value.text)

/-- What a batch asks for: the operations of its packets, in their order. -/
def batchOps (ps : List (BatchPacket × Int)) : List (TableOp α) :=
  ps.map fun p => p.1.op strtod

/-- The samples of the timer `k` in a batch, in the order of their packets. -/
def batchSamples (ps : List (BatchPacket × Int)) (k : CString) : List α :=
  (batchOps strtod ps).filterMap (TableOp.sample k)

/-- The total of the counter `k` in a batch, with each value divided by its rate. -/
def batchTotal (ps : List (BatchPacket × Int)) (k : CString) : α :=
  ((batchOps strtod ps).map (TableOp.added k)).sum

end Process

/-! ## A batch leaves what it asks for -/

/-- A packet makes one call. -/
theorem BatchPacket.call_segment {α : Type} [One α] (strtod : CString → α) (p : BatchPacket) :
    p.segment.call strtod (sanitizeKey p.key.text) =
      match p with
      | counter key value rate => .updateCounter (some (sanitizeKey key.text))
          (num strtod value.text) ((rate.map fun r => strtod r.text).getD 1)
      | timer key value => .updateTimer (some (sanitizeKey key.text)) (num strtod value.text) := by
  cases p with
  | counter key value rate => cases rate <;> rfl
  | timer key value => rfl

theorem BatchPacket.two_le_length_text (p : BatchPacket) : 2 ≤ p.text.length := by
  have hkey := List.length_pos_iff.mpr p.key.ne_nil
  rw [text, packetText]
  simp
  omega

theorem length_sanitizeKey_le (k : CString) : (sanitizeKey k).length ≤ k.length :=
  List.length_filterMap_le _ _

section Batch
variable {α : Type} [Field α] [LinearOrder α] (strtod : CString → α)

omit [Field α] [LinearOrder α] in
/-- The last update of a packet does not fail, and changes no metric. -/
theorem updateStat_lastMsgSeen (t : Tables α) (value : CString) :
    ∃ stats, updateStat t "messages".toList "last_msg_seen".toList value =
      .ok { t with stats } := by
  have hgroup : strcpyKey "messages".toList = .ok "messages".toList := rfl
  have hkey : strcpyKey "last_msg_seen".toList = .ok "last_msg_seen".toList := rfl
  simp only [updateStat, hgroup, hkey, bind, Except.bind]
  split <;> exact ⟨_, rfl⟩

theorem applyMetricCalls_singleton (t : Tables α) (call : MetricCall α) :
    applyMetricCalls t [call] = call.apply t := by
  rw [applyMetricCalls, List.foldlM_cons]
  exact bind_pure _

/-- **One packet** makes the update it asks for. -/
theorem processPlain_refines {h : List (TableOp α)} {t : Tables α} (hr : Refines h t)
    {p : BatchPacket} (hp : p.WellFormed) (now : Int) :
    ∃ t', processPlain strtod t (queueBuffer p.text) now = .ok t' ∧
      Refines (h ++ [p.op strtod]) t' := by
  have hbuf := queueBuffer_stringAt hp.nul_notMem hp.length_le
  have hfits : (sanitizeKey p.key.text).length < keySize :=
    (length_sanitizeKey_le _).trans_lt hp.keyFits
  obtain ⟨calls, hcalls, hcall⟩ := decodePacket_packetText strtod p.key.text [p.segment]
    p.key.ne_nil p.key.colon_notMem p.two_le_length_text
  have hcall' : calls.map TracedCall.call = [p.segment.call strtod (sanitizeKey p.key.text)] :=
    hcall
  -- a packet makes one call
  have happly : ∃ t₁, applyMetricCalls t [p.segment.call strtod (sanitizeKey p.key.text)] =
      .ok t₁ ∧ Refines (h ++ [p.op strtod]) t₁ := by
    rw [p.call_segment strtod]
    cases p with
    | counter key value rate =>
      obtain ⟨t₁, hok, hr₁⟩ := updateCounter_refines hr hfits (num strtod value.text)
        ((rate.map fun r => strtod r.text).getD 1)
      exact ⟨t₁, (applyMetricCalls_singleton t _).trans hok, hr₁⟩
    | timer key value =>
      obtain ⟨t₁, hok, hr₁⟩ := updateTimer_refines hr hfits (num strtod value.text)
      exact ⟨t₁, (applyMetricCalls_singleton t _).trans hok, hr₁⟩
  obtain ⟨t₁, hok, hr₁⟩ := happly
  obtain ⟨stats, hstats⟩ := updateStat_lastMsgSeen t₁ (printD now)
  refine ⟨{ t₁ with stats }, ?_, hr₁.counters, hr₁.timers, hr₁.gauges⟩
  simp only [processPlain, bind_eq_ok, mapError_eq_ok]
  refine ⟨calls, ?_, t₁, ?_, hstats⟩
  · rw [processStatsPacket_eq strtod hbuf]
    exact hcalls
  · rw [hcall']
    exact hok

/-- **A batch** leaves what its packets ask for, in their order.  The induction is on the batch,
from its end. -/
theorem processBatch_refines {ps : List (BatchPacket × Int)} (hps : ∀ p ∈ ps, p.1.WellFormed) :
    ∃ t, processBatch strtod ps = .ok t ∧ Refines (batchOps strtod ps) t := by
  induction ps using List.reverseRecOn with
  | nil => exact ⟨.empty, rfl, rfl, rfl, rfl⟩
  | append_singleton ps p ih =>
    obtain ⟨t, hok, hr⟩ := ih fun q hq => hps q (List.mem_append_left _ hq)
    obtain ⟨t', hok', hr'⟩ := processPlain_refines strtod hr
      (hps p (List.mem_append_right _ (List.mem_singleton_self p))) p.2
    refine ⟨t', ?_, ?_⟩
    · rw [processBatch] at hok ⊢
      rw [List.foldlM_append, bind_eq_ok]
      refine ⟨t, hok, ?_⟩
      rw [List.foldlM_cons, bind_eq_ok]
      exact ⟨t', hok', rfl⟩
    · rw [batchOps, List.map_append, List.map_singleton]
      exact hr'

omit [LinearOrder α] in
/-- A batch has no pass in it. -/
theorem sinceFlush_batchOps (ps : List (BatchPacket × Int)) :
    sinceFlush (batchOps strtod ps) = batchOps strtod ps := by
  have hflush : ∀ op ∈ (batchOps strtod ps).reverse, (!op.isFlush) = true := by
    intro op hop
    obtain ⟨p, -, rfl⟩ := List.mem_map.mp (List.mem_reverse.mp hop)
    rcases p with ⟨p | p, now⟩ <;> rfl
  rw [sinceFlush, List.takeWhile_eq_self_iff.mpr hflush, List.reverse_reverse]

end Batch

/-! ## Reports with the same lines -/

section Reports
variable {α : Type}

/-- The same lines and messages, in whatever order, and each as often. -/
structure SameLines (r s : Report α) : Prop where
  graphite : r.graphite.Perm s.graphite
  gmetric : r.gmetric.Perm s.gmetric

theorem SameLines.refl (r : Report α) : SameLines r r := ⟨.refl _, .refl _⟩

theorem SameLines.append {r r' s s' : Report α} (hr : SameLines r r') (hs : SameLines s s') :
    SameLines (r.append s) (r'.append s') :=
  ⟨hr.graphite.append hs.graphite, hr.gmetric.append hs.gmetric⟩

theorem concat_eq (rs : List (Report α)) :
    Report.concat rs = ⟨rs.flatMap Report.graphite, rs.flatMap Report.gmetric⟩ := by
  induction rs with
  | nil => rfl
  | cons r rs ih =>
    show r.append (Report.concat rs) = _
    rw [ih]
    rfl

theorem sameLines_concat {rs rs' : List (Report α)} (h : rs.Perm rs') :
    SameLines (Report.concat rs) (Report.concat rs') := by
  rw [concat_eq, concat_eq]
  exact ⟨h.flatMap_right _, h.flatMap_right _⟩

/-- The lines and messages of `part` are among those of `r`, in whatever order. -/
structure Reports (r part : Report α) : Prop where
  graphite : part.graphite ⊆ r.graphite
  gmetric : part.gmetric ⊆ r.gmetric

theorem Reports.append_left {r part : Report α} (h : Reports r part) (s : Report α) :
    Reports (r.append s) part :=
  ⟨fun _ hl => List.mem_append_left _ (h.graphite hl),
    fun _ hm => List.mem_append_left _ (h.gmetric hm)⟩

theorem Reports.append_right {s part : Report α} (h : Reports s part) (r : Report α) :
    Reports (r.append s) part :=
  ⟨fun _ hl => List.mem_append_right _ (h.graphite hl),
    fun _ hm => List.mem_append_right _ (h.gmetric hm)⟩

theorem reports_concat {rs : List (Report α)} {r : Report α} (h : r ∈ rs) :
    Reports (Report.concat rs) r := by
  rw [concat_eq]
  exact ⟨fun l hl => List.mem_flatMap.mpr ⟨r, h, hl⟩, fun m hm => List.mem_flatMap.mpr ⟨r, h, hm⟩⟩

variable [Field α] [LinearOrder α] (firstByte : α → Int) (cfg : FlushConfig) (ts : Int)

/-- What a pass reports of a timer, if its percentile element is there. -/
def timerReport (t : StatsdTimer α) : Report α :=
  match flushTimer firstByte cfg ts t with
  | .ok r => r.2
  | .error _ => .empty

theorem flushTimers_report {timers : List (StatsdTimer α)}
    {r : List (StatsdTimer α) × Report α} (h : flushTimers firstByte cfg ts timers = .ok r) :
    r.2 = Report.concat (timers.map (timerReport firstByte cfg ts)) := by
  induction timers generalizing r with
  | nil =>
    obtain rfl := Except.ok.inj h
    rfl
  | cons t timers ih =>
    obtain ⟨first, rest, hfirst, hrest, rfl⟩ := flushTimers_cons_eq_ok h
    have hreport : timerReport firstByte cfg ts t = first.2 := by
      rw [timerReport, hfirst]
    show first.2.append rest.2 = (timerReport firstByte cfg ts t).append (Report.concat _)
    rw [ih hrest, hreport]

/-- **What a pass reports**, in four parts: on the counters, the timers, the gauges, and how many
there are. -/
theorem flushPass_report {env : FlushEnv} {t : Tables α} {r : Tables α × Report α}
    (h : flushPass firstByte cfg env t = .ok r) :
    r.2 = (Report.concat (t.counters.map fun c => (flushCounter cfg env.ts c).2)).append
      ((Report.concat (t.timers.map (timerReport firstByte cfg env.ts))).append
        ((Report.concat (t.gauges.map (flushGauge cfg env.ts))).append
          (reportTotals cfg env.ts (t.counters.length + t.timers.length + t.gauges.length)))) := by
  obtain ⟨timers, htimers, hreport, -⟩ := flushPass_eq_ok h
  rw [hreport, flushTimers_report firstByte cfg env.ts htimers]

/-- The summary of the sorted samples is what is reported. -/
theorem timerReport_eq (t : StatsdTimer α) :
    timerReport firstByte cfg ts t =
      if 0 < t.count then
        match summarize firstByte cfg.percentile t.count (utarraySort t.values) with
        | .ok s => reportTimer cfg ts t.key s 0
        | .error _ => .empty
      else .empty := by
  unfold timerReport flushTimer
  by_cases hcount : 0 < t.count
  · simp only [hcount, if_true]
    cases summarize firstByte cfg.percentile t.count (utarraySort t.values) with
    | error e => rfl
    | ok s => rfl
  · simp only [hcount, if_false]

/-- A timer's report does not depend on the order in which its samples came, since they are sorted
first. -/
theorem timerReport_of_perm {key : CString} {values values' : List α} (h : values.Perm values') :
    timerReport firstByte cfg ts ⟨key, values.length, values⟩ =
      timerReport firstByte cfg ts ⟨key, values'.length, values'⟩ := by
  rw [timerReport_eq, timerReport_eq]
  simp only [utarraySort_eq_of_perm h, h.length_eq]

end Reports

/-! ## Batches in another order -/

section Reorder
variable {α : Type} [Field α] [LinearOrder α] (strtod : CString → α)
variable {ps ps' : List (BatchPacket × Int)}

omit [LinearOrder α] in
theorem batchOps_perm (h : (ps.map Prod.fst).Perm (ps'.map Prod.fst)) :
    (batchOps strtod ps).Perm (batchOps strtod ps') := by
  have hops : ∀ qs : List (BatchPacket × Int),
      batchOps strtod qs = (qs.map Prod.fst).map (BatchPacket.op strtod) := by
    intro qs
    rw [batchOps, List.map_map]
    rfl
  rw [hops, hops]
  exact h.map _

omit [Field α] [LinearOrder α] in
/-- The same keys, each once. -/
theorem keysOf_perm {keyOf : TableOp α → Option CString} {h h' : List (TableOp α)}
    (hperm : h.Perm h') : (keysOf keyOf h).Perm (keysOf keyOf h') := by
  refine (List.perm_ext_iff_of_nodup (nodup_eraseDups _) (nodup_eraseDups _)).mpr fun k => ?_
  simp only [List.mem_eraseDups]
  exact (hperm.filterMap keyOf).mem_iff

omit [LinearOrder α] in
/-- The same samples. -/
theorem samples_perm (h : (ps.map Prod.fst).Perm (ps'.map Prod.fst)) (k : CString) :
    (samples (batchOps strtod ps) k).Perm (samples (batchOps strtod ps') k) := by
  rw [samples, samples, sinceFlush_batchOps, sinceFlush_batchOps]
  exact (batchOps_perm strtod h).filterMap _

/-- The same totals. -/
theorem counterTotal_of_perm (h : (ps.map Prod.fst).Perm (ps'.map Prod.fst)) (k : CString) :
    counterTotal (batchOps strtod ps) k = counterTotal (batchOps strtod ps') k := by
  rw [counterTotal, counterTotal, sinceFlush_batchOps, sinceFlush_batchOps]
  exact ((batchOps_perm strtod h).map _).sum_eq

omit [LinearOrder α] in
/-- A batch updates no gauge. -/
theorem gaugesOf_batchOps (ps : List (BatchPacket × Int)) :
    gaugesOf (batchOps strtod ps) = [] := by
  have hnone : ∀ op ∈ batchOps strtod ps, op.gaugeKey = none := by
    intro op hop
    obtain ⟨p, -, rfl⟩ := List.mem_map.mp hop
    rcases p with ⟨p | p, now⟩ <;> rfl
  rw [gaugesOf, keysOf, List.filterMap_eq_nil_iff.mpr hnone]
  rfl

variable (firstByte : α → Int) (cfg : FlushConfig) (env : FlushEnv)

/-- The tables of the two batches report the same lines. -/
theorem sameLines_of_perm (h : (ps.map Prod.fst).Perm (ps'.map Prod.fst)) {t t' : Tables α}
    (hr : Refines (batchOps strtod ps) t) (hr' : Refines (batchOps strtod ps') t')
    {r r' : Tables α × Report α} (hpass : flushPass firstByte cfg env t = .ok r)
    (hpass' : flushPass firstByte cfg env t' = .ok r') : SameLines r.2 r'.2 := by
  have hops := batchOps_perm strtod h
  -- the entries come in another order, with the same totals
  have hcounters : t.counters.Perm t'.counters := by
    rw [hr.counters, hr'.counters, countersOf, countersOf]
    simp only [counterTotal_of_perm strtod h]
    exact (keysOf_perm hops).map _
  -- neither batch has made a gauge
  have hgauges : t.gauges = t'.gauges := by
    rw [hr.gauges, hr'.gauges, gaugesOf_batchOps, gaugesOf_batchOps]
  have hreports : (t.timers.map (timerReport firstByte cfg env.ts)).Perm
      (t'.timers.map (timerReport firstByte cfg env.ts)) := by
    rw [hr.timers, hr'.timers, timersOf, timersOf, List.map_map, List.map_map]
    -- the samples of a timer are sorted before anything is computed
    have hsame : (timerReport firstByte cfg env.ts ∘ fun k =>
        ⟨k, (samples (batchOps strtod ps) k).length, samples (batchOps strtod ps) k⟩) =
        timerReport firstByte cfg env.ts ∘ fun k =>
          ⟨k, (samples (batchOps strtod ps') k).length, samples (batchOps strtod ps') k⟩ := by
      funext k
      exact timerReport_of_perm firstByte cfg env.ts (samples_perm strtod h k)
    rw [hsame]
    exact (keysOf_perm hops).map _
  have htimers : t.timers.length = t'.timers.length := by
    have hlen := hreports.length_eq
    rwa [List.length_map, List.length_map] at hlen
  rw [flushPass_report firstByte cfg hpass, flushPass_report firstByte cfg hpass', hgauges,
    hcounters.length_eq, htimers]
  exact (sameLines_concat (hcounters.map _)).append
    ((sameLines_concat hreports).append (.refl _))

/-- What a pass says of one counter and one timer of a batch. -/
theorem reports_of_batch {t : Tables α} (hr : Refines (batchOps strtod ps) t)
    {r : Tables α × Report α} (hpass : flushPass firstByte cfg env t = .ok r) :
    (∀ k ∈ keysOf TableOp.counterKey (batchOps strtod ps),
      Reports r.2 (flushCounter cfg env.ts ⟨k, batchTotal strtod ps k⟩).2) ∧
    ∀ k ∈ keysOf TableOp.timerKey (batchOps strtod ps),
      Reports r.2 (timerReport firstByte cfg env.ts
        ⟨k, (batchSamples strtod ps k).length, batchSamples strtod ps k⟩) := by
  rw [flushPass_report firstByte cfg hpass]
  constructor
  · intro k hk
    have hmem : (⟨k, batchTotal strtod ps k⟩ : StatsdCounter α) ∈ t.counters := by
      rw [hr.counters]
      refine List.mem_map.mpr ⟨k, hk, ?_⟩
      rw [counterTotal, sinceFlush_batchOps, batchTotal]
    exact (reports_concat (List.mem_map_of_mem hmem)).append_left _
  · intro k hk
    have hmem : (⟨k, (batchSamples strtod ps k).length, batchSamples strtod ps k⟩ :
        StatsdTimer α) ∈ t.timers := by
      rw [hr.timers]
      refine List.mem_map.mpr ⟨k, hk, ?_⟩
      simp only [samples, sinceFlush_batchOps, batchSamples]
    exact ((reports_concat (List.mem_map_of_mem hmem)).append_left _).append_right _

/-- The sample at the percentile index; of a single sample, the sample itself.  It is the one whose
first byte is reported. -/
def selectedSample (pctThreshold : Int) (values : List α) : Option α :=
  if 1 < values.length then
    utarrayEltptr (utarraySort values) (thresholdIndex pctThreshold values.length - 1)
  else values.head?

omit [Field α] in
theorem selectedSample_of_perm {values values' : List α} (h : values.Perm values')
    (pctThreshold : Int) :
    selectedSample pctThreshold values = selectedSample pctThreshold values' := by
  unfold selectedSample
  rw [utarraySort_eq_of_perm h, h.length_eq]
  by_cases hlen : 1 < values'.length
  · rw [if_pos hlen, if_pos hlen]
  · rw [if_neg hlen, if_neg hlen]
    rcases values' with _ | ⟨x, _ | ⟨y, values'⟩⟩
    · rw [h.eq_nil]
    · rw [h.eq_singleton]
    · simp at hlen

omit [Field α] [LinearOrder α] in
/-- A key with samples is a timer of the batch. -/
theorem mem_keysOf_of_samples {h : List (TableOp α)} {k : CString}
    (hne : h.filterMap (TableOp.sample k) ≠ []) : k ∈ keysOf TableOp.timerKey h := by
  obtain ⟨x, hx⟩ := List.exists_mem_of_ne_nil _ hne
  obtain ⟨op, hop, hsample⟩ := List.mem_filterMap.mp hx
  refine List.mem_eraseDups.mpr (List.mem_filterMap.mpr ⟨op, hop, ?_⟩)
  cases op with
  | timer key value =>
    by_cases hkey : key = k
    · rw [TableOp.timerKey, hkey]
    · rw [TableOp.sample, if_neg hkey] at hsample
      cases hsample
  | counter key value sampleRate => cases hsample
  | gauge key value plusminus => cases hsample
  | flush env => cases hsample

/-- The numbers that a pass computes of a timer with samples are reported, and the least and the
greatest of them are samples that bound the others. -/
theorem summary_of_samples (hpct : cfg.percentile = 90) {values : List α} (hne : values ≠ [])
    (k : CString) :
    ∃ s, timerReport firstByte cfg env.ts ⟨k, values.length, values⟩ =
        reportTimer cfg env.ts k s 0 ∧
      summarize firstByte cfg.percentile values.length (utarraySort values) = .ok s ∧
      s.min ∈ values ∧ s.max ∈ values ∧ ∀ x ∈ values, s.min ≤ x ∧ x ≤ s.max := by
  obtain ⟨s, hs⟩ := @summarize_ok α _ _ firstByte cfg.percentile (by omega) (by omega)
    (utarraySort values)
  rw [length_utarraySort] at hs
  obtain ⟨hleast, hgreatest⟩ := summary_bounds hne hs
  refine ⟨s, ?_, hs, hleast.1, hgreatest.1, fun x hx => ⟨hleast.2 hx, hgreatest.2 hx⟩⟩
  rw [timerReport_eq, if_pos (List.length_pos_iff.mpr hne)]
  simp only [hs]

/-- **Packets in another order are reported the same.**  Both orders are processed and
flushed; the two passes report the same lines and messages.  Among them are those on each
counter, with the same rate and total, and on each timer, with the same summary, whose
lower and upper are the least and the greatest sample; and the sample at the percentile
index is the same. -/
theorem report_of_reordered (hpct : cfg.percentile = 90)
    (h : (ps.map Prod.fst).Perm (ps'.map Prod.fst)) (hps : ∀ p ∈ ps, p.1.WellFormed) :
    ∃ t t' r r', processBatch strtod ps = .ok t ∧ processBatch strtod ps' = .ok t' ∧
      flushPass firstByte cfg env t = .ok r ∧ flushPass firstByte cfg env t' = .ok r' ∧
      SameLines r.2 r'.2 ∧
      (∀ k ∈ keysOf TableOp.counterKey (batchOps strtod ps),
        batchTotal strtod ps k = batchTotal strtod ps' k ∧
        Reports r.2 (flushCounter cfg env.ts ⟨k, batchTotal strtod ps k⟩).2 ∧
        Reports r'.2 (flushCounter cfg env.ts ⟨k, batchTotal strtod ps k⟩).2) ∧
      ∀ k, batchSamples strtod ps k ≠ [] →
        ∃ s, summarize firstByte cfg.percentile (batchSamples strtod ps k).length
            (utarraySort (batchSamples strtod ps k)) = .ok s ∧
          Reports r.2 (reportTimer cfg env.ts k s 0) ∧
          Reports r'.2 (reportTimer cfg env.ts k s 0) ∧
          selectedSample cfg.percentile (batchSamples strtod ps k) =
            selectedSample cfg.percentile (batchSamples strtod ps' k) ∧
          s.min ∈ batchSamples strtod ps k ∧ s.max ∈ batchSamples strtod ps k ∧
          ∀ x ∈ batchSamples strtod ps k, s.min ≤ x ∧ x ≤ s.max := by
  have hps' : ∀ p ∈ ps', p.1.WellFormed := by
    intro p hp
    obtain ⟨q, hq, heq⟩ := List.mem_map.mp (h.mem_iff.mpr (List.mem_map_of_mem hp))
    exact heq ▸ hps q hq
  obtain ⟨t, hok, hr⟩ := processBatch_refines strtod hps
  obtain ⟨t', hok', hr'⟩ := processBatch_refines strtod hps'
  obtain ⟨u, r, hpass, -⟩ := flushPass_ok firstByte cfg (by omega) (by omega) env hr.timers
  obtain ⟨u', r', hpass', -⟩ := flushPass_ok firstByte cfg (by omega) (by omega) env hr'.timers
  obtain ⟨hcounters, htimers⟩ := reports_of_batch strtod firstByte cfg env hr hpass
  have hsame := sameLines_of_perm strtod firstByte cfg env h hr hr' hpass hpass'
  -- what one report says, the other says too
  have htransfer : ∀ {part : Report α}, Reports r part → Reports r' part := fun hpart =>
    ⟨fun _ hl => hsame.graphite.mem_iff.mp (hpart.graphite hl),
      fun _ hm => hsame.gmetric.mem_iff.mp (hpart.gmetric hm)⟩
  refine ⟨t, t', _, _, hok, hok', hpass, hpass', hsame, fun k hk => ?_, fun k hne => ?_⟩
  · have htotal := counterTotal_of_perm strtod h k
    rw [counterTotal, counterTotal, sinceFlush_batchOps, sinceFlush_batchOps] at htotal
    exact ⟨htotal, hcounters k hk, htransfer (hcounters k hk)⟩
  · obtain ⟨s, hreport, hsummary, hmin, hmax, hall⟩ :=
      summary_of_samples firstByte cfg env hpct hne k
    have hrep := htimers k (mem_keysOf_of_samples hne)
    rw [hreport] at hrep
    have hperm : (batchSamples strtod ps k).Perm (batchSamples strtod ps' k) :=
      (batchOps_perm strtod h).filterMap _
    exact ⟨s, hsummary, hrep, htransfer hrep, selectedSample_of_perm hperm _, hmin, hmax, hall⟩

end Reorder

/-! ## Two orders of two packets -/

/-- The packet `a:1|c`. -/
def countPacket : BatchPacket :=
  .counter ⟨['a'], by decide, by decide, by decide⟩ ⟨['1'], by decide, by decide, by decide⟩ none

/-- The packet `b:5|ms`. -/
def timingPacket : BatchPacket :=
  .timer ⟨['b'], by decide, by decide, by decide⟩ ⟨['5'], by decide, by decide, by decide⟩

/-- The theorem at these two packets, with `strtod` standing for the number of characters
it is given. -/
theorem report_of_reordered_two :
    ∃ t t' r r', processBatch (fun s => (s.length : Rat)) [(countPacket, 1), (timingPacket, 2)] =
        .ok t ∧
      processBatch (fun s => (s.length : Rat)) [(timingPacket, 3), (countPacket, 4)] = .ok t' ∧
      flushPass (fun _ => 0) ⟨true, false, 10, 90, none⟩ ⟨0, 0, false⟩ t = .ok r ∧
      flushPass (fun _ => 0) ⟨true, false, 10, 90, none⟩ ⟨0, 0, false⟩ t' = .ok r' ∧
      SameLines r.2 r'.2 := by
  have hswap : ([(countPacket, (1 : Int)), (timingPacket, 2)].map Prod.fst).Perm
      ([(timingPacket, (3 : Int)), (countPacket, 4)].map Prod.fst) := List.Perm.swap ..
  have hwell : ∀ p ∈ [(countPacket, (1 : Int)), (timingPacket, 2)], p.1.WellFormed := by
    intro p hp
    rcases List.mem_cons.mp hp with rfl | hp
    · exact ⟨by decide, by decide, by decide⟩
    · rw [List.mem_singleton.mp hp]
      exact ⟨by decide, by decide, by decide⟩
  obtain ⟨t, t', r, r', hok, hok', hpass, hpass', hsame, -⟩ :=
    report_of_reordered (fun s => (s.length : Rat)) (fun _ => 0)
      ⟨true, false, 10, 90, none⟩ ⟨0, 0, false⟩ rfl hswap hwell
  exact ⟨t, t', r, r', hok, hok', hpass, hpass', hsame⟩

end StatsdC
