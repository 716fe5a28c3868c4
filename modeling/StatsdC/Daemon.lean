import StatsdC.Flush
import StatsdC.Keys
import StatsdC.Lib.TransitionSystem
import StatsdC.SnapshotRoundTrip

/-!
# The daemon over its lifetime

The tables as they change from one event to the next: a packet taken from the queue, a flush pass,
and a restart, which loads the snapshot that the old process wrote at its end.  An event that runs
into a fault has no successor, so a run is what a process does that survives, and a reachable state
is one that some process has reached alive.

**What is one step.**  An event is handled as a whole: all the calls of a packet, all the loops of
a pass.  In the program the queue thread and the flush thread go through the tables at the same
time, and a pass may see one call of a packet and not the next; such states are not states of this
system, though each table in them went through updates that are.  The interleavings inside an
update and a pass are in `StatsdC.CounterThreads` and `StatsdC.TimerThreads`, for one table each.
The management thread only reads the tables and is not here.

**What is proved.**  In every state that can be reached the keys fit their fields and none is in a
table twice (`reachable_daemonState`), whatever the packets were.  So a snapshot is unreadable for
one reason only, a number that is not finite (`snapshotReadable_iff`); a restart after such a
snapshot is no step.  Events come in any order and at any times, and the times are numbers that
need not increase.

**What is left out.**  Time outs, signals, failures of `malloc` and of the files, and the sizes
beyond an `int`.
-/

namespace StatsdC
open CString OrderedTable Fallible

/-- An event that the process does not survive, by the part of the program whose fault it is. -/
inductive DaemonFault where
  | packet (fault : PacketFault)
  | json (fault : JsonFault)
  | table (fault : TableFault)
  | flush (fault : FlushFault)
  | snapshot (fault : SnapshotFault)
  deriving DecidableEq

/-- A packet in the queue: a C string that fits the buffer it is copied to.  Anything that `strdup`
makes of a datagram is one. -/
structure QueuedPacket where
  text : CString
  nul_notMem : nul ∉ text
  length_le : text.length ≤ bufLen - 1

/-- The bytes that can be written to the block of `tmpkey`: `malloc` is asked for the 8 bytes of
a `size_t`, and the least block that glibc hands out has 24. -/
def tmpkeyBlock : Nat := 24

/-- `UPDATE_LAST_MSG_SEEN` at time `now`, which both front ends are meant to make for every packet.
-/
def updateLastMsgSeen (t : Tables Num) (now : Int) : Except TableFault (Tables Num) :=
  updateStat t "messages".toList "last_msg_seen".toList (printD now)

/-- `init_stats` at time `now`, once the snapshot is loaded. -/
def initStats (t : Tables Num) (now : Int) : Except TableFault (Tables Num) := do
  let t ← updateStat t "graphite".toList "last_flush".toList (printD now)
  let t ← updateStat t "messages".toList "last_msg_seen".toList (printD now)
  updateStat t "messages".toList "bad_lines_seen".toList "0".toList

/-- `process_stats_packet`, with its effect on the tables: its calls, one after another, and then
the time of the message. -/
def handlePlain (t : Tables Num) (bufIn : Buffer) (now : Int) :
    Except DaemonFault (Tables Num) := do
  let calls ← (processStatsPacket strtod bufIn).mapError .packet
  let t ← (applyMetricCalls t (calls.map TracedCall.call)).mapError .table
  (updateLastMsgSeen t now).mapError .table

/-- `process_json_stats_packet`, with its effect on the tables.  Only a short packet
updates the time of the last message. -/
def handleJson (t : Tables Num) (bufIn : Buffer) (now : Int) : Except DaemonFault (Tables Num) := do
  let calls ← (processJsonStatsPacket bufIn).mapError .json
  let t ← (applyMetricCalls t calls).mapError .table
  if (cstr bufIn 0).length < 2 then
    (updateLastMsgSeen t now).mapError .table
  else
    return t

/-- What happens to the process, from the point of view of its tables. -/
inductive DaemonEvent where
  /-- `p_thread_queue` handles a packet. -/
  | packet (packet : QueuedPacket) (now : Int)
  | flush (cfg : FlushConfig) (env : FlushEnv)
  /-- The process ends and a new one starts.  The snapshot is written and loaded if
  there is a file for it and it is not to be cleared. -/
  | restart (load : Bool) (now : Int)

/-- The tables after an event.  Which front end a packet goes to is decided by its first byte. -/
def DaemonEvent.apply (firstByte : Num → Int) (t : Tables Num) :
    DaemonEvent → Except DaemonFault (Tables Num)
  | .packet p now =>
    let bufIn := queueBuffer p.text
    if bufIn.head? = some '{' ∨ bufIn.head? = some '[' then handleJson t bufIn now
    else handlePlain t bufIn now
  | .flush cfg env => do
    let (t, _) ← (flushPass firstByte cfg env t).mapError .flush
    return t
  | .restart load now => do
    let t ←
      if load then do
        let file ← (statsdSerialize tmpkeyBlock t).mapError .snapshot
        let (_, t) ← (statsdDeserialize .empty file).mapError .snapshot
        pure t
      else
        pure .empty
    (initStats t now).mapError .table

/-- The states of the tables, from the start of the first process on.  An event that is not survived
is no step. -/
def daemon (firstByte : Num → Int) : TransitionSystem (Tables Num) DaemonEvent where
  init t := ∃ now, initStats .empty now = .ok t
  step t e t' := e.apply firstByte t = .ok t'

/-! ## Events -/

section Events
variable {firstByte : Num → Int} {t t' : Tables Num} {bufIn : Buffer} {now : Int}

theorem handlePlain_cases {text rest : CString} (hbuf : StringAt bufIn 0 text rest)
    (hok : handlePlain t bufIn now = .ok t') :
    ∃ calls t₁, (∀ call ∈ calls, call.Sanitized) ∧ applyMetricCalls t calls = .ok t₁ ∧
      updateLastMsgSeen t₁ now = .ok t' := by
  simp only [handlePlain, bind_eq_ok, mapError_eq_ok] at hok
  obtain ⟨calls, hcalls, t₁, happly, hseen⟩ := hok
  rw [processStatsPacket_eq strtod hbuf] at hcalls
  refine ⟨_, t₁, ?_, happly, hseen⟩
  intro call hcall
  obtain ⟨traced, htraced, rfl⟩ := List.mem_map.mp hcall
  exact sanitized_of_decodePacket hcalls traced htraced

theorem handleJson_cases (hok : handleJson t bufIn now = .ok t') :
    ∃ calls t₁, (∀ call ∈ calls, call.Sanitized) ∧ applyMetricCalls t calls = .ok t₁ ∧
      (t' = t₁ ∨ updateLastMsgSeen t₁ now = .ok t') := by
  simp only [handleJson, bind_eq_ok, mapError_eq_ok] at hok
  obtain ⟨calls, hcalls, t₁, happly, hseen⟩ := hok
  refine ⟨calls, t₁, sanitized_of_processJsonStatsPacket hcalls, happly, ?_⟩
  split at hseen
  · exact .inr (mapError_eq_ok.mp hseen)
  · exact .inl (pure_eq_ok.mp hseen).symm

/-- **What an event does**: it makes calls under sanitized keys and may note the time, or
flushes, or starts over with nothing or with what the snapshot holds. -/
theorem DaemonEvent.apply_cases {e : DaemonEvent} (h : e.apply firstByte t = .ok t') :
    (∃ calls t₁, (∀ call ∈ calls, call.Sanitized) ∧ applyMetricCalls t calls = .ok t₁ ∧
        (t' = t₁ ∨ ∃ now, updateLastMsgSeen t₁ now = .ok t')) ∨
      (∃ cfg env report, flushPass firstByte cfg env t = .ok (t', report)) ∨
      ∃ t₁ now, (t₁ = .empty ∨
        ∃ r, statsdDeserialize .empty (snapshotText t) = .ok (r, t₁)) ∧
          initStats t₁ now = .ok t' := by
  cases e with
  | packet p now =>
    have hbuf := queueBuffer_stringAt p.nul_notMem p.length_le
    simp only [apply] at h
    split at h
    · obtain ⟨calls, t₁, hcalls, happly, hseen⟩ := handleJson_cases h
      exact .inl ⟨calls, t₁, hcalls, happly, hseen.imp_right fun hok => ⟨now, hok⟩⟩
    · obtain ⟨calls, t₁, hcalls, happly, hseen⟩ := handlePlain_cases hbuf h
      exact .inl ⟨calls, t₁, hcalls, happly, .inr ⟨now, hseen⟩⟩
  | flush cfg env =>
    simp only [apply, bind_eq_ok, mapError_eq_ok] at h
    obtain ⟨r, hpass, hok⟩ := h
    obtain rfl := pure_eq_ok.mp hok
    exact .inr (.inl ⟨cfg, env, r.2, hpass⟩)
  | restart load now =>
    simp only [apply] at h
    split at h
    · simp only [bind_eq_ok, mapError_eq_ok] at h
      obtain ⟨file, hwrite, r, hread, t₁, hok, hinit⟩ := h
      obtain ⟨-, rfl⟩ := statsdSerialize_eq_ok_iff.mp hwrite
      obtain rfl := pure_eq_ok.mp hok
      exact .inr (.inr ⟨r.2, now, .inr ⟨r.1, hread⟩, hinit⟩)
    · simp only [bind_eq_ok, mapError_eq_ok] at h
      obtain ⟨t₁, hok, hinit⟩ := h
      exact .inr (.inr ⟨t₁, now, .inl (pure_eq_ok.mp hok).symm, hinit⟩)

end Events

/-! ## Keys -/

/-- The keys of a table: each there once, over `[A-Za-z0-9_-]`, and such that it fits its
field. -/
structure GoodKeys (keys : List CString) : Prop where
  nodup : keys.Nodup
  metricKey : ∀ k ∈ keys, MetricKey k

/-- A stat's name that survives a restart: its key fits the block it is printed into, and the two
parts are found again in it. -/
structure GoodName (name : StatsdStatName) : Prop where
  nul_notMem : nul ∉ name.tmpkey
  period_notMem : '.' ∉ name.groupName
  groupFits : KeyFits name.groupName
  keyFits : name.keyName.length + 2 ≤ keySize
  tmpkeyFits : name.tmpkey.length < tmpkeyBlock

/-- What holds of the tables in every state.  Nothing is said about the values. -/
structure DaemonState (t : Tables Num) : Prop where
  stats : ∀ s ∈ t.stats, GoodName s.name
  timers : GoodKeys (t.timers.map StatsdTimer.key)
  gauges : GoodKeys (t.gauges.map StatsdGauge.key)
  counters : GoodKeys (t.counters.map StatsdCounter.key)

theorem goodKeys_nil : GoodKeys [] := ⟨List.nodup_nil, by rintro k ⟨⟩⟩

theorem daemonState_empty : DaemonState .empty :=
  ⟨by rintro s ⟨⟩, goodKeys_nil, goodKeys_nil, goodKeys_nil⟩

/-- An update under a sanitized key keeps the keys good, because a key that is new was copied into
its field. -/
theorem GoodKeys.after {keys keys' : List CString} (h : GoodKeys keys) {k : CString}
    (hchars : ∀ c ∈ k, isKeyChar c = true) (hkeys : KeysAfter k keys keys') : GoodKeys keys' := by
  refine ⟨hkeys.nodup h.nodup, fun a ha => ?_⟩
  cases hkeys with
  | same => exact h.metricKey a ha
  | new _ hlt =>
    rcases List.mem_append.mp ha with ha | ha
    · exact h.metricKey a ha
    · rw [List.mem_singleton.mp ha]
      exact ⟨hchars, hlt⟩

theorem flushTimer_key {firstByte : Num → Int} {cfg : FlushConfig} {ts : Int}
    {t : StatsdTimer Num} {r : StatsdTimer Num × Report Num}
    (h : flushTimer firstByte cfg ts t = .ok r) : r.1.key = t.key := by
  unfold flushTimer at h
  split at h
  · split at h
    · cases h
    · obtain rfl := Except.ok.inj h
      rfl
  · obtain rfl := Except.ok.inj h
    rfl

/-- A pass keeps the timers' keys, whether it reports a timer or not. -/
theorem flushTimers_keys {firstByte : Num → Int} {cfg : FlushConfig} {ts : Int}
    {timers : List (StatsdTimer Num)} {r : List (StatsdTimer Num) × Report Num}
    (h : flushTimers firstByte cfg ts timers = .ok r) :
    r.1.map StatsdTimer.key = timers.map StatsdTimer.key := by
  induction timers generalizing r with
  | nil =>
    obtain rfl := Except.ok.inj h
    rfl
  | cons t timers ih =>
    obtain ⟨first, rest, hfirst, hrest, rfl⟩ := flushTimers_cons_eq_ok h
    rw [List.map_cons, ih hrest, List.map_cons, flushTimer_key hfirst]

theorem exists_of_mem_modify {ε κ : Type} (keyOf : ε → κ) {table : List ε} {i : Nat} {g : ε → ε}
    {e : ε} (hg : ∀ e, keyOf (g e) = keyOf e) (h : e ∈ table.modify i g) :
    ∃ e' ∈ table, keyOf e' = keyOf e := by
  have hkey := List.mem_map_of_mem (f := keyOf) h
  rw [map_modify hg] at hkey
  exact List.mem_map.mp hkey

/-! ## The names of the daemon's own stats -/

theorem goodName_lastFlush : GoodName ⟨"graphite".toList, "last_flush".toList⟩ :=
  ⟨by decide, by decide, by unfold KeyFits; decide, by decide, by decide⟩

theorem goodName_lastMsgSeen : GoodName ⟨"messages".toList, "last_msg_seen".toList⟩ :=
  ⟨by decide, by decide, by unfold KeyFits; decide, by decide, by decide⟩

theorem goodName_badLinesSeen : GoodName ⟨"messages".toList, "bad_lines_seen".toList⟩ :=
  ⟨by decide, by decide, by unfold KeyFits; decide, by decide, by decide⟩

namespace DaemonState
variable {t t' : Tables Num}

theorem nulFree (h : DaemonState t) : NulFree t :=
  ⟨fun s hs => (h.stats s hs).nul_notMem,
    fun _ hs => (h.timers.metricKey _ (List.mem_map_of_mem hs)).nul_notMem,
    fun _ hg => (h.gauges.metricKey _ (List.mem_map_of_mem hg)).nul_notMem,
    fun _ hc => (h.counters.metricKey _ (List.mem_map_of_mem hc)).nul_notMem⟩

theorem keysUnique (h : DaemonState t) : KeysUnique t :=
  ⟨h.counters.nodup, h.gauges.nodup, h.timers.nodup⟩

theorem keysFit (h : DaemonState t) : KeysFit t :=
  ⟨fun s hs => ⟨(h.stats s hs).period_notMem, (h.stats s hs).groupFits, (h.stats s hs).keyFits⟩,
    fun _ hs => (h.timers.metricKey _ (List.mem_map_of_mem hs)).fits,
    fun _ hg => (h.gauges.metricKey _ (List.mem_map_of_mem hg)).fits,
    fun _ hc => (h.counters.metricKey _ (List.mem_map_of_mem hc)).fits⟩

/-- The writer gets through in every such state, since the keys of its stats are short. -/
theorem statsdSerialize_eq (h : DaemonState t) :
    statsdSerialize tmpkeyBlock t = .ok (snapshotText t) :=
  statsdSerialize_eq_ok_iff.mpr ⟨fun s hs => (h.stats s hs).tmpkeyFits, rfl⟩

/-! ## Updates -/

theorem updateStat (h : DaemonState t) {group key value : CString} (hname : GoodName ⟨group, key⟩)
    (hok : StatsdC.updateStat t group key value = .ok t') : DaemonState t' := by
  obtain ⟨i, -, rfl⟩ | ⟨-, rfl⟩ := updateStat_cases hok
  · refine ⟨fun s hs => ?_, h.timers, h.gauges, h.counters⟩
    obtain ⟨s', hs', heq⟩ := exists_of_mem_modify StatsdStat.name (fun _ => by rfl) hs
    rw [← heq]
    exact h.stats s' hs'
  · refine ⟨fun s hs => ?_, h.timers, h.gauges, h.counters⟩
    rcases List.mem_append.mp hs with hs | hs
    · exact h.stats s hs
    · rwa [List.mem_singleton.mp hs]

theorem metricCall (h : DaemonState t) {call : MetricCall Num} (hkey : call.Sanitized)
    (hok : call.apply t = .ok t') : DaemonState t' := by
  obtain ⟨key, hsome, hcases⟩ := call.apply_cases hok
  have hchars := hkey key hsome
  rcases hcases with ⟨counters, rfl, hkeys⟩ | ⟨timers, rfl, hkeys⟩ | ⟨gauges, rfl, hkeys⟩
  · exact ⟨h.stats, h.timers, h.gauges, h.counters.after hchars hkeys⟩
  · exact ⟨h.stats, h.timers.after hchars hkeys, h.gauges, h.counters⟩
  · exact ⟨h.stats, h.timers, h.gauges.after hchars hkeys, h.counters⟩

theorem applyMetricCalls (h : DaemonState t) {calls : List (MetricCall Num)}
    (hkeys : ∀ call ∈ calls, call.Sanitized) (hok : StatsdC.applyMetricCalls t calls = .ok t') :
    DaemonState t' :=
  foldlM_invariant (fun _ call _ hcall hb => hb.metricCall (hkeys call hcall)) h hok

theorem initStats (h : DaemonState t) {now : Int} (hok : StatsdC.initStats t now = .ok t') :
    DaemonState t' := by
  simp only [StatsdC.initStats, bind_eq_ok] at hok
  obtain ⟨t₁, h₁, t₂, h₂, h₃⟩ := hok
  exact ((h.updateStat goodName_lastFlush h₁).updateStat goodName_lastMsgSeen h₂).updateStat
    goodName_badLinesSeen h₃

/-! ## Flush passes -/

theorem flushPass {firstByte : Num → Int} {cfg : FlushConfig} {env : FlushEnv}
    {report : Report Num} (h : DaemonState t)
    (hok : StatsdC.flushPass firstByte cfg env t = .ok (t', report)) : DaemonState t' := by
  obtain ⟨timers, htimers, -, hr⟩ := flushPass_eq_ok hok
  have hflushed : DaemonState (flushedTables cfg env.ts t timers.1) := by
    refine ⟨h.stats, ?_, h.gauges, ?_⟩
    · show GoodKeys (timers.1.map StatsdTimer.key)
      rw [flushTimers_keys htimers]
      exact h.timers
    · show GoodKeys ((t.counters.map fun c => (flushCounter cfg env.ts c).1).map StatsdCounter.key)
      rw [List.map_map]
      exact h.counters
  rcases hr with rfl | hstat
  · exact hflushed
  · exact hflushed.updateStat goodName_lastFlush hstat

/-! ## Restarts -/

/-- The tables that a new process reads from the snapshot of the old one have the keys that were
written. -/
theorem restart (h : DaemonState t) {r : Nat}
    (hok : statsdDeserialize .empty (snapshotText t) = .ok (r, t')) : DaemonState t' := by
  obtain ⟨-, -, -, rfl⟩ := (statsdDeserialize_serialize_iff h.nulFree).mp hok
  have hunique := keysUnique_reread t
  refine ⟨fun s hs => ?_, ⟨hunique.timers, fun k hk => ?_⟩, ⟨hunique.gauges, fun k hk => ?_⟩,
    ⟨hunique.counters, fun k hk => ?_⟩⟩
  · obtain ⟨e, he, rfl⟩ := List.mem_map.mp hs
    obtain ⟨s, hs, hkey, -⟩ := exists_key_of_mem_rereadEntries he
    show GoodName (statNameOf e.1)
    rw [← hkey, statNameOf_tmpkey (h.stats s hs).period_notMem]
    exact h.stats s hs
  · obtain ⟨s, hs, rfl⟩ := List.mem_map.mp hk
    obtain ⟨e, he, rfl⟩ := List.mem_map.mp hs
    obtain ⟨s, hs, hkey, -⟩ := exists_key_of_mem_rereadEntries he
    exact h.timers.metricKey e.1 (hkey ▸ List.mem_map_of_mem hs)
  · obtain ⟨g, hg, rfl⟩ := List.mem_map.mp hk
    obtain ⟨e, he, rfl⟩ := List.mem_map.mp hg
    obtain ⟨g, hg, hkey, -⟩ := exists_key_of_mem_rereadEntries he
    exact h.gauges.metricKey e.1 (hkey ▸ List.mem_map_of_mem hg)
  · obtain ⟨c, hc, rfl⟩ := List.mem_map.mp hk
    obtain ⟨e, he, rfl⟩ := List.mem_map.mp hc
    obtain ⟨c, hc, hkey, -⟩ := exists_key_of_mem_rereadEntries he
    exact h.counters.metricKey e.1 (hkey ▸ List.mem_map_of_mem hc)

end DaemonState

/-! ## Reachable states -/

/-- One event keeps the invariant, by the three cases of `DaemonEvent.apply_cases`. -/
theorem daemonState_step {firstByte : Num → Int} {t t' : Tables Num} {e : DaemonEvent}
    (h : DaemonState t) (hstep : e.apply firstByte t = .ok t') : DaemonState t' := by
  rcases DaemonEvent.apply_cases hstep with ⟨calls, t₁, hcalls, happly, hseen⟩ |
    ⟨cfg, env, report, hpass⟩ | ⟨t₁, now, hread, hinit⟩
  · have h₁ := h.applyMetricCalls hcalls happly
    rcases hseen with rfl | ⟨now, hok⟩
    · exact h₁
    · exact h₁.updateStat goodName_lastMsgSeen hok
  · exact h.flushPass hpass
  · rcases hread with rfl | ⟨r, hok⟩
    · exact daemonState_empty.initStats hinit
    · exact (h.restart hok).initStats hinit

/-- **The invariant of the daemon**, in every state of every run, whatever the packets and the times
are. -/
theorem reachable_daemonState {firstByte : Num → Int} {t : Tables Num}
    (h : (daemon firstByte).Reachable t) : DaemonState t := by
  refine h.invariant (I := DaemonState) (fun t hinit => ?_) fun _ _ _ ht hstep =>
    daemonState_step ht hstep
  obtain ⟨now, hok⟩ := hinit
  exact daemonState_empty.initStats hok

/-! ## The snapshot of a reachable state -/

/-- The snapshot of `t` can be written and read back: it is an object with the four sections,
and `statsd_deserialize` loads it. -/
def SnapshotReadable (t : Tables Num) : Prop :=
  ∃ file, statsdSerialize tmpkeyBlock t = .ok file ∧
    (∃ s, HasSections (fileText file) s) ∧ ∃ t', statsdDeserialize .empty file = .ok (1, t')

/-- The snapshot of a state that keeps the invariant is the text of its tables. -/
theorem DaemonState.snapshotReadable_iff_text {t : Tables Num} (h : DaemonState t) :
    SnapshotReadable t ↔ (∃ s, HasSections (fileText (snapshotText t)) s) ∧
      ∃ t', statsdDeserialize .empty (snapshotText t) = .ok (1, t') := by
  unfold SnapshotReadable
  rw [h.statsdSerialize_eq]
  constructor
  · rintro ⟨_, ⟨rfl⟩, hreadable⟩
    exact hreadable
  · intro hreadable
    exact ⟨_, rfl, hreadable⟩

/-- **A state's snapshot can be read back** exactly if every number in it is finite: those of the
counters and gauges once they are converted, and the samples. -/
theorem snapshotReadable_iff {firstByte : Num → Int} {t : Tables Num}
    (h : (daemon firstByte).Reachable t) : SnapshotReadable t ↔ ValuesFinite t := by
  have hstate := reachable_daemonState h
  rw [hstate.snapshotReadable_iff_text]
  simp only [hasSections_serialize_iff hstate.nulFree,
    statsdDeserialize_serialize_iff hstate.nulFree]
  rw [← readBack_printedSections_iff hstate.keysUnique]
  constructor
  · rintro ⟨⟨s, hback, -⟩, -⟩
    exact hback
  · intro hback
    exact ⟨⟨_, hback, rfl⟩, _, hback, loadable_reread hback hstate.keysFit, trivial, rfl⟩

/-- The tables of a process that started at time 0 without a snapshot. -/
def startTables : Tables Num :=
  ⟨[⟨⟨"graphite".toList, "last_flush".toList⟩, 0, false⟩,
    ⟨⟨"messages".toList, "last_msg_seen".toList⟩, 0, false⟩,
    ⟨⟨"messages".toList, "bad_lines_seen".toList⟩, 0, false⟩], [], [], []⟩

theorem initStats_empty : initStats .empty 0 = .ok startTables := rfl

/-- A value that no `double` holds. -/
theorem sscanfLf_overflow : sscanfLf "1e999".toList = some (.inf false) := by
  have hread : sscanfLf "1e999".toList =
      some (.ofRat (((1 : Nat) : Rat) * 10 ^ ((999 : Int) - (0 : Nat)))) := rfl
  have hpow : ((1 : Nat) : Rat) * 10 ^ ((999 : Int) - (0 : Nat)) = 10 ^ 999 := by
    rw [Nat.cast_one, one_mul, Nat.cast_zero, sub_zero]
    exact zpow_natCast 10 999
  have hpos : (0 : Rat) < 10 ^ 999 := by positivity
  have hbig : (2 : Rat) ^ 1024 ≤ |(10 : Rat) ^ 999| := by
    rw [abs_of_pos hpos]
    calc (2 : Rat) ^ 1024 ≤ 2 ^ (2 * 999) := pow_le_pow_right₀ (by norm_num) (by norm_num)
      _ = (2 ^ 2) ^ 999 := pow_mul 2 2 999
      _ ≤ 10 ^ 999 := pow_le_pow_left₀ (by norm_num) (by norm_num) 999
  rw [hread, hpow, Num.ofRat_of_two_pow_le hbig, decide_eq_false (not_lt.mpr hpos.le)]

/-- The tables once the counter `k` has received that value, which is an infinity. -/
def overflownTables : Tables Num := { startTables with counters := [⟨['k'], .inf false⟩] }

/-- The packet `{"counter":"k","value":"1e999"}`. -/
def overflowPacket : QueuedPacket where
  text := "\x7b\"counter\":\"k\",\"value\":\"1e999\"\x7d".toList
  nul_notMem := by decide
  length_le := by decide

/-- A counter sent as one JSON object is one call, with the value as a number. -/
theorem apply_jsonCounter {firstByte : Num → Int} {p : QueuedPacket} {now : Int} {key : CString}
    {v : Json} {t t' : Tables Num} (hlen : ¬ p.text.length < 2)
    (hhead : (queueBuffer p.text).head? = some '{')
    (hparse : jsonTokenerParse p.text =
      .ok (.object [("counter".toList, .string key), ("value".toList, v)]))
    (hvalue : v.isNull = false)
    (hupdate : updateCounter t (sanitizeKey key) v.getDouble 0 = .ok t') :
    (DaemonEvent.packet p now).apply firstByte t = .ok t' := by
  have hbuf := queueBuffer_stringAt p.nul_notMem p.length_le
  have hobject : processJsonStatsObject
      (.object [("counter".toList, .string key), ("value".toList, v)]) =
        .ok [.updateCounter (some (sanitizeKey key)) v.getDouble 0] := by
    have htimer : (Json.object [("counter".toList, .string key), ("value".toList, v)]).objectGet
        "timer".toList = .ok .null := rfl
    have hcounter : (Json.object [("counter".toList, .string key), ("value".toList, v)]).objectGet
        "counter".toList = .ok (.string key) := rfl
    have hget : (Json.object [("counter".toList, .string key), ("value".toList, v)]).objectGet
        "value".toList = .ok v := rfl
    have hrate : (Json.object [("counter".toList, .string key), ("value".toList, v)]).objectGet
        "sample_rate".toList = .ok .null := rfl
    have hnull : Json.null.isNull = true := rfl
    have hkey : (Json.string key).isNull = false := rfl
    simp only [processJsonStatsObject, htimer, hcounter, hget, hrate, bind, Except.bind, pure,
      Except.pure, hnull, hkey, hvalue]
    rfl
  have hcalls : processJsonStatsPacket (queueBuffer p.text) =
      .ok [.updateCounter (some (sanitizeKey key)) v.getDouble 0] := by
    rw [processJsonStatsPacket, hbuf.cstr_eq, if_neg hlen, hparse]
    exact hobject
  have happly : applyMetricCalls t [.updateCounter (some (sanitizeKey key)) v.getDouble 0] =
      .ok t' := by
    rw [applyMetricCalls, List.foldlM_cons, bind_eq_ok]
    exact ⟨t', hupdate, rfl⟩
  simp only [DaemonEvent.apply, hhead, true_or, if_true, handleJson, hcalls, hbuf.cstr_eq,
    if_neg hlen, bind_eq_ok, mapError_eq_ok]
  exact ⟨_, rfl, t', happly, rfl⟩

theorem apply_overflowPacket (firstByte : Num → Int) :
    (DaemonEvent.packet overflowPacket 0).apply firstByte startTables = .ok overflownTables := by
  have hvalue : (Json.string "1e999".toList).getDouble = .inf false := by
    rw [Json.getDouble, sscanfLf_overflow, Option.getD_some]
  refine @apply_jsonCounter firstByte overflowPacket 0 ['k'] (.string "1e999".toList) _ _
    (by decide) rfl rfl rfl ?_
  rw [hvalue]
  rfl

theorem reachable_startTables (firstByte : Num → Int) :
    (daemon firstByte).Reachable startTables := .start ⟨0, initStats_empty⟩

/-- The packet `{"counter":"k","value":7}`. -/
def sevenPacket : QueuedPacket where
  text := "\x7b\"counter\":\"k\",\"value\":7\x7d".toList
  nul_notMem := by decide
  length_le := by decide

/-- The tables after it. -/
def sevenTables : Tables Num := { startTables with counters := [⟨['k'], .fin 7⟩] }

theorem apply_sevenPacket (firstByte : Num → Int) :
    (DaemonEvent.packet sevenPacket 0).apply firstByte startTables = .ok sevenTables :=
  @apply_jsonCounter firstByte sevenPacket 0 ['k'] (.int 7) _ _ (by decide) rfl rfl rfl rfl

theorem reachable_sevenTables (firstByte : Num → Int) :
    (daemon firstByte).Reachable sevenTables :=
  (reachable_startTables firstByte).next (apply_sevenPacket firstByte)

theorem isFinite_toDouble_seven : (Num.fin 7).toDouble.IsFinite := by
  have hint : Num.ofRat ((7 : Int) : Rat) = .fin (7 : Int) := Num.ofRat_intCast (by norm_num)
  rw [Num.toDouble, show (7 : Rat) = ((7 : Int) : Rat) from rfl, hint]
  trivial

/-- The packet `{"timer":"k","value":7}`. -/
def timerPacket : QueuedPacket where
  text := "\x7b\"timer\":\"k\",\"value\":7\x7d".toList
  nul_notMem := by decide
  length_le := by decide

theorem apply_timerPacket (firstByte : Num → Int) {t t' : Tables Num}
    (hupdate : updateTimer t ['k'] (.fin 7) = .ok t') :
    (DaemonEvent.packet timerPacket 0).apply firstByte t = .ok t' := by
  have hbuf := queueBuffer_stringAt timerPacket.nul_notMem timerPacket.length_le
  have hcalls : processJsonStatsPacket (queueBuffer timerPacket.text) =
      .ok [.updateTimer (some ['k']) (.fin 7)] := by
    rw [processJsonStatsPacket, hbuf.cstr_eq]
    rfl
  have happly : applyMetricCalls t [.updateTimer (some ['k']) (.fin 7)] = .ok t' := by
    rw [applyMetricCalls, List.foldlM_cons, bind_eq_ok]
    exact ⟨t', hupdate, rfl⟩
  have hhead : (queueBuffer timerPacket.text).head? = some '{' := rfl
  have hlen : ¬ timerPacket.text.length < 2 := by decide
  simp only [DaemonEvent.apply, hhead, true_or, if_true, handleJson, hcalls, hbuf.cstr_eq,
    if_neg hlen, bind_eq_ok, mapError_eq_ok]
  exact ⟨_, rfl, t', happly, rfl⟩

/-- The theorem at the state after a packet, where a counter has a value. -/
theorem snapshotReadable_sevenTables : SnapshotReadable sevenTables := by
  refine (snapshotReadable_iff (reachable_sevenTables fun _ => 0)).mpr
    ⟨by rintro s ⟨⟩, by rintro g ⟨⟩, fun c hc => ?_⟩
  obtain rfl := List.mem_singleton.mp hc
  exact isFinite_toDouble_seven

theorem reachable_overflownTables (firstByte : Num → Int) :
    (daemon firstByte).Reachable overflownTables :=
  (reachable_startTables firstByte).next (apply_overflowPacket firstByte)

/-- After that packet the snapshot holds `inf`, which the reader does not take. -/
theorem overflown_snapshot_unreadable :
    ∃ t, (daemon fun _ => 0).Reachable t ∧ ¬ SnapshotReadable t := by
  have hreach := reachable_overflownTables fun _ => 0
  refine ⟨overflownTables, hreach, fun hreadable => ?_⟩
  have hstate := reachable_daemonState hreach
  obtain ⟨-, t', hok⟩ := hstate.snapshotReadable_iff_text.mp hreadable
  have hback := ((statsdDeserialize_serialize_iff hstate.nulFree).mp hok).1
  have hfinite := (readBack_printedSections_iff hstate.keysUnique).mp hback
  exact hfinite.counters _ (List.mem_singleton.mpr rfl)

end StatsdC
