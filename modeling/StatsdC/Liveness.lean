import StatsdC.Daemon
import StatsdC.StatsRoundTrip

/-!
# The time of the last message

Both front ends are meant to note in a stat when they were last called.  `process_stats_packet`
does so at every return.  `process_json_stats_packet` has the same first lines, so that a packet of
less than two bytes is noted, but no other packet is, whether it is valid or rejected: a daemon
that is fed with JSON looks dead to whoever watches the stat.

`Refreshed` says that the stat holds the time at which the packet was handled, and that every other
stat is as it was.  `refreshed_iff` says for any packet that the daemon survives when this is so:
the packet is not JSON, or it is short, or the stat held that time before.  The last case is there
because the time is a number of seconds, and two packets may come in one.

The lemmas on the way are a specification of `update_stat`, which sets its entry and leaves all
others alone (`updateStat_spec`), and the fact that no call of a packet touches the stats
(`stats_applyMetricCalls`), since packets can only name counters, gauges and timers.  Over a run of
packets that are not JSON the stat holds the time of the last one (`refreshed_run`).  Which of the
two front ends a packet goes to is decided by its first byte alone.
-/

namespace StatsdC
open CString OrderedTable Fallible

/-- The value of a stat, if it has one.  The first entry decides, as in `update_stat`. -/
def statValue (stats : List StatsdStat) (name : StatsdStatName) : Option Int :=
  (lookup StatsdStat.name stats name).map StatsdStat.value

/-- The stats under other names, which a call for `name` has to leave alone. -/
def otherStats (stats : List StatsdStat) (name : StatsdStatName) : List StatsdStat :=
  stats.filter (·.name ≠ name)

/-- **The liveness stat is refreshed**: it holds the time `now`, and no other entry of the
stats has changed. -/
def Refreshed (t t' : Tables Num) (now : Int) : Prop :=
  statValue t'.stats lastMsgSeen = some now ∧
    otherStats t'.stats lastMsgSeen = otherStats t.stats lastMsgSeen

/-- A packet that is handled as JSON, which its first byte alone decides. -/
def QueuedPacket.IsJson (p : QueuedPacket) : Prop :=
  p.text.head? = some '{' ∨ p.text.head? = some '['

/-! ## Updates -/

section Updates
variable {t t' : Tables Num}

/-- **`update_stat`** sets the value of its entry and leaves the others alone, whether the entry
existed or not. -/
theorem updateStat_spec {group key value : CString} (h : updateStat t group key value = .ok t') :
    statValue t'.stats ⟨group, key⟩ = some (atol value) ∧
      otherStats t'.stats ⟨group, key⟩ = otherStats t.stats ⟨group, key⟩ := by
  obtain ⟨i, hfind, rfl⟩ | ⟨hfind, rfl⟩ := updateStat_cases h
  · obtain ⟨⟨e, he⟩, hothers⟩ := modify_find (g := fun s => { s with value := atol value }) hfind
      fun _ => rfl
    refine ⟨?_, hothers⟩
    show (lookup StatsdStat.name _ _).map StatsdStat.value = _
    rw [he]
    rfl
  · have hnew := lookup_append (e := (⟨⟨group, key⟩, atol value, false⟩ : StatsdStat))
      (notMem_keys_of_find hfind) ⟨group, key⟩
    constructor
    · show (lookup StatsdStat.name _ _).map StatsdStat.value = _
      rw [hnew, if_pos rfl]
      rfl
    · simp [otherStats]

/-- `UPDATE_LAST_MSG_SEEN` refreshes the stat, from any tables it finds. -/
theorem refreshed_updateLastMsgSeen {now : Long} (h : updateLastMsgSeen t now.value = .ok t') :
    Refreshed t t' now.value := by
  have hspec := updateStat_spec h
  rw [atol_printD] at hspec
  exact hspec

/-- The calls of a packet leave the stats as they are, since they are for counters, gauges and
timers. -/
theorem stats_applyMetricCalls {calls : List (MetricCall Num)}
    (h : applyMetricCalls t calls = .ok t') : t'.stats = t.stats :=
  foldlM_invariant (I := fun b => b.stats = t.stats)
    (fun _ _ _ _ hb hok => (stats_metricCall hok).trans hb) rfl h

end Updates

/-! ## The front ends -/

section FrontEnds
variable {t t' : Tables Num} {bufIn : Buffer} {now : Long}

/-- **`process_stats_packet`** refreshes the stat, whatever the packet holds. -/
theorem refreshed_handlePlain (h : handlePlain t bufIn now.value = .ok t') :
    Refreshed t t' now.value := by
  simp only [handlePlain, bind_eq_ok, mapError_eq_ok] at h
  obtain ⟨calls, -, t₁, happly, hseen⟩ := h
  obtain ⟨hvalue, hothers⟩ := refreshed_updateLastMsgSeen hseen
  rw [stats_applyMetricCalls happly] at hothers
  exact ⟨hvalue, hothers⟩

/-- **`process_json_stats_packet`** refreshes the stat for a short packet, and changes none
for any other. -/
theorem handleJson_spec (h : handleJson t bufIn now.value = .ok t') :
    if (cstr bufIn 0).length < 2 then Refreshed t t' now.value else t'.stats = t.stats := by
  simp only [handleJson, bind_eq_ok, mapError_eq_ok] at h
  obtain ⟨calls, -, t₁, happly, hok⟩ := h
  have hstats := stats_applyMetricCalls happly
  split at hok
  · rename_i hshort
    rw [if_pos hshort]
    obtain ⟨hvalue, hothers⟩ := refreshed_updateLastMsgSeen (mapError_eq_ok.mp hok)
    rw [hstats] at hothers
    exact ⟨hvalue, hothers⟩
  · rename_i hshort
    rw [if_neg hshort, ← pure_eq_ok.mp hok]
    exact hstats

end FrontEnds

/-- The first byte of the buffer is that of the packet. -/
theorem head?_queueBuffer_eq_iff {text : CString} {c : Char} (hc : c ≠ nul) :
    (queueBuffer text).head? = some c ↔ text.head? = some c := by
  unfold queueBuffer
  cases text with
  | nil =>
    refine iff_of_false (fun h => ?_) nofun
    have hnul := List.eq_of_mem_replicate (List.mem_of_mem_head? h)
    exact hc hnul
  | cons d text => rfl

theorem isJson_iff {p : QueuedPacket} :
    (queueBuffer p.text).head? = some '{' ∨ (queueBuffer p.text).head? = some '[' ↔ p.IsJson :=
  or_congr (head?_queueBuffer_eq_iff (by decide)) (head?_queueBuffer_eq_iff (by decide))

section Packets
variable {firstByte : Num → Int} {t t' : Tables Num} {p : QueuedPacket} {now : Long}

/-- A packet that is no JSON, or is short, refreshes the stat. -/
theorem refreshed_packet (h : (DaemonEvent.packet p now.value).apply firstByte t = .ok t')
    (hp : ¬ p.IsJson ∨ p.text.length < 2) : Refreshed t t' now.value := by
  have hbuf := queueBuffer_stringAt p.nul_notMem p.length_le
  simp only [DaemonEvent.apply] at h
  split at h
  · rename_i hfirst
    have hshort : p.text.length < 2 := hp.resolve_left fun hplain => hplain (isJson_iff.mp hfirst)
    have hspec := handleJson_spec h
    rw [hbuf.cstr_eq, if_pos hshort] at hspec
    exact hspec
  · exact refreshed_handlePlain h

/-- Any other packet leaves the stats as they are. -/
theorem stats_packet (h : (DaemonEvent.packet p now.value).apply firstByte t = .ok t')
    (hjson : p.IsJson) (hlong : ¬ p.text.length < 2) : t'.stats = t.stats := by
  have hbuf := queueBuffer_stringAt p.nul_notMem p.length_le
  simp only [DaemonEvent.apply] at h
  rw [if_pos (isJson_iff.mpr hjson)] at h
  have hspec := handleJson_spec h
  rwa [hbuf.cstr_eq, if_neg hlong] at hspec

/-- **When a packet refreshes the liveness stat**: it is no JSON, or it is short, or the
stat held that time already. -/
theorem refreshed_iff (h : (DaemonEvent.packet p now.value).apply firstByte t = .ok t') :
    Refreshed t t' now.value ↔
      ¬ p.IsJson ∨ p.text.length < 2 ∨ statValue t.stats lastMsgSeen = some now.value := by
  by_cases hp : ¬ p.IsJson ∨ p.text.length < 2
  · exact iff_of_true (refreshed_packet h hp) (or_assoc.mp (.inl hp))
  · obtain ⟨hjson, hlong⟩ := not_or.mp hp
    unfold Refreshed
    rw [stats_packet h (not_not.mp hjson) hlong]
    simp [not_not.mp hjson, hlong]

/-- **A run over packets** of which none is JSON, or short ones only, leaves the time of the
last one in the stat, and the other stats as they were. -/
theorem refreshed_run {packets : List (QueuedPacket × Long)} {last : QueuedPacket × Long}
    (hpackets : ∀ p ∈ packets, ¬ p.1.IsJson ∨ p.1.text.length < 2)
    (hlast : packets.getLast? = some last)
    (h : packets.foldlM (fun t p => (DaemonEvent.packet p.1 p.2.value).apply firstByte t) t =
      .ok t') : Refreshed t t' last.2.value := by
  induction packets generalizing t with
  | nil => cases hlast
  | cons p packets ih =>
    obtain ⟨hp, hrest⟩ := List.forall_mem_cons.mp hpackets
    rw [List.foldlM_cons, bind_eq_ok] at h
    obtain ⟨t₁, hstep, hrun⟩ := h
    obtain ⟨hvalue, hothers⟩ := refreshed_packet hstep hp
    cases packets with
    | nil =>
      obtain rfl := Option.some.inj hlast
      obtain rfl := pure_eq_ok.mp hrun
      exact ⟨hvalue, hothers⟩
    | cons q packets =>
      rw [List.getLast?_cons_cons] at hlast
      obtain ⟨hvalue', hothers'⟩ := ih hrest hlast hrun
      exact ⟨hvalue', hothers'.trans hothers⟩

end Packets

/-- The packet `a`. -/
def shortPacket : QueuedPacket where
  text := ['a']
  nul_notMem := by decide
  length_le := by decide

/-- The theorem for that packet, at the time 5. -/
theorem refreshed_shortPacket :
    ∃ t', (DaemonEvent.packet shortPacket 5).apply (fun _ => 0) startTables = .ok t' ∧
      Refreshed startTables t' 5 := by
  have hbuf := queueBuffer_stringAt shortPacket.nul_notMem shortPacket.length_le
  have hcalls : processStatsPacket strtod (queueBuffer shortPacket.text) = .ok [] := by
    rw [processStatsPacket, hbuf.cstr_eq]
    rfl
  have hok : (DaemonEvent.packet shortPacket 5).apply (fun _ => 0) startTables =
      handlePlain startTables (queueBuffer shortPacket.text) 5 := rfl
  obtain ⟨t', happly⟩ :
      ∃ t', handlePlain startTables (queueBuffer shortPacket.text) 5 = .ok t' := by
    rw [handlePlain, hcalls]
    exact ⟨_, rfl⟩
  have hstep := hok.trans happly
  exact ⟨t', hstep, (@refreshed_iff _ _ _ _ ⟨5, by decide, by decide⟩ hstep).mpr
    (.inl (by rintro (h | h) <;> cases h))⟩

/-- The packet `{"counter":"k","value":1}`. -/
def countedPacket : QueuedPacket where
  text := "\x7b\"counter\":\"k\",\"value\":1\x7d".toList
  nul_notMem := by decide
  length_le := by decide

/-- **A counter sent as JSON** at the time 1 is counted, and the stat still says 0. -/
theorem json_not_refreshed : (daemon fun _ => 0).Reachable startTables ∧
    ∃ t', (DaemonEvent.packet countedPacket 1).apply (fun _ => 0) startTables = .ok t' ∧
      t'.counters = [⟨['k'], .fin 1⟩] ∧ ¬ Refreshed startTables t' 1 := by
  refine ⟨reachable_startTables _, { startTables with counters := [⟨['k'], .fin 1⟩] }, ?_, rfl, ?_⟩
  · exact @apply_jsonCounter (fun _ => 0) countedPacket 1 ['k'] (.int 1) _ _ (by decide) rfl rfl
      rfl rfl
  · intro h
    exact absurd h.1 (by decide)

end StatsdC
