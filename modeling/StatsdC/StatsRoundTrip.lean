import StatsdC.SnapshotRoundTrip

/-!
# The stats in a snapshot

A stat's name is written as one key, the group and the name of the stat with a period between them,
and cut again at the first period.  Names come back as they were, since a group holds no period.  A
value is a `long`, but it is written and read as an `int`: it comes back exactly if it is one.  The
times that the daemon keeps are such values, and so from the year 2038 on a time that is read back
is another one.

The key is printed into a block of its own, for which `malloc` is asked for 8 bytes, whatever the
lengths of the group and of the name are.  How many bytes can be written there is a parameter, as in
`SnapshotRoundTrip`; a longer key ends the writer, and no stat comes back at all.

With this the condition is exact (`restoresStats_iff`): the writer and the reader get through and
restore the stats if all keys fit the block, all numbers of the metrics are finite, since one file
has them all, and every value is an `int`.  The statement is about any tables with unique keys and
names that fit their fields, and not only about those that a run leads to, in which the names are
three short ones.

The witness is a state with the times as the daemon notes them, in the least block that the C
library of the GNU system hands out; the counterexample is a time that no `int` holds, whatever
the block.
-/

namespace StatsdC
open CString

/-! ## The entries of the stats table -/

/-- The group, the name and the value of a stat, without the flag of its lock. -/
def StatsdStat.entry (s : StatsdStat) : CString × CString × Int :=
  (s.name.groupName, s.name.keyName, s.value)

/-- Stats under different names, each name a group without a period and a key, both C
strings of at most 97 bytes. -/
structure StatTable (stats : List StatsdStat) : Prop where
  nodup : (stats.map StatsdStat.name).Nodup
  nul_notMem : ∀ s ∈ stats, nul ∉ s.name.groupName ∧ nul ∉ s.name.keyName
  length_le : ∀ s ∈ stats, s.name.groupName.length ≤ 97 ∧ s.name.keyName.length ≤ 97
  period_notMem : ∀ s ∈ stats, '.' ∉ s.name.groupName

/-- The three other tables hold C strings that fit their fields as keys, none of them
twice. -/
structure MetricTables (t : Tables Num) : Prop where
  unique : KeysUnique t
  timers : ∀ s ∈ t.timers, nul ∉ s.key ∧ KeyFits s.key
  gauges : ∀ g ∈ t.gauges, nul ∉ g.key ∧ KeyFits g.key
  counters : ∀ c ∈ t.counters, nul ∉ c.key ∧ KeyFits c.key

/-- A `long` that an `int` holds, so that `json_object_new_int` keeps it. -/
def IsInt (z : Int) : Prop := -2 ^ 31 ≤ z ∧ z < 2 ^ 31

/-- The snapshot of the tables is written, with blocks of `block` bytes for the keys, and
loaded, with the entries of the stats as they were. -/
def RestoresStats (block : Nat) (t : Tables Num) : Prop :=
  ∃ text t', statsdSerialize block t = .ok text ∧ statsdDeserialize .empty text = .ok (1, t') ∧
    t'.stats.map StatsdStat.entry = t.stats.map StatsdStat.entry

/-- The conversion to `int` keeps a value exactly if it is one, since it takes the lower 32 bits. -/
theorem intOfLong_eq_self_iff {z : Int} : intOfLong z = z ↔ IsInt z := by
  constructor
  · intro h
    have hbounds := intOfLong_bounds z
    rwa [h] at hbounds
  · intro ⟨hlo, hhi⟩
    exact Int.bmod_eq_of_le (by omega) (by omega)

namespace StatTable
variable {stats : List StatsdStat} {t : Tables Num}

/-- No two stats share a key in the file: a name can be read off its key. -/
theorem nodup_tmpkey (h : StatTable stats) : (stats.map fun s => s.name.tmpkey).Nodup := by
  have hback : (stats.map fun s => s.name.tmpkey).map statNameOf = stats.map StatsdStat.name := by
    rw [List.map_map]
    exact List.map_congr_left fun s hs => statNameOf_tmpkey (h.period_notMem s hs)
  refine List.Nodup.of_map statNameOf ?_
  rw [hback]
  exact h.nodup

theorem nulFree (h : StatTable t.stats) (hmetrics : MetricTables t) : NulFree t where
  stats s hs := by
    obtain ⟨hgroup, hkey⟩ := h.nul_notMem s hs
    have hperiod : nul ≠ '.' := by decide
    simp [StatsdStatName.tmpkey, hgroup, hkey, hperiod]
  timers s hs := (hmetrics.timers s hs).1
  gauges g hg := (hmetrics.gauges g hg).1
  counters c hc := (hmetrics.counters c hc).1

theorem keysFit (h : StatTable t.stats) (hmetrics : MetricTables t) : KeysFit t where
  stats s hs := by
    obtain ⟨hgroup, hkey⟩ := h.length_le s hs
    have hsize : keySize = 100 := rfl
    refine ⟨h.period_notMem s hs, ?_, by omega⟩
    show s.name.groupName.length < keySize
    omega
  timers s hs := (hmetrics.timers s hs).2
  gauges g hg := (hmetrics.gauges g hg).2
  counters c hc := (hmetrics.counters c hc).2

/-- The stats that are read back: the names as they were, the values as `int`. -/
theorem stats_reread (h : StatTable t.stats) :
    (printedSections t).reread.tables.stats =
      t.stats.map fun s => ⟨s.name, intOfLong s.value, false⟩ := by
  rw [Sections.tables, Sections.reread, printedSections, rereadEntries_tableEntries h.nodup_tmpkey,
    List.map_map]
  refine List.map_congr_left fun s hs => ?_
  simp only [Function.comp, statOf, statNameOf_tmpkey (h.period_notMem s hs)]
  rfl

end StatTable

/-- **The round trip of the stats.**  Every entry is restored exactly if every key is shorter
than its block, every value is in the range of an `int`, and the numbers in the other tables
are finite, without which the snapshot is not read at all. -/
theorem restoresStats_iff {block : Nat} {t : Tables Num} (hstats : StatTable t.stats)
    (hmetrics : MetricTables t) :
    RestoresStats block t ↔
      (∀ s ∈ t.stats, s.name.tmpkey.length < block) ∧
        (∀ s ∈ t.stats, IsInt s.value) ∧ ValuesFinite t := by
  have hback := readBack_printedSections_iff hmetrics.unique
  have hentries : (printedSections t).reread.tables.stats.map StatsdStat.entry =
      t.stats.map StatsdStat.entry ↔ ∀ s ∈ t.stats, IsInt s.value := by
    rw [hstats.stats_reread, List.map_map, List.map_inj_left]
    simp only [Function.comp, StatsdStat.entry, Prod.mk.injEq, true_and, intOfLong_eq_self_iff]
  have hload := @statsdDeserialize_serialize_iff t
  unfold RestoresStats
  simp only [statsdSerialize_eq_ok_iff]
  constructor
  · rintro ⟨text, t', ⟨hblock, rfl⟩, hok, heq⟩
    obtain ⟨hread, _, _, rfl⟩ := (hload (hstats.nulFree hmetrics)).mp hok
    exact ⟨hblock, hentries.mp heq, hback.mp hread⟩
  · rintro ⟨hblock, hints, hfinite⟩
    have hread := hback.mpr hfinite
    exact ⟨_, _, ⟨hblock, rfl⟩, (hload (hstats.nulFree hmetrics)).mpr
      ⟨hread, loadable_reread hread (hstats.keysFit hmetrics), rfl, rfl⟩, hentries.mpr hints⟩

/-! ## The time of the last message -/

/-- The stat of `UPDATE_LAST_MSG_SEEN`, whose value is a time. -/
def lastMsgSeen : StatsdStatName := ⟨"messages".toList, "last_msg_seen".toList⟩

/-- Tables in which the last message was seen at `time`. -/
def lastSeen (time : Int) : Tables Num := ⟨[⟨lastMsgSeen, time, false⟩], [], [], []⟩

theorem statTable_lastSeen (time : Int) : StatTable (lastSeen time).stats := by
  have hname : ∀ s ∈ (lastSeen time).stats, s.name = lastMsgSeen := by
    intro s hs
    rw [List.mem_singleton.mp hs]
  refine ⟨List.nodup_singleton _, fun s hs => ?_, fun s hs => ?_, fun s hs => ?_⟩
  · rw [hname s hs]
    decide
  · rw [hname s hs]
    decide
  · rw [hname s hs]
    decide

theorem metricTables_lastSeen (time : Int) : MetricTables (lastSeen time) :=
  ⟨⟨List.nodup_nil, List.nodup_nil, List.nodup_nil⟩, nofun, nofun, nofun⟩

/-- The theorem at the time 1700000000, which an `int` holds, and the 24 bytes of the least
block that glibc hands out. -/
theorem restoresStats_lastSeen : RestoresStats 24 (lastSeen 1700000000) := by
  refine (restoresStats_iff (statTable_lastSeen _) (metricTables_lastSeen _)).mpr
    ⟨fun s hs => ?_, fun s hs => ?_, ⟨nofun, nofun, nofun⟩⟩
  · obtain rfl := List.mem_singleton.mp hs
    decide
  · obtain rfl := List.mem_singleton.mp hs
    exact ⟨by decide, by decide⟩

/-- **The first second that an `int` does not hold** comes back as a negative number, however
large the block of its key is. -/
theorem late_lastSeen_not_restored : StatTable (lastSeen (2 ^ 31)).stats ∧
    MetricTables (lastSeen (2 ^ 31)) ∧ ∀ block, ¬ RestoresStats block (lastSeen (2 ^ 31)) := by
  have hstats := statTable_lastSeen (2 ^ 31)
  have hmetrics := metricTables_lastSeen (2 ^ 31)
  refine ⟨hstats, hmetrics, ?_⟩
  intro block ⟨text, t', hwrite, hload, heq⟩
  obtain ⟨-, rfl⟩ := statsdSerialize_eq_ok_iff.mp hwrite
  obtain ⟨_, _, _, rfl⟩ := (statsdDeserialize_serialize_iff (hstats.nulFree hmetrics)).mp hload
  rw [hstats.stats_reread] at heq
  have hvalue : intOfLong (2 ^ 31) = 2 ^ 31 := by
    have hentry := (List.cons.inj heq).1
    exact congrArg (fun e => e.2.2) hentry
  exact absurd hvalue (by decide)

end StatsdC
