import StatsdC.SnapshotText
import StatsdC.Strings

/-!
# The snapshot round trip

The state that the next start finds prints as the state that was written, every value to six
decimals (`restoresMetrics_iff`).  Three things can come between.  Counters and gauges are
`long double`, and the writer converts them to `double`: one that overflows is printed as `inf`,
which the reader's tokener does not accept, and one that is rounded may print other decimals than
the original.  The key of a stat is printed into a block that was allocated for a number, so a long
one is a write past its end.  And the part of a stat's name behind its group is copied with a byte
more than it needs.

The condition has one part for each of them, and it is exact: where it fails, something is lost, or
the program does not get through.  The part about the decimals compares the number with the number
it is converted to, printed with six places; it holds for every number that is a double, and fails
for some that are not, of which large sums are examples.

The size of the block is a parameter.  `malloc` is asked for 8 bytes; how many can be written
depends on the allocator.  What is written and read is computed by the theorem of
`StatsdC.SnapshotText` about any tables, and the comparison is made number by number.  Stats have
conditions of their own, in `StatsdC.StatsRoundTrip`; here they come in only where they keep the
metrics from being restored.
-/

namespace StatsdC
open CString

/-- A `double` is read back as it was printed, to six decimals. -/
theorem getDouble_reread {d : Num} (h : d.IsFinite) :
    (Json.double d).reread.getDouble = d.toSix := by
  cases d with
  | fin q => rfl
  | negZero => rfl
  | inf neg => exact h.elim
  | nan => exact h.elim

/-! ## States and their restoration -/

/-- A key over `[A-Za-z0-9_-]` that fits its field, as the front ends make it. -/
structure MetricKey (key : CString) : Prop where
  chars : ∀ c ∈ key, isKeyChar c = true
  fits : KeyFits key

/-- A state of the tables with such keys and finite values, in which no key is there twice. -/
structure SnapshotState (t : Tables Num) : Prop where
  stats : ∀ s ∈ t.stats, MetricKey s.name.groupName ∧ MetricKey s.name.keyName
  timers : ∀ s ∈ t.timers, MetricKey s.key ∧ ∀ x ∈ s.values, x.IsDouble
  gauges : ∀ g ∈ t.gauges, MetricKey g.key ∧ g.value.IsFinite
  counters : ∀ c ∈ t.counters, MetricKey c.key ∧ c.value.IsFinite

/-- A counter as it is printed: its key and the text of its value. -/
def StatsdCounter.printed (c : StatsdCounter Num) : CString × CString := (c.key, printLf c.value)

/-- A gauge as it is printed: its key and the text of its value. -/
def StatsdGauge.printed (g : StatsdGauge Num) : CString × CString := (g.key, printLf g.value)

/-- Counters, gauges and timers are restored: the same keys in the same order, each value
equal to the original as printed with six decimals, and each count the number of values. -/
def RestoresMetrics (block : Nat) (t : Tables Num) : Prop :=
  ∃ text t', statsdSerialize block t = .ok text ∧
    statsdDeserialize .empty text = .ok (1, t') ∧
    t'.counters.map StatsdCounter.printed = t.counters.map StatsdCounter.printed ∧
    t'.gauges.map StatsdGauge.printed = t.gauges.map StatsdGauge.printed ∧
    t'.timers.map (fun s => (s.key, s.count, s.values.map printLf)) =
      t.timers.map (fun s => (s.key, s.values.length, s.values.map printLf))

/-- Tables of metrics in which no key is there twice, as hash tables are. -/
structure KeysUnique (t : Tables Num) : Prop where
  counters : (t.counters.map StatsdCounter.key).Nodup
  gauges : (t.gauges.map StatsdGauge.key).Nodup
  timers : (t.timers.map StatsdTimer.key).Nodup

/-- Tables whose keys fit their fields when they are read.  A stat's name is copied with
a NUL more than it needs. -/
structure KeysFit (t : Tables Num) : Prop where
  stats : ∀ s ∈ t.stats, '.' ∉ s.name.groupName ∧ KeyFits s.name.groupName ∧
    s.name.keyName.length + 2 ≤ keySize
  timers : ∀ s ∈ t.timers, KeyFits s.key
  gauges : ∀ g ∈ t.gauges, KeyFits g.key
  counters : ∀ c ∈ t.counters, KeyFits c.key

/-- Tables whose values are finite when they are written, that is as `double`s. -/
structure ValuesFinite (t : Tables Num) : Prop where
  timers : ∀ s ∈ t.timers, ∀ x ∈ s.values, x.IsFinite
  gauges : ∀ g ∈ t.gauges, g.value.toDouble.IsFinite
  counters : ∀ c ∈ t.counters, c.value.toDouble.IsFinite

/-- A number that prints the same as a `double`: the conversion does not overflow and keeps
the six decimals. -/
def Num.PrintsAsDouble (x : Num) : Prop := x.toDouble.IsFinite ∧ printLf x.toDouble = printLf x

/-- What the round trip needs of a state: the tables are hash tables, the key of a stat fits
the block it is printed into, the part of its name behind the group has at most 98 bytes, and
every counter and gauge prints the same as a `double`. -/
structure Restorable (block : Nat) (t : Tables Num) : Prop where
  unique : KeysUnique t
  statKeys : ∀ s ∈ t.stats, s.name.tmpkey.length < block
  statNames : ∀ s ∈ t.stats, s.name.keyName.length + 2 ≤ keySize
  gauges : ∀ g ∈ t.gauges, g.value.PrintsAsDouble
  counters : ∀ c ∈ t.counters, c.value.PrintsAsDouble

/-! ## Keys -/

theorem MetricKey.nul_notMem {key : CString} (h : MetricKey key) : nul ∉ key := by
  intro hmem
  have hnul := h.chars _ hmem
  rw [isKeyChar_nul] at hnul
  cases hnul

theorem MetricKey.period_notMem {key : CString} (h : MetricKey key) : '.' ∉ key := by
  intro hmem
  have hperiod := h.chars _ hmem
  cases hperiod

/-- A stat's key in the file fits if the two parts do. -/
theorem statKeyFits_tmpkey {name : StatsdStatName} (hgroup : '.' ∉ name.groupName) :
    StatKeyFits name.tmpkey ↔
      name.groupName.length ≤ keySize ∧ name.keyName.length + 2 ≤ keySize := by
  have hperiod : '.' ∈ name.tmpkey := by simp [StatsdStatName.tmpkey]
  have hidx : name.tmpkey.idxOf '.' = name.groupName.length := by
    rw [StatsdStatName.tmpkey, List.idxOf_append, if_neg hgroup, List.idxOf_cons_self, Nat.zero_add]
  have hlen : name.tmpkey.length = name.groupName.length + (name.keyName.length + 1) := by
    simp [StatsdStatName.tmpkey]
  rw [StatKeyFits, if_pos hperiod, hidx, hlen]
  omega

/-- A stat's name is found again in its key, if its group has no period. -/
theorem statNameOf_tmpkey {name : StatsdStatName} (hgroup : '.' ∉ name.groupName) :
    statNameOf name.tmpkey = name := by
  have hperiod : '.' ∈ name.tmpkey := by simp [StatsdStatName.tmpkey]
  have hidx : name.tmpkey.idxOf '.' = name.groupName.length := by
    rw [StatsdStatName.tmpkey, List.idxOf_append, if_neg hgroup, List.idxOf_cons_self, Nat.zero_add]
  rw [statNameOf, if_pos hperiod, hidx, StatsdStatName.tmpkey, List.take_left, ← List.drop_drop,
    List.drop_left]
  rfl

theorem SnapshotState.nulFree {t : Tables Num} (h : SnapshotState t) : NulFree t where
  stats s hs := by
    obtain ⟨hgroup, hkey⟩ := h.stats s hs
    have hperiod : nul ≠ '.' := by decide
    simp [StatsdStatName.tmpkey, hgroup.nul_notMem, hkey.nul_notMem, hperiod]
  timers s hs := (h.timers s hs).1.nul_notMem
  gauges g hg := (h.gauges g hg).1.nul_notMem
  counters c hc := (h.counters c hc).1.nul_notMem

/-! ## Sections of a table -/

section Table
variable {ε : Type} {key : ε → CString} {val : ε → Json} {table : List ε}

theorem nodup_rereadEntries :
    ((Json.rereadEntries (tableEntries key val table)).map Prod.fst).Nodup := by
  rw [Json.map_fst_rereadEntries]
  exact nodup_tableEntries

theorem rereadEntries_tableEntries (h : (table.map key).Nodup) :
    Json.rereadEntries (tableEntries key val table) =
      table.map fun s => (key s, (val s).reread) := by
  rw [tableEntries_of_nodup h, Json.rereadEntries, List.map_map]
  rfl

/-- Every entry is printed, if no key is there twice. -/
theorem mem_tableEntries_of_nodup (h : (table.map key).Nodup) {s : ε} (hs : s ∈ table) :
    (key s, val s) ∈ tableEntries key val table := by
  rw [tableEntries_of_nodup h]
  exact List.mem_map_of_mem hs

/-- What is read back has the key of an entry of the table. -/
theorem exists_key_of_mem_rereadEntries {e : CString × Json}
    (he : e ∈ Json.rereadEntries (tableEntries key val table)) :
    ∃ s ∈ table, key s = e.1 ∧ e.2 = (val s).reread := by
  obtain ⟨e', he', rfl⟩ := List.mem_map.mp he
  obtain ⟨s, hs, rfl⟩ := mem_tableEntries he'
  exact ⟨s, hs, rfl, rfl⟩

/-- The key of an entry of the table is read back, whatever its value. -/
theorem exists_mem_rereadEntries {s : ε} (hs : s ∈ table) :
    ∃ e ∈ Json.rereadEntries (tableEntries key val table), e.1 = key s := by
  have hmem : key s ∈ (Json.rereadEntries (tableEntries key val table)).map Prod.fst := by
    rw [Json.map_fst_rereadEntries, mem_map_fst_tableEntries]
    exact ⟨s, hs, rfl⟩
  exact List.mem_map.mp hmem

end Table

variable {t : Tables Num}

theorem readsBack_timer_iff {s : StatsdTimer Num} :
    (Json.array (s.values.map .double)).ReadsBack ↔ ∀ x ∈ s.values, x.IsFinite := by
  rw [Json.readsBack_array_iff, List.forall_mem_map]
  simp only [Json.readsBack_double_iff]

/-- All numbers of a snapshot are finite exactly if those of the tables are. -/
theorem readBack_printedSections_iff (h : KeysUnique t) :
    (printedSections t).ReadBack ↔ ValuesFinite t := by
  constructor
  · intro hback
    refine ⟨fun s hs => ?_, fun g hg => ?_, fun c hc => ?_⟩
    · exact readsBack_timer_iff.mp (hback.timers _ (mem_tableEntries_of_nodup h.timers hs))
    · exact Json.readsBack_double_iff.mp
        (hback.gauges _ (mem_tableEntries_of_nodup h.gauges hg))
    · exact Json.readsBack_double_iff.mp
        (hback.counters _ (mem_tableEntries_of_nodup h.counters hc))
  · intro hfinite
    refine ⟨fun e he => ?_, fun e he => ?_, fun e he => ?_, fun e he => ?_⟩
    · obtain ⟨s, -, rfl⟩ := mem_tableEntries he
      exact ⟨_, rfl⟩
    · obtain ⟨s, hs, rfl⟩ := mem_tableEntries he
      exact readsBack_timer_iff.mpr (hfinite.timers s hs)
    · obtain ⟨g, hg, rfl⟩ := mem_tableEntries he
      exact Json.readsBack_double_iff.mpr (hfinite.gauges g hg)
    · obtain ⟨c, hc, rfl⟩ := mem_tableEntries he
      exact Json.readsBack_double_iff.mpr (hfinite.counters c hc)

/-- A snapshot whose keys fit can be loaded without a fault. -/
theorem loadable_reread (hback : (printedSections t).ReadBack) (h : KeysFit t) :
    (printedSections t).reread.Loadable := by
  refine ⟨fun e he => ?_, fun e he => ?_, fun e he => ?_, fun e he => ?_⟩
  · obtain ⟨s, hs, hkey, -⟩ := exists_key_of_mem_rereadEntries he
    obtain ⟨hperiod, hgroup, hname⟩ := h.stats s hs
    rw [← hkey]
    exact (statKeyFits_tmpkey hperiod).mpr ⟨hgroup.le, hname⟩
  · obtain ⟨e', he', rfl⟩ := List.mem_map.mp he
    have hread := hback.timers e' he'
    obtain ⟨s, hs, rfl⟩ := mem_tableEntries he'
    exact ⟨h.timers s hs, _, Json.reread_array (Json.readsBack_array_iff.mp hread)⟩
  · obtain ⟨g, hg, hkey, -⟩ := exists_key_of_mem_rereadEntries he
    rw [← hkey]
    exact h.gauges g hg
  · obtain ⟨c, hc, hkey, -⟩ := exists_key_of_mem_rereadEntries he
    rw [← hkey]
    exact h.counters c hc

/-- What is read back are hash tables: no key is there twice. -/
theorem keysUnique_reread (t : Tables Num) : KeysUnique (printedSections t).reread.tables := by
  refine ⟨?_, ?_, ?_⟩
  · rw [Sections.tables, List.map_map]
    exact nodup_rereadEntries
  · rw [Sections.tables, List.map_map]
    exact nodup_rereadEntries
  · rw [Sections.tables, List.map_map]
    exact nodup_rereadEntries

/-! ## The round trip -/

/-- The counters that are read back: every one of them, as a `double` and to six decimals. -/
theorem counters_reread (hnd : (t.counters.map StatsdCounter.key).Nodup)
    (hfinite : ∀ c ∈ t.counters, c.value.toDouble.IsFinite) :
    (printedSections t).reread.tables.counters =
      t.counters.map (fun c => ⟨c.key, c.value.toDouble.toSix⟩) := by
  rw [Sections.tables, Sections.reread, printedSections, rereadEntries_tableEntries hnd,
    List.map_map]
  refine List.map_congr_left fun c hc => ?_
  simp only [Function.comp, counterOf, getDouble_reread (hfinite c hc)]

/-- The gauges that are read back: every one of them, as a `double` and to six decimals. -/
theorem gauges_reread (hnd : (t.gauges.map StatsdGauge.key).Nodup)
    (hfinite : ∀ g ∈ t.gauges, g.value.toDouble.IsFinite) :
    (printedSections t).reread.tables.gauges =
      t.gauges.map (fun g => ⟨g.key, g.value.toDouble.toSix⟩) := by
  rw [Sections.tables, Sections.reread, printedSections, rereadEntries_tableEntries hnd,
    List.map_map]
  refine List.map_congr_left fun g hg => ?_
  simp only [Function.comp, gaugeOf, getDouble_reread (hfinite g hg)]

/-- The timers that are read back: their samples to six decimals, and their count as the number of
these. -/
theorem timers_reread (hnd : (t.timers.map StatsdTimer.key).Nodup)
    (hfinite : ∀ s ∈ t.timers, ∀ x ∈ s.values, x.IsFinite) :
    (printedSections t).reread.tables.timers =
      t.timers.map (fun s => ⟨s.key, s.values.length, s.values.map Num.toSix⟩) := by
  rw [Sections.tables, Sections.reread, printedSections, rereadEntries_tableEntries hnd,
    List.map_map]
  refine List.map_congr_left fun s hs => ?_
  have hread : ∀ x ∈ s.values.map Json.double, x.ReadsBack := by
    intro x hx
    obtain ⟨d, hd, rfl⟩ := List.mem_map.mp hx
    exact Json.readsBack_double_iff.mpr (hfinite s hs d hd)
  simp only [Function.comp, timerOf, Json.reread_array hread, elementsOf, List.map_map,
    List.length_map]
  congr 1
  exact List.map_congr_left fun x hx => getDouble_reread (hfinite s hs x hx)

/-- A number that is read back prints as its original exactly if that prints the same as a
`double`. -/
theorem printLf_toSix_toDouble_iff {x : Num} (h : x.toDouble.IsFinite) :
    printLf x.toDouble.toSix = printLf x ↔ x.PrintsAsDouble := by
  rw [Num.printLf_toSix (Num.isDouble_toDouble h), Num.PrintsAsDouble]
  exact (and_iff_right h).symm

section Printed
variable (t)

/-- The counters that are read back print as their originals exactly if these print the same as
a `double`. -/
theorem counters_printed_iff (hfinite : ∀ c ∈ t.counters, c.value.toDouble.IsFinite) :
    (t.counters.map fun c => (⟨c.key, c.value.toDouble.toSix⟩ : StatsdCounter Num)).map
        StatsdCounter.printed = t.counters.map StatsdCounter.printed ↔
      ∀ c ∈ t.counters, c.value.PrintsAsDouble := by
  rw [List.map_map, List.map_inj_left]
  refine forall₂_congr fun c hc => ?_
  simp only [Function.comp, StatsdCounter.printed, Prod.mk.injEq, true_and]
  exact printLf_toSix_toDouble_iff (hfinite c hc)

/-- The gauges that are read back, likewise. -/
theorem gauges_printed_iff (hfinite : ∀ g ∈ t.gauges, g.value.toDouble.IsFinite) :
    (t.gauges.map fun g => (⟨g.key, g.value.toDouble.toSix⟩ : StatsdGauge Num)).map
        StatsdGauge.printed = t.gauges.map StatsdGauge.printed ↔
      ∀ g ∈ t.gauges, g.value.PrintsAsDouble := by
  rw [List.map_map, List.map_inj_left]
  refine forall₂_congr fun g hg => ?_
  simp only [Function.comp, StatsdGauge.printed, Prod.mk.injEq, true_and]
  exact printLf_toSix_toDouble_iff (hfinite g hg)

/-- The samples of a timer are doubles, and print as their originals. -/
theorem timers_printed (hdouble : ∀ s ∈ t.timers, ∀ x ∈ s.values, x.IsDouble) :
    (t.timers.map fun s =>
          (⟨s.key, s.values.length, s.values.map Num.toSix⟩ : StatsdTimer Num)).map
        (fun s => (s.key, s.count, s.values.map printLf)) =
      t.timers.map fun s => (s.key, s.values.length, s.values.map printLf) := by
  rw [List.map_map]
  refine List.map_congr_left fun s hs => ?_
  have hvalues : (s.values.map Num.toSix).map printLf = s.values.map printLf := by
    rw [List.map_map]
    exact List.map_congr_left fun x hx => Num.printLf_toSix (hdouble s hs x hx)
  simp only [Function.comp, hvalues]

end Printed

/-- No key is there twice in tables that print with the same keys as such tables. -/
theorem KeysUnique.of_printed {t t' : Tables Num} (h : KeysUnique t')
    (hcounters : t'.counters.map StatsdCounter.printed = t.counters.map StatsdCounter.printed)
    (hgauges : t'.gauges.map StatsdGauge.printed = t.gauges.map StatsdGauge.printed)
    (htimers : t'.timers.map (fun s => (s.key, s.count, s.values.map printLf)) =
      t.timers.map fun s => (s.key, s.values.length, s.values.map printLf)) : KeysUnique t := by
  refine ⟨?_, ?_, ?_⟩
  · have hkeys := congrArg (List.map Prod.fst) hcounters
    rw [List.map_map, List.map_map] at hkeys
    exact hkeys ▸ h.counters
  · have hkeys := congrArg (List.map Prod.fst) hgauges
    rw [List.map_map, List.map_map] at hkeys
    exact hkeys ▸ h.gauges
  · have hkeys := congrArg (List.map Prod.fst) htimers
    rw [List.map_map, List.map_map] at hkeys
    exact hkeys ▸ h.timers

/-- **The snapshot round trip.**  Counters, gauges and timers are restored, to six decimals,
exactly if the keys of the stats fit their block and their fields and every counter and gauge
prints the same as a `double`. -/
theorem restoresMetrics_iff {block : Nat} (h : SnapshotState t) :
    RestoresMetrics block t ↔ Restorable block t := by
  have hdouble : ∀ s ∈ t.timers, ∀ x ∈ s.values, x.IsDouble := fun s hs => (h.timers s hs).2
  have htimersFinite : ∀ s ∈ t.timers, ∀ x ∈ s.values, x.IsFinite :=
    fun s hs x hx => (hdouble s hs x hx).isFinite
  unfold RestoresMetrics
  simp only [statsdSerialize_eq_ok_iff]
  constructor
  · rintro ⟨text, t', ⟨hblock, rfl⟩, hload, hcounters, hgauges, htimers⟩
    obtain ⟨hback, hfits, -, rfl⟩ := (statsdDeserialize_serialize_iff h.nulFree).mp hload
    -- the keys that are read back are unique, so those that were written are
    have hunique : KeysUnique t := (keysUnique_reread t).of_printed hcounters hgauges htimers
    have hfinite := (readBack_printedSections_iff hunique).mp hback
    rw [counters_reread hunique.counters hfinite.counters,
      counters_printed_iff t hfinite.counters] at hcounters
    rw [gauges_reread hunique.gauges hfinite.gauges,
      gauges_printed_iff t hfinite.gauges] at hgauges
    refine ⟨hunique, hblock, fun s hs => ?_, hgauges, hcounters⟩
    have hmem : ∃ e ∈ (printedSections t).reread.stats, e.1 = s.name.tmpkey :=
      exists_mem_rereadEntries hs
    obtain ⟨e, he, hkey⟩ := hmem
    have hkeyFits := hfits.stats e he
    rw [hkey] at hkeyFits
    exact ((statKeyFits_tmpkey (h.stats s hs).1.period_notMem).mp hkeyFits).2
  · intro hr
    have hfit : KeysFit t :=
      ⟨fun s hs => ⟨(h.stats s hs).1.period_notMem, (h.stats s hs).1.fits, hr.statNames s hs⟩,
        fun s hs => (h.timers s hs).1.fits, fun g hg => (h.gauges g hg).1.fits,
        fun c hc => (h.counters c hc).1.fits⟩
    have hcounters := fun c hc => (hr.counters c hc).1
    have hgauges := fun g hg => (hr.gauges g hg).1
    have hback := (readBack_printedSections_iff hr.unique).mpr
      ⟨htimersFinite, hgauges, hcounters⟩
    refine ⟨_, _, ⟨hr.statKeys, rfl⟩, (statsdDeserialize_serialize_iff h.nulFree).mpr
      ⟨hback, loadable_reread hback hfit, rfl, rfl⟩, ?_, ?_, ?_⟩
    · rw [counters_reread hr.unique.counters hcounters]
      exact (counters_printed_iff t hcounters).mpr hr.counters
    · rw [gauges_reread hr.unique.gauges hgauges]
      exact (gauges_printed_iff t hgauges).mpr hr.gauges
    · rw [timers_reread hr.unique.timers htimersFinite]
      exact timers_printed t hdouble

/-- Tables with the one counter `a`, of a given value. -/
def oneCounter (value : Num) : Tables Num := ⟨[], [⟨['a'], value⟩], [], []⟩

theorem snapshotState_oneCounter (value : Num) (h : value.IsFinite) :
    SnapshotState (oneCounter value) := by
  refine ⟨by rintro s ⟨⟩, by rintro s ⟨⟩, by rintro g ⟨⟩, fun c hc => ?_⟩
  obtain rfl := List.mem_singleton.mp hc
  have hchars : ∀ c ∈ ['a'], isKeyChar c = true := by
    intro c hc
    rw [List.mem_singleton.mp hc]
    decide
  have hfits : KeyFits ['a'] := (by decide : 1 < keySize)
  exact ⟨⟨hchars, hfits⟩, h⟩

theorem keysUnique_oneCounter (value : Num) : KeysUnique (oneCounter value) :=
  ⟨List.nodup_singleton _, List.nodup_nil, List.nodup_nil⟩

/-- The theorem at a counter with the value 1, which is a `double`. -/
theorem restoresMetrics_oneCounter : RestoresMetrics 8 (oneCounter (.fin 1)) := by
  refine (restoresMetrics_iff (snapshotState_oneCounter (.fin 1) trivial)).mpr
    ⟨keysUnique_oneCounter _, by rintro s ⟨⟩, by rintro s ⟨⟩, by rintro g ⟨⟩, fun c hc => ?_⟩
  obtain rfl := List.mem_singleton.mp hc
  have hone : (Num.fin 1).toDouble = .fin 1 := by
    have hint := Num.ofRat_intCast (z := 1) (by norm_num)
    rwa [Int.cast_one] at hint
  rw [Num.PrintsAsDouble, hone]
  exact ⟨trivial, rfl⟩

/-- The least power of two that is no `double` is printed as `inf`. -/
theorem toDouble_two_pow_1024 : (Num.fin (2 ^ 1024)).toDouble = .inf false := by
  have hpos : (0 : Rat) < 2 ^ 1024 := by positivity
  rw [Num.toDouble, Num.ofRat_of_two_pow_le (le_abs_self _), decide_eq_false (not_lt.mpr hpos.le)]

/-- A counter with the value `2 ^ 1024`, a `long double` but no `double`: its snapshot
cannot be read. -/
theorem large_counter_not_restored :
    SnapshotState (oneCounter (.fin (2 ^ 1024))) ∧
      ¬ RestoresMetrics 8 (oneCounter (.fin (2 ^ 1024))) := by
  have hstate := snapshotState_oneCounter (.fin (2 ^ 1024)) trivial
  refine ⟨hstate, ?_⟩
  rintro ⟨text, t', hwrite, hok, -⟩
  obtain ⟨-, rfl⟩ := statsdSerialize_eq_ok_iff.mp hwrite
  have hback := ((statsdDeserialize_serialize_iff hstate.nulFree).mp hok).1
  have hfinite := (readBack_printedSections_iff (keysUnique_oneCounter _)).mp hback
  have hinf := hfinite.counters _ (List.mem_singleton.mpr rfl)
  rw [toDouble_two_pow_1024] at hinf
  exact hinf

end StatsdC
