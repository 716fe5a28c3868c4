import StatsdC.Daemon
import StatsdC.JsonWellFormed
import StatsdC.TimerSamples

/-!
# One restart after another

A restart keeps every value to six decimals, and what it has kept, the next one keeps as it is.  So
any number of restarts lose no more than one does, and all of them succeed if the first does
(`restarts_stable`).  What a restart makes of a number is `Num.toSix` of the number converted to a
`double`; it is a `double` itself and printed as before, so that doing the same again changes
nothing (`toSix_toSix`).

Sums beyond `2 ^ 53` are rounded by the first restart, like any number that a `double` does not
hold, and then stay.  The statement compares states as they are and not as they are printed.

A sample that is written must be in the range of a `double` to be read as it was.  Each one is, from
the start: it was read by `strtod`, or from a value that the tokener accepted
(`reachable_samplesInRange`).  This is an invariant of the daemon of its own, kept by every packet
of either front end and by every restart.

A restart here is an end of the process in which the snapshot is written completely, and a start in
which it is loaded; the times that are noted at a start are given to each of them.  The stats are
those that every start sets anew.  A process that is killed is in `StatsdC.TornSnapshot`.
-/

namespace StatsdC
open CString OrderedTable Fallible

/-! ## The numbers that are read -/

/-- An integer of at most 53 bits is a `double`. -/
theorem Num.inRange_intCast {i : Int} (h : |i| ≤ 2 ^ 53) : (Num.fin i).InRange := by
  intro _
  rw [← Num.ofRat_intCast h]
  exact Num.isDouble_ofRat (by rw [Num.ofRat_intCast h]; trivial)

theorem Num.inRange_zero : (0 : Num).InRange := by
  have hzero := Num.inRange_intCast (i := 0) (by norm_num)
  rwa [Int.cast_zero] at hzero

theorem inRange_strtod (s : CString) : (strtod s).InRange := by
  unfold strtod
  cases scanLf s with
  | none => exact Num.inRange_zero
  | some r => exact r.2.inRange_toNum r.1

/-- An `int` is a `double`, since it has fewer than 53 bits. -/
theorem Num.inRange_int {i : Int} (hlo : -2 ^ 31 ≤ i) (hhi : i < 2 ^ 31) :
    (Num.fin i).InRange := by
  have habs : |i| ≤ 2 ^ 31 := abs_le.mpr ⟨hlo, hhi.le⟩
  exact Num.inRange_intCast (habs.trans (by norm_num))

namespace Json

/-- A well-formed value is read as a `double`, whichever type it has. -/
theorem WellFormed.inRange_getDouble {v : Json} {levels : Nat} (h : v.WellFormed levels) :
    v.getDouble.InRange := by
  cases v with
  | null | object | array => exact Num.inRange_zero
  | double d => exact h
  | int i => exact Num.inRange_int h.1 h.2
  | boolean b =>
    cases b with
    | false => exact Num.inRange_zero
    | true =>
      have hone := Num.inRange_int (i := 1) (by decide) (by decide)
      rwa [Int.cast_one] at hone
  | string s =>
    rw [Json.getDouble]
    cases h : sscanfLf s with
    | none => exact Num.inRange_zero
    | some x => exact inRange_of_sscanfLf h

/-- A value in a well-formed one is well formed. -/
theorem WellFormed.objectGet {jso v : Json} {key : CString} {levels : Nat}
    (h : jso.WellFormed levels) (hget : jso.objectGet key = .ok v) : v.WellFormed (levels - 1) := by
  cases jso with
  | object entries =>
    obtain rfl := Except.ok.inj hget
    cases hfind : lookup Prod.fst entries key with
    | none => trivial
    | some e =>
      exact (entriesWellFormed_iff.mp h.2.2 e (List.mem_of_find?_eq_some hfind)).2
  | null | boolean | double | int | array | string => cases hget

theorem WellFormed.arrayGetIdx {jso v : Json} {i : Nat} {levels : Nat}
    (h : jso.WellFormed levels) (hget : jso.arrayGetIdx i = .ok v) : v.WellFormed (levels - 1) := by
  cases jso with
  | array elements =>
    obtain rfl := Except.ok.inj hget
    rw [List.getD_eq_getElem?_getD]
    cases hget : elements[i]? with
    | none => trivial
    | some x => exact elementsWellFormed_iff.mp h.2 x (List.mem_of_getElem? hget)
  | null | boolean | double | int | object | string => cases hget

end Json

/-! ## The samples that are sent -/

/-- A call whose sample, if it has one, is in range: if it is finite, it is a `double`. -/
def MetricCall.SampleInRange : MetricCall Num → Prop
  | .updateTimer _ value => value.InRange
  | _ => True

/-- The samples of a plain packet are in range, because `strtod` rounds them. -/
theorem inRange_of_decodePacket {text : CString} {calls : List (TracedCall Num)}
    (h : decodePacket strtod text = .ok calls) : ∀ c ∈ calls, c.call.SampleInRange := by
  refine forall_of_decodePacket h trivial (fun _ => trivial) fun hdispatch => ?_
  obtain ⟨⟨text, rfl⟩, hcall | ⟨plusminus, -, hcall⟩ | ⟨sampleRate, hcall⟩⟩ :=
    dispatch_cases hdispatch
  · rw [hcall]
    exact inRange_strtod _
  · rw [hcall]
    trivial
  · rw [hcall]
    trivial

/-- The samples of a JSON packet are in range, because the tokener's `sscanf` rounds them. -/
theorem inRange_of_processJsonStatsPacket {bufIn : Buffer} {calls : List (MetricCall Num)}
    (h : processJsonStatsPacket bufIn = .ok calls) : ∀ c ∈ calls, c.SampleInRange := by
  refine forall_of_processJsonStatsPacket h fun {obj sobj first} hparse hsobj hobject => ?_
  have hobj := wellFormed_of_parse hparse
  -- an element is nested less deeply than its array, and either is well formed
  obtain ⟨levels, hwell⟩ : ∃ levels, sobj.WellFormed levels := by
    obtain rfl | ⟨i, hget⟩ := hsobj
    · exact ⟨_, hobj⟩
    · exact ⟨_, hobj.arrayGetIdx hget⟩
  exact forall_of_processJsonStatsObject hobject
    (fun hvalue => (hwell.objectGet hvalue).inRange_getDouble) trivial

theorem apply_restart_eq_ok {firstByte : Num → Int} {t t' : Tables Num} {now : Int}
    (h : DaemonState t) :
    (DaemonEvent.restart true now).apply firstByte t = .ok t' ↔
      ∃ r t₁, statsdDeserialize .empty (snapshotText t) = .ok (r, t₁) ∧
        initStats t₁ now = .ok t' := by
  simp only [DaemonEvent.apply, if_true, bind_eq_ok, mapError_eq_ok, h.statsdSerialize_eq]
  constructor
  · rintro ⟨_, ⟨rfl⟩, r, hread, t₁, hok, hinit⟩
    obtain rfl := pure_eq_ok.mp hok
    exact ⟨r.1, r.2, hread, hinit⟩
  · rintro ⟨r, t₁, hread, hinit⟩
    exact ⟨_, rfl, (r, t₁), hread, t₁, rfl, hinit⟩

/-! ## The samples in the table -/

/-- Every sample is in range: what the array of `double`s in the source holds by its type. -/
def SamplesInRange (t : Tables Num) : Prop := ∀ s ∈ t.timers, ∀ x ∈ s.values, x.InRange

theorem takesSample_inRange {value : Num} (h : value.InRange) :
    TakesSample (fun s => ∀ x ∈ s.values, x.InRange) value where
  change _ hs := List.forall_mem_append.mpr ⟨hs, List.forall_mem_singleton.mpr h⟩
  fresh _ := List.forall_mem_singleton.mpr h

namespace SamplesInRange
variable {t t' : Tables Num}

theorem applyMetricCalls (h : SamplesInRange t) {calls : List (MetricCall Num)}
    (hsamples : ∀ call ∈ calls, call.SampleInRange)
    (hok : StatsdC.applyMetricCalls t calls = .ok t') : SamplesInRange t' :=
  TimersAll.applyMetricCalls h (fun _ _ hmem => takesSample_inRange (hsamples _ hmem)) hok

/-- What is read from a file is in range, whatever the file, because it goes through the same
tokener. -/
theorem deserialize {file : List Char} {r : Nat}
    (hok : statsdDeserialize .empty file = .ok (r, t')) : SamplesInRange t' := by
  rw [statsdDeserialize_eq_ok_iff] at hok
  split at hok
  · rw [hok.2]
    exact TimersAll.empty
  · obtain ⟨sections, ⟨obj, hparse, -, htimers, -, -⟩, hload, -, rfl⟩ := hok
    have hsection := (wellFormed_of_parse hparse).objectGet htimers
    intro s hs x hx
    obtain ⟨e, he, rfl⟩ := List.mem_map.mp hs
    obtain ⟨v, hv, rfl⟩ := List.mem_map.mp hx
    obtain ⟨-, elements, heq⟩ := hload.timers e he
    have hvalue := (Json.entriesWellFormed_iff.mp hsection.2.2 e he).2
    rw [heq] at hvalue hv
    exact (Json.elementsWellFormed_iff.mp hvalue.2 v hv).inRange_getDouble

/-- One event keeps the samples in range: a packet adds such samples, and a pass only removes some.
-/
theorem step {firstByte : Num → Int} {e : DaemonEvent} (h : SamplesInRange t)
    (hstep : e.apply firstByte t = .ok t') : SamplesInRange t' := by
  cases e with
  | packet p now =>
    have hbuf := queueBuffer_stringAt p.nul_notMem p.length_le
    simp only [DaemonEvent.apply] at hstep
    split at hstep
    · simp only [handleJson, bind_eq_ok, mapError_eq_ok] at hstep
      obtain ⟨calls, hcalls, t₁, happly, hseen⟩ := hstep
      have h₁ := h.applyMetricCalls (inRange_of_processJsonStatsPacket hcalls) happly
      split at hseen
      · exact TimersAll.updateStat h₁ (mapError_eq_ok.mp hseen)
      · obtain rfl := pure_eq_ok.mp hseen
        exact h₁
    · simp only [handlePlain, bind_eq_ok, mapError_eq_ok] at hstep
      obtain ⟨calls, hcalls, t₁, happly, hseen⟩ := hstep
      rw [processStatsPacket_eq strtod hbuf] at hcalls
      have hsamples : ∀ call ∈ calls.map TracedCall.call, call.SampleInRange := by
        intro call hcall
        obtain ⟨traced, htraced, rfl⟩ := List.mem_map.mp hcall
        exact inRange_of_decodePacket hcalls traced htraced
      exact TimersAll.updateStat (h.applyMetricCalls hsamples happly) hseen
  | flush cfg env =>
    simp only [DaemonEvent.apply, bind_eq_ok, mapError_eq_ok] at hstep
    obtain ⟨r, hpass, hok⟩ := hstep
    obtain rfl := pure_eq_ok.mp hok
    exact TimersAll.flushPass (fun _ _ _ hx => absurd hx List.not_mem_nil) h hpass
  | restart load now =>
    cases load with
    | false =>
      have hinit : StatsdC.initStats .empty now = .ok t' := (mapError_eq_ok (h := .table)).mp hstep
      exact TimersAll.empty.initStats hinit
    | true =>
      simp only [DaemonEvent.apply, if_true, bind_eq_ok, mapError_eq_ok] at hstep
      obtain ⟨_, -, r, hread, t₁, hok, hinit⟩ := hstep
      obtain rfl := pure_eq_ok.mp hok
      exact TimersAll.initStats (deserialize hread) hinit

end SamplesInRange

/-- **The samples are in range**, in every state of every run. -/
theorem reachable_samplesInRange {firstByte : Num → Int} {t : Tables Num}
    (h : (daemon firstByte).Reachable t) : SamplesInRange t := by
  refine h.invariant (I := SamplesInRange) (fun t hinit => ?_) fun _ _ _ ht hstep => ht.step hstep
  obtain ⟨now, hok⟩ := hinit
  exact TimersAll.empty.initStats hok

/-! ## One restart -/

variable {firstByte : Num → Int} {t t' : Tables Num} {now : Int}

theorem updateStat_eq {group key value : CString} (hgroup : KeyFits group) (hkey : KeyFits key) :
    ∃ stats, updateStat t group key value = .ok { t with stats } := by
  have hname : strcpyKey group = .ok group ∧ strcpyKey key = .ok key :=
    ⟨strcpyKey_eq_ok_iff.mpr ⟨hgroup, rfl⟩, strcpyKey_eq_ok_iff.mpr ⟨hkey, rfl⟩⟩
  simp only [updateStat, hname, bind, Except.bind]
  split
  · exact ⟨_, rfl⟩
  · exact ⟨_, rfl⟩

/-- `init_stats` touches the stats only, and does not fail, since its names are short. -/
theorem initStats_eq (t : Tables Num) (now : Int) :
    ∃ stats, initStats t now = .ok { t with stats } := by
  have hfits : ∀ key ∈ ["graphite", "last_flush", "messages", "last_msg_seen", "bad_lines_seen"],
      KeyFits key.toList := by
    unfold KeyFits
    decide
  obtain ⟨stats₁, h₁⟩ := @updateStat_eq t "graphite".toList "last_flush".toList (printD now)
    (hfits _ (by decide)) (hfits _ (by decide))
  obtain ⟨stats₂, h₂⟩ := @updateStat_eq { t with stats := stats₁ } "messages".toList
    "last_msg_seen".toList (printD now) (hfits _ (by decide)) (hfits _ (by decide))
  obtain ⟨stats₃, h₃⟩ := @updateStat_eq { t with stats := stats₂ } "messages".toList
    "bad_lines_seen".toList "0".toList (hfits _ (by decide)) (hfits _ (by decide))
  refine ⟨stats₃, ?_⟩
  rw [initStats, h₁]
  simp only [bind, Except.bind, h₂, h₃]

/-- **One restart** of a state with the invariant: it succeeds exactly if every value is
finite. -/
theorem apply_restart_iff (h : DaemonState t) :
    (DaemonEvent.restart true now).apply firstByte t = .ok t' ↔
      ValuesFinite t ∧ initStats (printedSections t).reread.tables now = .ok t' := by
  have hread := readBack_printedSections_iff h.keysUnique
  rw [apply_restart_eq_ok h]
  simp only [statsdDeserialize_serialize_iff h.nulFree]
  constructor
  · rintro ⟨r, t₁, ⟨hback, -, -, rfl⟩, hinit⟩
    exact ⟨hread.mp hback, hinit⟩
  · rintro ⟨hfinite, hinit⟩
    have hback := hread.mpr hfinite
    exact ⟨1, _, ⟨hback, loadable_reread hback h.keysFit, rfl, rfl⟩, hinit⟩

/-- What it keeps: every value to six decimals. -/
theorem metrics_of_restart (hstate : DaemonState t)
    (hok : (DaemonEvent.restart true now).apply firstByte t = .ok t') :
    t'.counters = t.counters.map (fun c => ⟨c.key, c.value.toDouble.toSix⟩) ∧
      t'.gauges = t.gauges.map (fun g => ⟨g.key, g.value.toDouble.toSix⟩) ∧
        t'.timers = t.timers.map (fun s => ⟨s.key, s.values.length, s.values.map Num.toSix⟩) := by
  obtain ⟨hfinite, hinit⟩ := (apply_restart_iff hstate).mp hok
  obtain ⟨stats, heq⟩ := initStats_eq (printedSections t).reread.tables now
  obtain rfl := Except.ok.inj (heq.symm.trans hinit)
  exact ⟨counters_reread hstate.counters.nodup hfinite.counters,
    gauges_reread hstate.gauges.nodup hfinite.gauges,
    timers_reread hstate.timers.nodup hfinite.timers⟩

/-! ## Further restarts -/

/-- One restart after another, at the times `nows`, each with the snapshot that the last one has
written. -/
def restartAll (firstByte : Num → Int) (t : Tables Num) (nows : List Int) :
    Except DaemonFault (Tables Num) :=
  nows.foldlM (fun t now => (DaemonEvent.restart true now).apply firstByte t) t

namespace Num

/-- A `double` that is read back as it is. -/
structure Settled (x : Num) : Prop where
  isDouble : x.IsDouble
  toSix_eq : x.toSix = x

theorem IsDouble.settled {x : Num} (h : x.IsDouble) : x.toSix.Settled :=
  ⟨isDouble_toSix h, toSix_toSix h⟩

theorem Settled.toDouble_eq {x : Num} (h : x.Settled) : x.toDouble = x :=
  toDouble_of_isDouble h.isDouble

end Num

/-- Tables with such values. -/
structure Settled (t : Tables Num) : Prop where
  counters : ∀ c ∈ t.counters, c.value.Settled
  gauges : ∀ g ∈ t.gauges, g.value.Settled
  timers : ∀ s ∈ t.timers, s.count = s.values.length ∧ ∀ x ∈ s.values, x.Settled

/-- A restart leaves such tables: what it loads is a text of six decimals, read as a `double`. -/
theorem settled_of_restart (hstate : DaemonState t) (hrange : SamplesInRange t)
    (hok : (DaemonEvent.restart true now).apply firstByte t = .ok t') : Settled t' := by
  have hfinite := ((apply_restart_iff hstate).mp hok).1
  obtain ⟨hcounters, hgauges, htimers⟩ := metrics_of_restart hstate hok
  refine ⟨fun c hc => ?_, fun g hg => ?_, fun s hs => ?_⟩
  · rw [hcounters] at hc
    obtain ⟨c, hmem, rfl⟩ := List.mem_map.mp hc
    exact (Num.isDouble_toDouble (hfinite.counters c hmem)).settled
  · rw [hgauges] at hg
    obtain ⟨g, hmem, rfl⟩ := List.mem_map.mp hg
    exact (Num.isDouble_toDouble (hfinite.gauges g hmem)).settled
  · rw [htimers] at hs
    obtain ⟨s, hmem, rfl⟩ := List.mem_map.mp hs
    refine ⟨List.length_map _ |>.symm, fun x hx => ?_⟩
    obtain ⟨y, hy, rfl⟩ := List.mem_map.mp hx
    exact (hrange s hmem y hy (hfinite.timers s hmem y hy)).settled

namespace Settled

theorem valuesFinite (h : Settled t) : ValuesFinite t := by
  have hfinite : ∀ {x : Num}, x.Settled → x.IsFinite := fun hx => hx.isDouble.isFinite
  refine ⟨fun s hs x hx => hfinite ((h.timers s hs).2 x hx), fun g hg => ?_, fun c hc => ?_⟩
  · rw [(h.gauges g hg).toDouble_eq]
    exact hfinite (h.gauges g hg)
  · rw [(h.counters c hc).toDouble_eq]
    exact hfinite (h.counters c hc)

/-- **The next restart** of such tables succeeds and changes no metric. -/
theorem restart (h : Settled t) (hstate : DaemonState t) (firstByte : Num → Int) (now : Int) :
    ∃ t', (DaemonEvent.restart true now).apply firstByte t = .ok t' ∧
      t'.counters = t.counters ∧ t'.gauges = t.gauges ∧ t'.timers = t.timers := by
  obtain ⟨stats, hinit⟩ := initStats_eq (printedSections t).reread.tables now
  have hok := (@apply_restart_iff firstByte _ _ now hstate).mpr ⟨h.valuesFinite, hinit⟩
  obtain ⟨hcounters, hgauges, htimers⟩ := metrics_of_restart hstate hok
  have hkept : ∀ {x : Num}, x.Settled → x.toDouble.toSix = x := fun hx => by
    rw [hx.toDouble_eq, hx.toSix_eq]
  refine ⟨_, hok, hcounters.trans ?_, hgauges.trans ?_, htimers.trans ?_⟩
  · refine (List.map_congr_left fun c hc => ?_).trans (List.map_id _)
    rw [hkept (h.counters c hc)]
    rfl
  · refine (List.map_congr_left fun g hg => ?_).trans (List.map_id _)
    rw [hkept (h.gauges g hg)]
    rfl
  · refine (List.map_congr_left fun s hs => ?_).trans (List.map_id _)
    obtain ⟨hcount, hvalues⟩ := h.timers s hs
    have hsame : s.values.map Num.toSix = s.values :=
      (List.map_congr_left fun x hx => (hvalues x hx).toSix_eq).trans (List.map_id _)
    rw [hsame, ← hcount]
    rfl

/-- Any number of further restarts succeed and change no metric, by induction on their number. -/
theorem restarts (h : Settled t) (hstate : DaemonState t) (firstByte : Num → Int)
    (nows : List Int) :
    ∃ t', restartAll firstByte t nows = .ok t' ∧
      t'.counters = t.counters ∧ t'.gauges = t.gauges ∧ t'.timers = t.timers := by
  induction nows generalizing t with
  | nil => exact ⟨t, rfl, rfl, rfl, rfl⟩
  | cons now nows ih =>
    obtain ⟨t₁, hok, hcounters, hgauges, htimers⟩ := h.restart hstate firstByte now
    have h₁ : Settled t₁ := ⟨hcounters ▸ h.counters, hgauges ▸ h.gauges, htimers ▸ h.timers⟩
    obtain ⟨t', hrest, heq⟩ := ih h₁ (daemonState_step hstate hok)
    rw [hcounters, hgauges, htimers] at heq
    refine ⟨t', ?_, heq⟩
    rw [restartAll, List.foldlM_cons, hok]
    exact hrest

end Settled

/-- **Restarts lose no more than one restart.**  From a reachable state, the process can be
restarted once or any number of times exactly if every value is finite as a `double`, and every
metric is then what it was as a `double`, to six decimals. -/
theorem restarts_stable (h : (daemon firstByte).Reachable t) (now : Int) (nows : List Int) :
    (∃ t', restartAll firstByte t (now :: nows) = .ok t' ∧
      t'.counters = t.counters.map (fun c => ⟨c.key, c.value.toDouble.toSix⟩) ∧
      t'.gauges = t.gauges.map (fun g => ⟨g.key, g.value.toDouble.toSix⟩) ∧
      t'.timers = t.timers.map (fun s => ⟨s.key, s.values.length, s.values.map Num.toSix⟩)) ↔
        ValuesFinite t := by
  have hstate := reachable_daemonState h
  have hrange := reachable_samplesInRange h
  constructor
  · rintro ⟨t', hok, -⟩
    rw [restartAll, List.foldlM_cons, bind_eq_ok] at hok
    obtain ⟨t₁, hfirst, -⟩ := hok
    exact ((apply_restart_iff hstate).mp hfirst).1
  · intro hfinite
    obtain ⟨stats, hinit⟩ := initStats_eq (printedSections t).reread.tables now
    have hfirst := (@apply_restart_iff firstByte _ _ now hstate).mpr ⟨hfinite, hinit⟩
    obtain ⟨hcounters, hgauges, htimers⟩ := metrics_of_restart hstate hfirst
    have hsettled := settled_of_restart hstate hrange hfirst
    obtain ⟨t', hrest, hcounters', hgauges', htimers'⟩ :=
      hsettled.restarts (daemonState_step hstate hfirst) firstByte nows
    refine ⟨t', ?_, hcounters'.trans hcounters, hgauges'.trans hgauges, htimers'.trans htimers⟩
    rw [restartAll, List.foldlM_cons, hfirst]
    exact hrest

/-- Three restarts of a process that has received one sample of the counter `k`. -/
theorem restarts_stable_thrice :
    ∃ t', restartAll (fun _ => 0) sevenTables [5, 6, 7] = .ok t' ∧
      t'.counters = [⟨['k'], (Num.fin 7).toDouble.toSix⟩] ∧ t'.gauges = [] ∧ t'.timers = [] := by
  have hfinite : ValuesFinite sevenTables := by
    refine ⟨by rintro s ⟨⟩, by rintro g ⟨⟩, fun c hc => ?_⟩
    obtain rfl := List.mem_singleton.mp hc
    exact isFinite_toDouble_seven
  exact (restarts_stable (reachable_sevenTables fun _ => 0) 5 [6, 7]).mpr hfinite

end StatsdC
