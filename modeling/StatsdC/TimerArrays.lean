import StatsdC.TimerSamples
import StatsdC.UtArray

/-!
# The timers over `utarray.h`

The samples of a timer are in a dynamic array.  The functions that use it are written once more as
the code has them: a sample is pushed, a pass sorts the array, walks over it twice, reads one
element by its index and clears it, and the snapshot is written by one walk and read back by as
many pushes as there are samples.  A read outside the array is a fault (`ArrayFault`), and so is a
count that is no `int` any more: the update that would be the `2 ^ 31`st of a timer between two
passes has no successor.

`ArrayTables.Stands` relates the tables with arrays to those with lists, and `Fallible.Follows`
compares the functions: the one over arrays does what the one over lists does, unless a timer has
too many samples, and any failure it has of its own is tame, that is, no access outside an array.
There is one lemma for each function, put together by the rule for a sequence of steps.

As long as every timer has fewer than `2 ^ 31` samples, the daemon does the same over arrays and
over lists, event by event, and each pass reports the same (`arrayDaemon_refines`).  The sizes that
the arrays ask for on the way are computed in 32 bits, as in the program, and `StatsdC.UtArray` has
the reason that they do not overflow below that bound.
-/

namespace StatsdC
open CString OrderedTable Fallible GrowableBlock

/-- An event that the process does not survive: as over lists, or by the array, or by the count. -/
inductive ArrayFault where
  | daemon (fault : DaemonFault)
  | utarray (fault : UtArrayFault)
  /-- The `int` that counts the samples of a timer passes its range. -/
  | countOverflow
  deriving DecidableEq

/-- `statsd_timer_t`, with its samples in an array and their number beside it. -/
structure ArrayTimer where
  key : CString
  count : Nat
  values : UtArray Num

/-- The tables, with the samples in arrays.  The other three tables are the lists of
`StatsdC.Tables`. -/
structure ArrayTables where
  stats : List StatsdStat
  counters : List (StatsdCounter Num)
  gauges : List (StatsdGauge Num)
  timers : List ArrayTimer

/-- A fault of the functions on tables, which the daemon has as well. -/
def ArrayFault.ofTable (e : TableFault) : ArrayFault := .daemon (.table e)

/-- A write through a pointer to an entry, which may fail, and then the table is as it was. -/
def modifyAt (f : ArrayTimer → Except ArrayFault ArrayTimer) :
    List ArrayTimer → Nat → Except ArrayFault (List ArrayTimer)
  | [], _ => .ok []
  | s :: timers, 0 => do
    let s ← f s
    return s :: timers
  | s :: timers, i + 1 => do
    let timers ← modifyAt f timers i
    return s :: timers

/-- `utarray_push_back(t->values, &value); t->count++`.  The count is an `int`, and its overflow a
fault. -/
def pushSample (fuel : Nat) (value : Num) (s : ArrayTimer) : Except ArrayFault ArrayTimer := do
  let values ← (s.values.pushBack fuel value).mapError .utarray
  if s.count + 1 < 2 ^ 31 then return { s with values, count := s.count + 1 }
  else .error .countOverflow

/-- One round of the loop that takes the least and the greatest value, with the number of the rounds
before.  In the first round both are the value. -/
def minMaxRound (s : Nat × Num × Num) (i : Num) : Nat × Num × Num :=
  let (count, min, max) := s
  if count = 0 then (1, i, i)
  else (count + 1, if i < min then i else min, if max < i then i else max)

/-- The summary of the sorted values, of two loops and a read in between.  The second loop stops one
before the count. -/
def summarizeArray (firstByte : Num → Int) (pctThreshold : Int) (count : Nat)
    (values : UtArray Num) : Except ArrayFault (TimerSummary Num) := do
  let (_, min, max) ← (values.loop (fun _ => true) minMaxRound (0, 0, 0)).mapError .utarray
  if 1 < count then
    let j := thresholdIndex pctThreshold count - 1
    -- a negative index is larger than any length, as an unsigned one
    if 0 ≤ j ∧ j < values.i then
      let x ← (values.read j.toNat).mapError .utarray
      let (sum, _) ← (values.loop (fun s => s.2 < count - 1) (fun s i => (s.1 + i, s.2 + 1))
        ((0 : Num), 0)).mapError .utarray
      return ⟨sum / (count : Num), max, (firstByte x : Num), min⟩
    else
      .error (.daemon (.flush .nullElement))
  else
    return ⟨min, max, max, min⟩

/-- The body of the loop over the timers, in a pass: sorted in place, summed up, cleared, and
reported with the count as it is then. -/
def flushArrayTimer (firstByte : Num → Int) (cfg : FlushConfig) (ts : Int) (t : ArrayTimer) :
    Except ArrayFault (ArrayTimer × Report Num) :=
  if 0 < t.count then do
    let values ← (t.values.sort utarraySort).mapError .utarray
    let s ← summarizeArray firstByte cfg.percentile t.count values
    let t := { t with values := values.clear, count := 0 }
    return (t, reportTimer cfg ts t.key s t.count)
  else
    .ok (t, .empty)

/-- The loop over the timers, in the order of the table and up to the first fault. -/
def flushArrayTimers (firstByte : Num → Int) (cfg : FlushConfig) (ts : Int) :
    List ArrayTimer → Except ArrayFault (List ArrayTimer × Report Num)
  | [] => .ok ([], .empty)
  | t :: timers => do
    let (t, report) ← flushArrayTimer firstByte cfg ts t
    let (timers, reports) ← flushArrayTimers firstByte cfg ts timers
    return (t :: timers, report.append reports)

/-- The array that is written to a snapshot, as one walk gathers it. -/
def ArrayTimer.samples (s : ArrayTimer) : Except ArrayFault (StatsdTimer Num) := do
  let values ← s.values.elements.mapError .utarray
  return ⟨s.key, s.count, values⟩

/-- The array that is read from one, pushed element by element, and the count that was taken from
its length. -/
def pushSamples (fuel : Nat) (s : StatsdTimer Num) : Except ArrayFault ArrayTimer := do
  let values ← (s.values.foldlM (UtArray.pushBack fuel) .new).mapError .utarray
  if s.count < 2 ^ 31 then return ⟨s.key, s.count, values⟩ else .error .countOverflow

namespace ArrayTables

/-- The tables with these timers in the place of the arrays. -/
def withTimers (a : ArrayTables) (timers : List (StatsdTimer Num)) : Tables Num :=
  ⟨a.stats, a.counters, a.gauges, timers⟩

/-- A function that leaves the timers alone, on the tables without them. -/
def onOthers (a : ArrayTables) (f : Tables Num → Except TableFault (Tables Num)) :
    Except ArrayFault ArrayTables := do
  let t ← (f (a.withTimers [])).mapError .ofTable
  return ⟨t.stats, t.counters, t.gauges, a.timers⟩

/-- `update_timer`: the sample is pushed to the array of its entry, or to a new one. -/
def updateTimer (fuel : Nat) (a : ArrayTables) (key : CString) (value : Num) :
    Except ArrayFault ArrayTables := do
  match find ArrayTimer.key a.timers key with
  | some s =>
    let timers ← modifyAt (pushSample fuel value) a.timers s
    return { a with timers }
  | none =>
    let key ← (strcpyKey key).mapError .ofTable
    let s ← pushSample fuel value ⟨key, 0, .new⟩
    return { a with timers := a.timers ++ [s] }

/-- The effect of a call, which for a timer goes through its array and for the rest through the
lists. -/
def metricCall (fuel : Nat) (a : ArrayTables) (call : MetricCall Num) :
    Except ArrayFault ArrayTables :=
  match call with
  | .updateTimer (some key) value => a.updateTimer fuel key value
  | call => a.onOthers fun t => call.apply t

/-- `UPDATE_LAST_MSG_SEEN` at time `now`, which leaves the timers alone. -/
def updateLastMsgSeen (a : ArrayTables) (now : Int) : Except ArrayFault ArrayTables :=
  a.onOthers fun t => StatsdC.updateLastMsgSeen t now

/-- `process_stats_packet`: the calls of the packet one after another, and then the time it was
seen. -/
def handlePlain (fuel : Nat) (a : ArrayTables) (bufIn : Buffer) (now : Int) :
    Except ArrayFault ArrayTables := do
  let calls ← (processStatsPacket strtod bufIn).mapError fun e => .daemon (.packet e)
  let a ← (calls.map TracedCall.call).foldlM (metricCall fuel) a
  a.updateLastMsgSeen now

/-- `process_json_stats_packet`: the calls of the packet one after another. -/
def handleJson (fuel : Nat) (a : ArrayTables) (bufIn : Buffer) (now : Int) :
    Except ArrayFault ArrayTables := do
  let calls ← (processJsonStatsPacket bufIn).mapError fun e => .daemon (.json e)
  let a ← calls.foldlM (metricCall fuel) a
  if (cstr bufIn 0).length < 2 then
    a.updateLastMsgSeen now
  else
    return a

/-- `p_thread_flush`, from one sleep to the next, with the timers summed up in their arrays. -/
def flushPass (firstByte : Num → Int) (cfg : FlushConfig) (env : FlushEnv) (a : ArrayTables) :
    Except ArrayFault (ArrayTables × Report Num) := do
  let counters := a.counters.map (flushCounter cfg env.ts)
  let (timers, timersReport) ← flushArrayTimers firstByte cfg env.ts a.timers
  let numStats := a.counters.length + a.timers.length + a.gauges.length
  let report := (Report.concat (counters.map Prod.snd)).append <| timersReport.append <|
    (Report.concat (a.gauges.map (flushGauge cfg env.ts))).append <|
    reportTotals cfg env.ts numStats
  let a := { a with counters := counters.map Prod.fst, timers }
  if cfg.enableGraphite && env.socket then
    let a ← a.onOthers fun t =>
      updateStat t "graphite".toList "last_flush".toList (printD env.now)
    return (a, report)
  else
    return (a, report)

/-- `statsd_serialize`, which walks over the samples of each array. -/
def serialize (block : Nat) (a : ArrayTables) : Except ArrayFault CString := do
  let timers ← a.timers.mapM ArrayTimer.samples
  (statsdSerialize block (a.withTimers timers)).mapError fun e => .daemon (.snapshot e)

/-- `statsd_deserialize`, into empty tables: the samples are pushed in the order of the file. -/
def deserialize (fuel : Nat) (file : List Char) : Except ArrayFault ArrayTables := do
  let (_, t) ← (statsdDeserialize .empty file).mapError fun e => .daemon (.snapshot e)
  let timers ← t.timers.mapM (pushSamples fuel)
  return ⟨t.stats, t.counters, t.gauges, timers⟩

/-- `init_stats` at time `now`, once the snapshot is loaded; the timers are left alone. -/
def initStats (a : ArrayTables) (now : Int) : Except ArrayFault ArrayTables :=
  a.onOthers fun t => StatsdC.initStats t now

end ArrayTables

/-- The tables after an event, over arrays.  The fuel is for the loops of the arrays that double
their size. -/
def DaemonEvent.applyArrays (fuel : Nat) (firstByte : Num → Int) (a : ArrayTables) :
    DaemonEvent → Except ArrayFault ArrayTables
  | .packet p now =>
    let bufIn := queueBuffer p.text
    if bufIn.head? = some '{' ∨ bufIn.head? = some '[' then a.handleJson fuel bufIn now
    else a.handlePlain fuel bufIn now
  | .flush cfg env => do
    let (a, _) ← a.flushPass firstByte cfg env
    return a
  | .restart load now => do
    let a ← (if load then do
        let file ← a.serialize tmpkeyBlock
        ArrayTables.deserialize fuel file
      else
        pure ⟨[], [], [], []⟩)
    a.initStats now

/-- Runs over arrays, from the start of the first process on. -/
def arrayDaemon (fuel : Nat) (firstByte : Num → Int) :
    TransitionSystem ArrayTables DaemonEvent where
  init a := ∃ now, ArrayTables.initStats ⟨[], [], [], []⟩ now = .ok a
  step a e a' := e.applyArrays fuel firstByte a = .ok a'

/-! ## Refinement -/

/-- The array has the samples of the list, in their order, and the count is the same. -/
structure ArrayTimer.Stands (s : ArrayTimer) (t : StatsdTimer Num) : Prop where
  key : s.key = t.key
  count : s.count = t.count
  values : s.values.Represents t.values

/-- **The tables with arrays stand for those with lists**: three tables are the same, and the timers
stand one by one. -/
structure ArrayTables.Stands (a : ArrayTables) (t : Tables Num) : Prop where
  stats : a.stats = t.stats
  counters : a.counters = t.counters
  gauges : a.gauges = t.gauges
  timers : List.Forall₂ ArrayTimer.Stands a.timers t.timers

/-- An array can hold the samples, and an `int` their number.  The two bounds are the same where the
count is right. -/
structure SamplesFit (s : StatsdTimer Num) : Prop where
  values : s.values.length < 2 ^ 31
  count : s.count < 2 ^ 31

/-- No timer has more samples than an array and an `int` can count. -/
def TimersFit (t : Tables Num) : Prop := ∀ s ∈ t.timers, SamplesFit s

/-- A failure that is not an access outside the array, or to a cell that was never written. -/
def ArrayFault.Tame (e : ArrayFault) : Prop := e ≠ .utarray .badAccess

theorem ArrayFault.tame_ofTable (e : TableFault) : (ofTable e).Tame := by rintro ⟨⟩

theorem ArrayFault.tame_outOfFuel : (utarray .outOfFuel).Tame := by rintro ⟨⟩

section Refinement
variable {ε : Type} {fuel : Nat} {a a' : ArrayTables} {t t' : Tables Num}

/-! ### Samples -/

theorem follows_pushBack {v : UtArray Num} {values : List Num} (hv : v.Represents values)
    (hfuel : 30 ≤ fuel) (x : Num) :
    Follows UtArray.Represents (fun values => values.length ≤ 2 ^ 31) (fun e => e = .outOfFuel)
      (v.pushBack fuel x) (.ok (values ++ [x]) : Except ε (List Num)) := by
  refine ⟨fun v' hok => ?_, fun b hb hfit => ?_, fun e he => ?_⟩
  · rcases hv.pushBack fuel x with hfail | ⟨v₁, hok₁, h₁⟩
    · cases hok.symm.trans hfail
    · obtain rfl := Except.ok.inj (hok₁.symm.trans hok)
      exact ⟨_, rfl, h₁⟩
  · obtain rfl := Except.ok.inj hb
    rw [List.length_append, List.length_singleton] at hfit
    rcases hv.pushBack fuel x with hfail | hok
    · exact absurd hfail (hv.pushBack_ends hfuel hfit x)
    · exact hok
  · rcases hv.pushBack fuel x with hfail | ⟨_, hok, -⟩
    · exact Except.error.inj (he.symm.trans hfail)
    · cases he.symm.trans hok

/-- What is refused for its count does not fit: the overflow needs as many samples. -/
theorem follows_count {s : ArrayTimer} {t : StatsdTimer Num} {n : Nat}
    (hn : SamplesFit t → n < 2 ^ 31) (hs : s.Stands t) :
    Follows ArrayTimer.Stands SamplesFit ArrayFault.Tame
      (if n < 2 ^ 31 then .ok s else .error .countOverflow) (.ok t : Except ε _) := by
  split
  · exact follows_ok hs
  · rename_i hge
    refine ⟨by rintro _ ⟨⟩, fun b hb hfit => ?_, ?_⟩
    · obtain rfl := Except.ok.inj hb
      exact absurd (hn hfit) hge
    · rintro _ ⟨⟩ ⟨⟩

theorem follows_pushSample {s : ArrayTimer} {t : StatsdTimer Num} (hs : s.Stands t)
    (hfuel : 30 ≤ fuel) (value : Num) :
    Follows ArrayTimer.Stands SamplesFit ArrayFault.Tame (pushSample fuel value s)
      (.ok { t with values := t.values ++ [value], count := t.count + 1 } : Except ε _) := by
  have hpush : Follows UtArray.Represents (fun values => values.length ≤ 2 ^ 31) ArrayFault.Tame
      ((s.values.pushBack fuel value).mapError .utarray) (.ok (t.values ++ [value]) : Except ε _) :=
    (follows_pushBack hs.values hfuel value).mapError_left
      fun e he => he ▸ ArrayFault.tame_outOfFuel
  refine hpush.bind (g := fun values =>
    .ok { t with values, count := t.count + 1 }) (fun v values hok hv => ?_) ?_
  · rw [hs.count]
    exact follows_count (fun hfit => hfit.count) ⟨hs.key, rfl, hv⟩
  · rintro values c - hc hfit
    obtain rfl := Except.ok.inj hc
    exact hfit.values.le

/-- A write through a pointer follows the change of the entry in the list. -/
theorem follows_modifyAt {f : ArrayTimer → Except ArrayFault ArrayTimer}
    {g : StatsdTimer Num → StatsdTimer Num} {ss : List ArrayTimer} {ts : List (StatsdTimer Num)}
    (h : List.Forall₂ ArrayTimer.Stands ss ts)
    (hf : ∀ s t, s.Stands t → Follows ArrayTimer.Stands SamplesFit ArrayFault.Tame (f s)
      (.ok (g t) : Except ε (StatsdTimer Num))) (i : Nat) :
    Follows (List.Forall₂ ArrayTimer.Stands) (fun ts => ∀ t ∈ ts, SamplesFit t) ArrayFault.Tame
      (modifyAt f ss i) (.ok (ts.modify i g) : Except ε (List (StatsdTimer Num))) := by
  induction h generalizing i with
  | nil =>
    rw [List.modify_nil]
    exact follows_ok .nil
  | @cons s t ss ts hs hss ih =>
    cases i with
    | zero =>
      rw [List.modify_zero_cons]
      refine (hf s t hs).bind (g := fun t => .ok (t :: ts)) (fun s' t' _ hs' =>
        follows_ok (.cons hs' hss)) ?_
      rintro t' c - hc hfit
      obtain rfl := Except.ok.inj hc
      exact hfit t' (List.mem_cons_self ..)
    | succ i =>
      rw [List.modify_succ_cons]
      refine (ih i).bind (g := fun ts => .ok (t :: ts)) (fun ss' ts' _ hss' =>
        follows_ok (.cons hs hss')) ?_
      rintro ts' c - hc hfit
      obtain rfl := Except.ok.inj hc
      exact fun t' ht' => hfit t' (List.mem_cons_of_mem _ ht')

/-! ### Updates -/

theorem ArrayTables.Stands.find_eq (h : a.Stands t) (key : CString) :
    find ArrayTimer.key a.timers key = find StatsdTimer.key t.timers key := by
  have hkeys := h.timers
  generalize a.timers = ss at hkeys
  generalize t.timers = ts at hkeys
  induction hkeys with
  | nil => rfl
  | cons hs _ ih =>
    unfold find at ih ⊢
    rw [List.findIdx?_cons, List.findIdx?_cons, ih, hs.key]

/-- `update_timer` over arrays follows the one over lists, in an entry that is there and with a new
one. -/
theorem follows_updateTimer (h : a.Stands t) (hfuel : 30 ≤ fuel) (key : CString) (value : Num) :
    Follows ArrayTables.Stands TimersFit ArrayFault.Tame (a.updateTimer fuel key value)
      (updateTimer t key value) := by
  unfold ArrayTables.updateTimer updateTimer
  rw [h.find_eq]
  cases find StatsdTimer.key t.timers key with
  | some i =>
    refine (follows_modifyAt (ε := TableFault) h.timers (fun s t hs =>
      follows_pushSample hs hfuel value) i).bind (g := fun timers => .ok { t with timers })
      (fun ss ts _ hss => ?_) ?_
    · exact follows_ok ⟨h.stats, h.counters, h.gauges, hss⟩
    · rintro ts c - hc hfit
      obtain rfl := Except.ok.inj hc
      exact hfit
  | none =>
    refine (follows_mapError ArrayFault.tame_ofTable (strcpyKey key)).bind
      (fun key' key'' _ hkey => ?_) fun _ _ _ _ _ => trivial
    subst hkey
    have hnew : ArrayTimer.Stands ⟨key', 0, .new⟩ ⟨key', 0, []⟩ :=
      ⟨rfl, rfl, UtArray.represents_new⟩
    refine (follows_pushSample (ε := TableFault) hnew hfuel value).bind
      (g := fun s => .ok { t with timers := t.timers ++ [s] }) (fun s s' _ hs => ?_) ?_
    · exact follows_ok ⟨h.stats, h.counters, h.gauges,
        List.rel_append h.timers (.cons hs .nil)⟩
    · rintro s' c - hc hfit
      obtain rfl := Except.ok.inj hc
      exact hfit s' (List.mem_append_right _ (List.mem_singleton_self s'))

/-- A function that does the same whatever the timers are, and hands them on unchanged. -/
def TimersApart (f : Tables Num → Except TableFault (Tables Num)) : Prop :=
  ∀ (t : Tables Num) timers,
    f { t with timers } = (f { t with timers := [] }).map fun t' => { t' with timers }

theorem timersApart_updateStat (group key value : CString) :
    TimersApart fun t => updateStat t group key value := by
  intro t timers
  simp only [updateStat]
  cases strcpyKey group with
  | error e => rfl
  | ok group =>
    cases strcpyKey key with
    | error e => rfl
    | ok key =>
      dsimp only [bind, Except.bind]
      split <;> rfl

theorem TimersApart.bind {f g : Tables Num → Except TableFault (Tables Num)} (hf : TimersApart f)
    (hg : TimersApart g) : TimersApart fun t => f t >>= g := by
  intro t timers
  have hsame := hf t []
  dsimp only
  rw [hf]
  cases hok : f { t with timers := [] } with
  | error e => rfl
  | ok t' =>
    rw [hok] at hsame
    have hnil := Except.ok.inj hsame
    show g { t' with timers } = (g t').map fun t' => { t' with timers }
    rw [hg]
    exact congrArg _ (congrArg g hnil.symm)

theorem TimersApart.timers_eq {f : Tables Num → Except TableFault (Tables Num)}
    (hf : TimersApart f) (hok : f t = .ok t') : t'.timers = t.timers := by
  have hsame := hf t t.timers
  cases hnil : f { t with timers := [] } with
  | error e =>
    rw [hnil] at hsame
    cases hok.symm.trans hsame
  | ok t₀ =>
    rw [hnil] at hsame
    obtain rfl := Except.ok.inj (hok.symm.trans hsame)
    rfl

theorem timersApart_initStats (now : Int) : TimersApart fun t => initStats t now :=
  (timersApart_updateStat _ _ _).bind
    ((timersApart_updateStat _ _ _).bind (timersApart_updateStat _ _ _))

theorem timersApart_metricCall {call : MetricCall Num}
    (h : ∀ key value, call ≠ .updateTimer (some key) value) :
    TimersApart fun t => call.apply t := by
  intro t timers
  cases call with
  | updateTimer key value =>
    cases key with
    | none => rfl
    | some key => exact absurd rfl (h key value)
  | updateCounter key value sampleRate =>
    cases key with
    | none => rfl
    | some key =>
      simp only [MetricCall.apply, updateCounter]
      split
      · rfl
      · cases strcpyKey key <;> rfl
  | updateGaugePlusminus key value plusminus =>
    cases key with
    | none => rfl
    | some key =>
      simp only [MetricCall.apply, updateGaugePlusminus]
      split
      · rfl
      · cases strcpyKey key with
        | error e => rfl
        | ok key =>
          dsimp only [Bind.bind, Except.bind]
          split <;> rfl

/-- What leaves the timers alone does the same to the three tables that are the same. -/
theorem follows_onOthers (h : a.Stands t) {f : Tables Num → Except TableFault (Tables Num)}
    (hf : TimersApart f) :
    Follows ArrayTables.Stands (fun _ => True) ArrayFault.Tame (a.onOthers f) (f t) := by
  have ht : a.withTimers t.timers = t := by
    rw [ArrayTables.withTimers, h.stats, h.counters, h.gauges]
  have hframe : f (a.withTimers t.timers) =
      (f (a.withTimers [])).map fun t' => { t' with timers := t.timers } :=
    hf (a.withTimers []) t.timers
  rw [ht] at hframe
  rw [hframe, ArrayTables.onOthers]
  cases f (a.withTimers []) with
  | error e => exact follows_error (ArrayFault.tame_ofTable e)
  | ok t' => exact follows_ok ⟨rfl, rfl, rfl, h.timers⟩

/-- A metric call over arrays follows the one over lists. -/
theorem follows_metricCall (h : a.Stands t) (hfuel : 30 ≤ fuel) (call : MetricCall Num) :
    Follows ArrayTables.Stands TimersFit ArrayFault.Tame (a.metricCall fuel call)
      (call.apply t) := by
  unfold ArrayTables.metricCall
  split
  · exact follows_updateTimer h hfuel _ _
  · rename_i hcall
    exact (follows_onOthers h (timersApart_metricCall hcall)).imp (fun _ _ hs => hs)
      fun _ _ => trivial

/-! ### What comes before a state that fits -/

theorem TimersFit.of_modify {ts : List (StatsdTimer Num)} {i : Nat}
    {g : StatsdTimer Num → StatsdTimer Num}
    (hg : ∀ s, s.values.length ≤ (g s).values.length ∧ s.count ≤ (g s).count)
    (h : ∀ s ∈ ts.modify i g, SamplesFit s) :
    ∀ s ∈ ts, SamplesFit s := by
  intro s hs
  obtain ⟨j, hj⟩ := List.mem_iff_getElem?.mp hs
  have hafter : (ts.modify i g)[j]? = some (if i = j then g s else s) := by
    rw [List.getElem?_modify, hj]
    rfl
  have hfit := h _ (List.mem_of_getElem? hafter)
  split at hfit
  · exact ⟨(hg s).1.trans_lt hfit.values, (hg s).2.trans_lt hfit.count⟩
  · exact hfit

/-- A call takes no sample away, so that what fits afterwards has fitted before. -/
theorem TimersFit.of_metricCall {call : MetricCall Num} (hok : call.apply t = .ok t')
    (h : TimersFit t') : TimersFit t := by
  by_cases htimer : ∃ key value, call = .updateTimer (some key) value
  · obtain ⟨key, value, rfl⟩ := htimer
    simp only [MetricCall.apply, updateTimer] at hok
    split at hok
    · obtain rfl := Except.ok.inj hok
      refine of_modify (fun s => ?_) h
      rw [List.length_append]
      exact ⟨Nat.le_add_right _ _, Nat.le_add_right _ _⟩
    · obtain ⟨key', -, hok⟩ := bind_eq_ok.mp hok
      obtain rfl := Except.ok.inj hok
      exact fun s hs => h s (List.mem_append_left _ hs)
  · have heq := (timersApart_metricCall fun key value hcall =>
      htimer ⟨key, value, hcall⟩).timers_eq hok
    intro s hs
    exact h s (heq ▸ hs)

theorem TimersFit.of_applyMetricCalls {calls : List (MetricCall Num)}
    (hok : applyMetricCalls t calls = .ok t') (h : TimersFit t') : TimersFit t := by
  induction calls generalizing t with
  | nil =>
    obtain rfl := Except.ok.inj hok
    exact h
  | cons call calls ih =>
    rw [applyMetricCalls, List.foldlM_cons, bind_eq_ok] at hok
    obtain ⟨t₁, hfirst, hrest⟩ := hok
    exact (ih hrest).of_metricCall hfirst

theorem TimersFit.of_timers_eq (heq : t'.timers = t.timers) (h : TimersFit t') : TimersFit t :=
  fun s hs => h s (heq ▸ hs)

/-! ### Packets -/

/-- The calls of a packet, one after another. -/
theorem follows_metricCalls (h : a.Stands t) (hfuel : 30 ≤ fuel) (calls : List (MetricCall Num)) :
    Follows ArrayTables.Stands TimersFit ArrayFault.Tame
      (calls.foldlM (ArrayTables.metricCall fuel) a) (applyMetricCalls t calls) := by
  unfold applyMetricCalls
  induction calls generalizing a t with
  | nil => exact follows_ok h
  | cons call calls ih =>
    rw [List.foldlM_cons, List.foldlM_cons]
    exact (follows_metricCall h hfuel call).bind (fun a₁ t₁ _ h₁ => ih h₁)
      fun t₁ t₂ _ hrest hfit => hfit.of_applyMetricCalls hrest

theorem follows_updateLastMsgSeen (h : a.Stands t) (now : Int) :
    Follows ArrayTables.Stands (fun _ => True) ArrayFault.Tame (a.updateLastMsgSeen now)
      (updateLastMsgSeen t now) :=
  follows_onOthers h (timersApart_updateStat _ _ _)

/-- A packet's calls are the same on both sides. -/
theorem follows_handlePlain (h : a.Stands t) (hfuel : 30 ≤ fuel) (bufIn : Buffer) (now : Int) :
    Follows ArrayTables.Stands TimersFit ArrayFault.Tame (a.handlePlain fuel bufIn now)
      (handlePlain t bufIn now) := by
  unfold ArrayTables.handlePlain handlePlain
  refine (follows_mapError (fun e => by rintro ⟨⟩) _).mapError_right.bind
    (fun calls calls' _ hcalls => ?_) fun _ _ _ _ _ => trivial
  subst hcalls
  refine (follows_metricCalls h hfuel _).mapError_right.bind (fun a₁ t₁ _ h₁ => ?_) ?_
  · exact (follows_updateLastMsgSeen h₁ now).mapError_right.imp (fun _ _ hs => hs)
      fun _ _ => trivial
  · intro t₁ t₂ _ hseen hfit
    exact hfit.of_timers_eq
      ((timersApart_updateStat _ _ _).timers_eq (mapError_eq_ok.mp hseen))

theorem follows_handleJson (h : a.Stands t) (hfuel : 30 ≤ fuel) (bufIn : Buffer) (now : Int) :
    Follows ArrayTables.Stands TimersFit ArrayFault.Tame (a.handleJson fuel bufIn now)
      (handleJson t bufIn now) := by
  unfold ArrayTables.handleJson handleJson
  refine (follows_mapError (fun e => by rintro ⟨⟩) _).mapError_right.bind
    (fun calls calls' _ hcalls => ?_) fun _ _ _ _ _ => trivial
  subst hcalls
  refine (follows_metricCalls h hfuel _).mapError_right.bind (fun a₁ t₁ _ h₁ => ?_) ?_
  · split
    · exact (follows_updateLastMsgSeen h₁ now).mapError_right.imp (fun _ _ hs => hs)
        fun _ _ => trivial
    · exact follows_ok h₁
  · intro t₁ t₂ _ hseen hfit
    split at hseen
    · exact hfit.of_timers_eq
        ((timersApart_updateStat _ _ _).timers_eq (mapError_eq_ok.mp hseen))
    · obtain rfl := pure_eq_ok.mp hseen
      exact hfit

/-! ### Passes -/

theorem foldl_minMaxRound (xs : List Num) :
    xs.foldl minMaxRound (0, 0, 0) = (xs.length, (minMax xs).1, (minMax xs).2) := by
  have hrest : ∀ (ys : List Num) (n : Nat) (m : Num × Num),
      ys.foldl minMaxRound (n + 1, m.1, m.2) = (n + 1 + ys.length, ys.foldl
        (fun m i => (if i < m.1 then i else m.1, if m.2 < i then i else m.2)) m) := by
    intro ys
    induction ys with
    | nil => exact fun n m => rfl
    | cons y ys ih =>
      intro n m
      rw [List.foldl_cons, List.foldl_cons, List.length_cons]
      have hround : minMaxRound (n + 1, m.1, m.2) y =
          (n + 1 + 1, if y < m.1 then y else m.1, if m.2 < y then y else m.2) := rfl
      rw [hround, ih (n + 1) (_, _)]
      congr 1
      omega
  cases xs with
  | nil => rfl
  | cons x xs =>
    have hround : minMaxRound (0, 0, 0) x = (0 + 1, x, x) := rfl
    rw [List.foldl_cons, hround, hrest xs 0 (x, x), List.length_cons, minMax]
    congr 1
    omega

/-- The sum of the first `c` values, as the second loop adds them up. -/
theorem foldWhile_sum (c : Nat) (xs : List Num) (s : Num) (k : Nat) :
    (UtArray.foldWhile (fun s => decide (s.2 < c)) (fun s i => (s.1 + i, s.2 + 1)) xs (s, k)).1 =
      (xs.take (c - k)).foldl (· + ·) s := by
  induction xs generalizing s k with
  | nil => rw [List.take_nil]; rfl
  | cons x xs ih =>
    unfold UtArray.foldWhile
    by_cases hk : k < c
    · have hsucc : c - k = c - (k + 1) + 1 := by omega
      rw [if_pos (decide_eq_true hk), ih, hsucc, List.take_succ_cons]
      rfl
    · rw [if_neg (by simpa using hk), Nat.sub_eq_zero_of_le (not_lt.mp hk), List.take_zero]
      rfl

theorem length_utarraySort_num (values : List Num) :
    (utarraySort values).length = values.length := List.length_insertionSort ..

variable {firstByte : Num → Int} {cfg : FlushConfig} {ts : Int}

/-- **The summary of an array** is that of its elements. -/
theorem summarizeArray_eq {v : UtArray Num} {values : List Num} (h : v.Represents values)
    (pctThreshold : Int) (count : Nat) :
    summarizeArray firstByte pctThreshold count v =
      (summarize firstByte pctThreshold count values).mapError fun e => .daemon (.flush e) := by
  unfold summarizeArray summarize
  rw [h.loop_eq, UtArray.foldWhile_true, foldl_minMaxRound]
  simp only [bind, Except.bind, Except.mapError]
  split
  · unfold utarrayEltptr
    generalize thresholdIndex pctThreshold count - 1 = j
    by_cases hj : 0 ≤ j ∧ j < v.i
    · have hlt : j.toNat < values.length := by
        rw [← h.i]
        omega
      rw [if_pos hj, if_pos hj.1, h.read_eq (List.getElem?_eq_getElem hlt), h.loop_eq,
        List.getElem?_eq_getElem hlt]
      have hsum := foldWhile_sum (count - 1) values 0 0
      dsimp only at hsum ⊢
      rw [hsum, Nat.sub_zero]
      rfl
    · have hnone : (if 0 ≤ j then values[j.toNat]? else none) = none := by
        split
        · rw [List.getElem?_eq_none_iff, ← h.i]
          omega
        · rfl
      rw [if_neg hj, hnone]
  · rfl

/-- The results of a pass: a timer, or the tables, and the report. -/
def SameReport {α β : Type} (stands : α → β → Prop) (r : α × Report Num) (r' : β × Report Num) :
    Prop := stands r.1 r'.1 ∧ r.2 = r'.2

/-- **The loop body** reads the same numbers from the array. -/
theorem follows_flushArrayTimer {s : ArrayTimer} {t : StatsdTimer Num} (h : s.Stands t) :
    Follows (SameReport ArrayTimer.Stands) (fun _ => True) ArrayFault.Tame
      (flushArrayTimer firstByte cfg ts s) (flushTimer firstByte cfg ts t) := by
  unfold flushArrayTimer flushTimer
  rw [h.count]
  split
  · obtain ⟨values, hsort, hv⟩ := h.values.sort (length_utarraySort_num t.values)
    rw [hsort]
    simp only [Except.mapError, bind, Except.bind]
    rw [summarizeArray_eq hv]
    cases summarize firstByte cfg.percentile t.count (utarraySort t.values) with
    | error e => exact follows_error (by rintro ⟨⟩)
    | ok summary => exact follows_ok ⟨⟨h.key, rfl, hv.clear⟩, by rw [h.key]⟩
  · exact follows_ok ⟨h, rfl⟩

theorem flushTimers_cons (t : StatsdTimer Num) (timers : List (StatsdTimer Num)) :
    flushTimers firstByte cfg ts (t :: timers) = (do
      let (t, report) ← flushTimer firstByte cfg ts t
      let (timers, reports) ← flushTimers firstByte cfg ts timers
      return (t :: timers, report.append reports)) := by
  rw [flushTimers]
  cases flushTimer firstByte cfg ts t with
  | error e => rfl
  | ok r => cases flushTimers firstByte cfg ts timers <;> rfl

/-- The loop over the timers follows the one over lists, with the same report. -/
theorem follows_flushArrayTimers {ss : List ArrayTimer} {timers : List (StatsdTimer Num)}
    (h : List.Forall₂ ArrayTimer.Stands ss timers) :
    Follows (SameReport (List.Forall₂ ArrayTimer.Stands)) (fun _ => True) ArrayFault.Tame
      (flushArrayTimers firstByte cfg ts ss) (flushTimers firstByte cfg ts timers) := by
  induction h with
  | nil => exact follows_ok ⟨.nil, rfl⟩
  | cons hs _ ih =>
    rw [flushArrayTimers, flushTimers_cons]
    refine (follows_flushArrayTimer hs).bind (fun r r' _ hr => ?_) fun _ _ _ _ _ => trivial
    refine ih.bind (fun rs rs' _ hrs => ?_) fun _ _ _ _ _ => trivial
    exact follows_ok ⟨.cons hr.1 hrs.1, by rw [hr.2, hrs.2]⟩

/-- **A pass** does the same to the tables, and reports the same. -/
theorem follows_flushPass (h : a.Stands t) (env : FlushEnv) :
    Follows (SameReport ArrayTables.Stands) (fun _ => True) ArrayFault.Tame
      (a.flushPass firstByte cfg env) (flushPass firstByte cfg env t) := by
  have hpass : flushPass firstByte cfg env t = (do
      let r ← flushTimers firstByte cfg env.ts t.timers
      let report := (Report.concat ((t.counters.map (flushCounter cfg env.ts)).map Prod.snd)).append
        (r.2.append ((Report.concat (t.gauges.map (flushGauge cfg env.ts))).append
          (reportTotals cfg env.ts (t.counters.length + t.timers.length + t.gauges.length))))
      let t : Tables Num :=
        { t with counters := (t.counters.map (flushCounter cfg env.ts)).map Prod.fst
                 timers := r.1 }
      if cfg.enableGraphite && env.socket then do
        let t ← (updateStat t "graphite".toList "last_flush".toList (printD env.now)).mapError
          FlushFault.table
        return (t, report)
      else
        return (t, report)) := by
    unfold flushPass
    cases flushTimers firstByte cfg env.ts t.timers with
    | error e => rfl
    | ok r =>
      simp only [bind, Except.bind]
      split
      · cases updateStat _ "graphite".toList "last_flush".toList (printD env.now) <;> rfl
      · rfl
  have hlen : a.timers.length = t.timers.length := h.timers.length_eq
  rw [hpass, ArrayTables.flushPass, h.counters, h.gauges, hlen]
  refine (follows_flushArrayTimers h.timers).bind (fun r r' _ hr => ?_) fun _ _ _ _ _ => trivial
  have hflushed : ArrayTables.Stands
      { a with counters := (t.counters.map (flushCounter cfg env.ts)).map Prod.fst
               gauges := t.gauges
               timers := r.1 }
      { t with counters := (t.counters.map (flushCounter cfg env.ts)).map Prod.fst
               timers := r'.1 } :=
    ⟨h.stats, rfl, rfl, hr.1⟩
  dsimp only
  rw [hr.2]
  split
  · refine (follows_onOthers hflushed (timersApart_updateStat _ _ _)).mapError_right.bind
      (fun a₁ t₁ _ h₁ => ?_) fun _ _ _ _ _ => trivial
    exact follows_ok ⟨h₁, rfl⟩
  · exact follows_ok ⟨hflushed, rfl⟩

/-! ### Restarts -/

theorem follows_samples {ss : List ArrayTimer} {timers : List (StatsdTimer Num)}
    (h : List.Forall₂ ArrayTimer.Stands ss timers) : ss.mapM ArrayTimer.samples = .ok timers := by
  induction h with
  | nil => rfl
  | @cons s t ss timers hs _ ih =>
    have hread : s.samples = .ok t := by
      rw [ArrayTimer.samples, hs.values.elements_eq, hs.key, hs.count]
      rfl
    rw [List.mapM_cons, hread, ih]
    rfl

/-- **The snapshot** is the same text, and so is its fault where a key does not fit. -/
theorem ArrayTables.Stands.serialize_eq (h : a.Stands t) (block : Nat) :
    a.serialize block = (statsdSerialize block t).mapError fun e => .daemon (.snapshot e) := by
  have ht : a.withTimers t.timers = t := by
    rw [withTimers, h.stats, h.counters, h.gauges]
  rw [ArrayTables.serialize, follows_samples h.timers, ← ht]
  rfl

theorem follows_pushSamples {t : StatsdTimer Num} (hfuel : 30 ≤ fuel) :
    Follows ArrayTimer.Stands SamplesFit ArrayFault.Tame (pushSamples fuel t)
      (.ok t : Except ε (StatsdTimer Num)) := by
  have hpush : ∀ (rest values : List Num) (v : UtArray Num), v.Represents values →
      Follows UtArray.Represents (fun values => values.length ≤ 2 ^ 31) (fun e => e = .outOfFuel)
        (rest.foldlM (UtArray.pushBack fuel) v) (.ok (values ++ rest) : Except ε (List Num)) := by
    intro rest
    induction rest with
    | nil =>
      intro values v hv
      rw [List.append_nil]
      exact follows_ok hv
    | cons x rest ih =>
      intro values v hv
      rw [List.foldlM_cons, List.append_cons]
      refine (follows_pushBack (ε := ε) hv hfuel x).bind (g := fun values => .ok (values ++ rest))
        (fun v₁ values₁ _ h₁ => ih values₁ v₁ h₁) ?_
      intro values₁ c _ hc hfit
      obtain rfl := Except.ok.inj hc
      rw [List.length_append] at hfit
      omega
  refine ((hpush t.values [] .new UtArray.represents_new).mapError_left fun e he =>
    he ▸ ArrayFault.tame_outOfFuel).bind (g := fun values => .ok { t with values })
      (fun v values _ hv => ?_) ?_
  · exact follows_count (fun hfit => hfit.count) ⟨rfl, rfl, hv⟩
  · intro values c _ hc hfit
    obtain rfl := Except.ok.inj hc
    exact hfit.values.le

theorem follows_loadTimers (hfuel : 30 ≤ fuel) (timers : List (StatsdTimer Num)) :
    Follows (List.Forall₂ ArrayTimer.Stands) (fun timers => ∀ t ∈ timers, SamplesFit t)
      ArrayFault.Tame (timers.mapM (pushSamples fuel)) (.ok timers : Except ε _) := by
  induction timers with
  | nil => exact follows_ok .nil
  | cons t timers ih =>
    rw [List.mapM_cons]
    refine (follows_pushSamples (ε := ε) hfuel).bind (g := fun t => .ok (t :: timers))
      (fun s t _ hs => ?_) ?_
    · refine ih.bind (g := fun timers => .ok (t :: timers)) (fun ss ts _ hss => ?_) ?_
      · exact follows_ok (.cons hs hss)
      · intro ts c _ hc hfit
        obtain rfl := Except.ok.inj hc
        exact fun t' ht' => hfit t' (List.mem_cons_of_mem _ ht')
    · intro t' c _ hc hfit
      obtain rfl := Except.ok.inj hc
      exact hfit t' (List.mem_cons_self ..)

/-- What is read from a file follows the tables of lists that are read from it. -/
theorem follows_deserialize (hfuel : 30 ≤ fuel) (file : List Char) :
    Follows ArrayTables.Stands TimersFit ArrayFault.Tame (ArrayTables.deserialize fuel file)
      ((statsdDeserialize .empty file).map Prod.snd) := by
  unfold ArrayTables.deserialize
  cases statsdDeserialize .empty file with
  | error e => exact follows_error (by rintro ⟨⟩)
  | ok r =>
    refine (follows_loadTimers (ε := SnapshotFault) hfuel r.2.timers).bind
      (g := fun timers => .ok { r.2 with timers }) (fun ss ts _ hss => ?_) ?_
    · exact follows_ok ⟨rfl, rfl, rfl, hss⟩
    · intro ts c _ hc hfit
      obtain rfl := Except.ok.inj hc
      exact hfit

theorem follows_initStats (h : a.Stands t) (now : Int) :
    Follows ArrayTables.Stands (fun _ => True) ArrayFault.Tame (a.initStats now)
      (initStats t now) := follows_onOthers h (timersApart_initStats now)

/-! ### Events -/

theorem ArrayTables.stands_empty : ArrayTables.Stands ⟨[], [], [], []⟩ .empty :=
  ⟨rfl, rfl, rfl, .nil⟩

/-- **One event** over arrays does what it does over lists, unless a timer has too many samples
afterwards. -/
theorem follows_applyArrays (h : a.Stands t) (hfuel : 30 ≤ fuel) (e : DaemonEvent) :
    Follows ArrayTables.Stands TimersFit ArrayFault.Tame (e.applyArrays fuel firstByte a)
      (e.apply firstByte t) := by
  cases e with
  | packet p now =>
    unfold DaemonEvent.applyArrays DaemonEvent.apply
    dsimp only
    split
    · exact follows_handleJson h hfuel _ now
    · exact follows_handlePlain h hfuel _ now
  | flush cfg env =>
    refine (follows_flushPass h env).mapError_right.bind (fun r r' _ hr => ?_)
      fun _ _ _ _ _ => trivial
    exact follows_ok hr.1
  | restart load now =>
    have hinit : ∀ {a t}, ArrayTables.Stands a t → Follows ArrayTables.Stands TimersFit
        ArrayFault.Tame (a.initStats now) ((initStats t now).mapError DaemonFault.table) :=
      fun h => (follows_initStats h now).mapError_right.imp (fun _ _ hs => hs) fun _ _ => trivial
    cases load with
    | false => exact hinit ArrayTables.stands_empty
    | true =>
      cases hwrite : statsdSerialize tmpkeyBlock t with
      | error e =>
        simp only [DaemonEvent.apply, DaemonEvent.applyArrays, if_true, h.serialize_eq, hwrite]
        exact follows_error (by rintro ⟨⟩)
      | ok file =>
        have hload : (DaemonEvent.restart true now).apply firstByte t =
            (((statsdDeserialize .empty file).map Prod.snd).mapError
              DaemonFault.snapshot >>= fun t => (initStats t now).mapError DaemonFault.table) := by
          simp only [DaemonEvent.apply, if_true, hwrite]
          cases hread : statsdDeserialize .empty file <;>
            simp only [Except.mapError, bind, Except.bind, hread] <;> rfl
        have hloadArrays : (DaemonEvent.restart true now).applyArrays fuel firstByte a =
            (ArrayTables.deserialize fuel file >>= fun a => a.initStats now) := by
          simp only [DaemonEvent.applyArrays, if_true, h.serialize_eq, hwrite]
          rfl
        rw [hload, hloadArrays]
        refine (follows_deserialize hfuel _).mapError_right.bind (fun a₁ t₁ _ h₁ => hinit h₁) ?_
        intro t₁ t₂ _ hok hfit
        exact hfit.of_timers_eq ((timersApart_initStats now).timers_eq (mapError_eq_ok.mp hok))

end Refinement

/-! ## Runs -/

/-- The daemon, up to the event after which a timer has too many samples for an array or an `int`.
-/
def daemonWithin (firstByte : Num → Int) : TransitionSystem (Tables Num) DaemonEvent where
  init := (daemon firstByte).init
  step t e t' := (daemon firstByte).step t e t' ∧ TimersFit t'

/-- Such a run is a run of the daemon, only with the condition on its events dropped. -/
theorem reachable_of_daemonWithin {firstByte : Num → Int} {es : List DaemonEvent} {t : Tables Num}
    (hrun : (daemonWithin firstByte).Run es t) : (daemon firstByte).Reachable t := by
  induction hrun with
  | start hinit => exact .start hinit
  | next _ hstep ih => exact ih.next hstep.1

/-- A run over arrays is one over lists, and its tables stand for those it reaches. -/
theorem arrayRun_stands {firstByte : Num → Int} {fuel : Nat} (hfuel : 30 ≤ fuel)
    {es : List DaemonEvent} {a : ArrayTables} (hrun : (arrayDaemon fuel firstByte).Run es a) :
    ∃ t, (daemon firstByte).Run es t ∧ a.Stands t := by
  refine hrun.invariant (I := fun es a => ∃ t, (daemon firstByte).Run es t ∧ a.Stands t) ?_ ?_
  · rintro a ⟨now, hok⟩
    obtain ⟨t, hinit, h⟩ := (follows_initStats ArrayTables.stands_empty now).ok a hok
    exact ⟨t, .start ⟨now, hinit⟩, h⟩
  · rintro es a e a' ⟨t, hrun, h⟩ hstep
    obtain ⟨t', hstep', h'⟩ := (follows_applyArrays h hfuel e).ok a' hstep
    exact ⟨t', hrun.next hstep', h'⟩

/-- **The arrays of the timers.**  A run of the daemon over arrays is one over lists; no event
of it is an access outside an array; and as long as every timer has fewer than `2 ^ 31` samples,
a run over lists is one over arrays, a pass reports the same and the snapshot is the same. -/
theorem arrayDaemon_refines (firstByte : Num → Int) {fuel : Nat} (hfuel : 30 ≤ fuel) :
    (∀ es a, (arrayDaemon fuel firstByte).Run es a →
      (∃ t, (daemon firstByte).Run es t ∧ a.Stands t) ∧
        ∀ e, DaemonEvent.applyArrays fuel firstByte a e ≠ .error (.utarray .badAccess)) ∧
    ∀ es t, (daemonWithin firstByte).Run es t →
      ∃ a, (arrayDaemon fuel firstByte).Run es a ∧ a.Stands t ∧
        (∃ file, statsdSerialize tmpkeyBlock t = .ok file ∧ a.serialize tmpkeyBlock = .ok file) ∧
        ∀ cfg env r, flushPass firstByte cfg env t = .ok r →
          ∃ a', a.flushPass firstByte cfg env = .ok (a', r.2) ∧ a'.Stands r.1 := by
  constructor
  · intro es a hrun
    obtain ⟨t, hrun', h⟩ := arrayRun_stands hfuel hrun
    exact ⟨⟨t, hrun', h⟩, fun e hfail => (follows_applyArrays h hfuel e).error _ hfail rfl⟩
  · intro es t hrun
    have hstands : ∃ a, (arrayDaemon fuel firstByte).Run es a ∧ a.Stands t := by
      induction hrun with
      | start hinit =>
        obtain ⟨now, hok⟩ := hinit
        obtain ⟨a, hinit', h⟩ :=
          (follows_initStats ArrayTables.stands_empty now).within _ hok trivial
        exact ⟨a, .start ⟨now, hinit'⟩, h⟩
      | next hrun hstep ih =>
        obtain ⟨a, hrun', h⟩ := ih
        obtain ⟨a', hstep', h'⟩ := (follows_applyArrays h hfuel _).within _ hstep.1 hstep.2
        exact ⟨a', hrun'.next hstep', h'⟩
    obtain ⟨a, hrun', h⟩ := hstands
    have hwrite := (reachable_daemonState (reachable_of_daemonWithin hrun)).statsdSerialize_eq
    refine ⟨a, hrun', h, ⟨_, hwrite, ?_⟩, fun cfg env r hpass => ?_⟩
    · rw [h.serialize_eq, hwrite]
      rfl
    obtain ⟨r', hpass', hstands', hreport⟩ := (follows_flushPass h env).within r hpass trivial
    exact ⟨r'.1, hreport ▸ hpass', hstands'⟩

/-- The tables after a packet with a sample of the timer `k`. -/
def timerTables : Tables Num := { startTables with timers := [⟨['k'], 1, [.fin 7]⟩] }

/-- The theorem at the run of that one packet. -/
theorem arrayDaemon_refines_timerPacket :
    ∃ a, (arrayDaemon 30 fun _ => 0).Run [.packet timerPacket 0] a ∧ a.Stands timerTables := by
  have hstart : (daemonWithin fun _ => 0).Run [] startTables := .start ⟨0, initStats_empty⟩
  have hfit : TimersFit timerTables := by
    intro s hs
    obtain rfl := List.mem_singleton.mp hs
    exact ⟨by decide, by decide⟩
  have hstep : (daemonWithin fun _ => 0).step startTables (.packet timerPacket 0) timerTables :=
    ⟨apply_timerPacket _ rfl, hfit⟩
  have hrun := hstart.next hstep
  obtain ⟨a, hrun', h, -⟩ := (arrayDaemon_refines (fun _ => 0) (le_refl 30)).2 _ _ hrun
  exact ⟨a, hrun', h⟩

end StatsdC
