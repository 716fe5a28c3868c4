import StatsdC.StatNames
import StatsdC.UtHash

/-!
# The tables over uthash

The tables of the daemon as they are in memory: four head pointers of `uthash.h`, looked up by the
hash of a key.  Each function is written once more as the code has it, with `HASH_FIND` and
`HASH_ADD` in the place of searching and extending a list, and does what the one on lists does
(`HashedTables.Stands`).

So the runs are the same (`hashedRun_refines`): whatever the hash function makes of the keys, and
whenever the buckets are expanded, no update is lost, none goes to another entry, and a walk meets
the entries in the order in which they came.  A run of either kind starts at the start of a process,
with or without a snapshot, and its events are calls and passes.

There is one difference.  The counts of a hash table are `unsigned`, and a list has no bound; a run
over the lists can therefore be longer than the run over the hash tables, which ends where a count
would pass its range.  That takes a table of `2 ^ 31` buckets or `2 ^ 28` entries
(`HashedTables.HasRoom`), and it is the only difference: no run over the hash tables does what the
lists do not.  The comparison of two functions is therefore one of `Fallible.Alike`, with the
overflow as the limit that the lists do not know.
-/

namespace StatsdC
open CString OrderedTable Fallible

/-- An event that the process does not survive: as over lists, or by uthash. -/
inductive HashedFault where
  | daemon (fault : DaemonFault)
  | uthash (fault : UtFault)
  deriving DecidableEq

/-- The head pointers of the four tables, each with its elements and its buckets. -/
structure HashedTables where
  stats : UtHash MemStat
  counters : UtHash (StatsdCounter Num)
  gauges : UtHash (StatsdGauge Num)
  timers : UtHash (StatsdTimer Num)

namespace HashedTables

/-- The elements, as a walk over them meets them, which is in the order of their addition. -/
def mem (h : HashedTables) : MemTables :=
  ⟨h.stats.elements, h.counters.elements, h.gauges.elements, h.timers.elements⟩

/-- A fault of the functions on tables. -/
def tableFault (e : TableFault) : HashedFault := .daemon (.table e)

/-- `update_stat`, with the search and the addition of uthash. -/
def updateStat (h : HashedTables) (group key value : CString) :
    Except HashedFault HashedTables := do
  let l ← (StatNameBytes.ofStrings group key).mapError tableFault
  match h.stats.hashFind l.memory with
  | some s => .ok { h with stats := h.stats.modify s fun s => { s with value := atol value } }
  | none =>
    let name ← (StatNameBytes.ofStrings group key).mapError tableFault
    let stats ← (h.stats.hashAdd name.memory ⟨name, atol value, false⟩).mapError .uthash
    .ok { h with stats }

/-- `update_counter`, with the search and the addition of uthash. -/
def updateCounter (h : HashedTables) (key : CString) (value sampleRate : Num) :
    Except HashedFault HashedTables := do
  match h.counters.hashFind key with
  | some c =>
    .ok { h with
      counters := h.counters.modify c fun c =>
        { c with value := c.value + contribution value sampleRate } }
  | none =>
    let key ← (strcpyKey key).mapError tableFault
    let counters ← (h.counters.hashAdd key ⟨key, contribution value sampleRate⟩).mapError .uthash
    .ok { h with counters }

/-- `update_gauge_plusminus`, with the search and the addition of uthash. -/
def updateGaugePlusminus (h : HashedTables) (key : CString) (value : Num) (plusminus : Int) :
    Except HashedFault HashedTables := do
  match h.gauges.hashFind key with
  | some g =>
    .ok { h with
      gauges := h.gauges.modify g fun g =>
        { g with value := (plusminusValue g.value value plusminus).getD g.value } }
  | none =>
    let key ← (strcpyKey key).mapError tableFault
    match plusminusValue 0 value plusminus with
    | some value =>
      let gauges ← (h.gauges.hashAdd key ⟨key, value⟩).mapError .uthash
      .ok { h with gauges }
    | none => .error (tableFault .gaugeUnset)

/-- `update_timer`, with the search and the addition of uthash. -/
def updateTimer (h : HashedTables) (key : CString) (value : Num) :
    Except HashedFault HashedTables := do
  match h.timers.hashFind key with
  | some s =>
    .ok { h with
      timers := h.timers.modify s fun s =>
        { s with values := s.values ++ [value], count := s.count + 1 } }
  | none =>
    let key ← (strcpyKey key).mapError tableFault
    let timers ← (h.timers.hashAdd key ⟨key, 1, [value]⟩).mapError .uthash
    .ok { h with timers }

/-- The effect of a call, by the function for its kind. -/
def metricCall (h : HashedTables) : MetricCall Num → Except HashedFault HashedTables
  | .updateCounter (some key) value sampleRate => h.updateCounter key value sampleRate
  | .updateTimer (some key) value => h.updateTimer key value
  | .updateGaugePlusminus (some key) value plusminus => h.updateGaugePlusminus key value plusminus
  | .updateCounter none _ _ | .updateTimer none _ | .updateGaugePlusminus none _ _ =>
    .error (tableFault .nullKey)

/-- `p_thread_flush`, from one sleep to the next.  The loops walk over the elements and
write to them. -/
def flushPass (firstByte : Num → Int) (cfg : FlushConfig) (env : FlushEnv) (h : HashedTables) :
    Except HashedFault HashedTables :=
  match flushTimers firstByte cfg env.ts h.timers.elements with
  | .error e => .error (.daemon (.flush e))
  | .ok (timers, _) =>
    let h := { h with
      counters := { h.counters with
        elements := h.counters.elements.map fun c => (flushCounter cfg env.ts c).1 }
      timers := { h.timers with elements := timers } }
    if cfg.enableGraphite && env.socket then
      h.updateStat "graphite".toList "last_flush".toList (printD env.now)
    else
      .ok h

/-- `init_stats` at time `now`, once the snapshot is loaded. -/
def initStats (h : HashedTables) (now : Int) : Except HashedFault HashedTables := do
  let h ← h.updateStat "graphite".toList "last_flush".toList (printD now)
  let h ← h.updateStat "messages".toList "last_msg_seen".toList (printD now)
  h.updateStat "messages".toList "bad_lines_seen".toList "0".toList

/-- The entries of a file, each added to its table as it is read, from empty tables on. -/
def load (m : MemTables) : Except UtFault HashedTables := do
  let stats ← m.stats.foldlM (fun u s => u.hashAdd s.name.memory s) .null
  let timers ← m.timers.foldlM (fun u t => u.hashAdd t.key t) .null
  let gauges ← m.gauges.foldlM (fun u g => u.hashAdd g.key g) .null
  let counters ← m.counters.foldlM (fun u c => u.hashAdd c.key c) .null
  return ⟨stats, counters, gauges, timers⟩

/-- The start of the daemon at time `now`, from a file with the entries of `m₀`. -/
def start (m₀ : MemTables) (now : Int) : Except HashedFault HashedTables := do
  let h ← (load m₀).mapError .uthash
  h.initStats now

/-- An addition to any of the tables stays within the range of its counts, whichever table it is
for. -/
structure HasRoom (h : HashedTables) : Prop where
  stats : h.stats.HasRoom
  counters : h.counters.HasRoom
  gauges : h.gauges.HasRoom
  timers : h.timers.HasRoom

end HashedTables

/-- The tables after an event, over hash tables and with their faults. -/
def TableEvent.applyHashed (firstByte : Num → Int) (h : HashedTables) :
    TableEvent → Except HashedFault HashedTables
  | .updateStat group key value _ _ => h.updateStat group key value
  | .metricCall call => h.metricCall call
  | .flush cfg env => h.flushPass firstByte cfg env

/-- Runs over the lists from `init_stats` on, with the entries of `m₀` loaded. -/
def tableSystemFrom (firstByte : Num → Int) (m₀ : MemTables) (now : Int) :
    TransitionSystem MemTables TableEvent :=
  { tableSystem firstByte with init := fun m => m₀.initStats now = .ok m }

/-- Runs over the hash tables from `init_stats` on, with the entries of `m₀` loaded. -/
def hashedSystem (firstByte : Num → Int) (m₀ : MemTables) (now : Int) :
    TransitionSystem HashedTables TableEvent where
  init h := HashedTables.start m₀ now = .ok h
  step h e h' := e.applyHashed firstByte h = .ok h'

/-- On the way through the events `as`, a count of a hash table would pass its range: in
the start, or in one of the events. -/
def HashOverflows (firstByte : Num → Int) (m₀ : MemTables) (now : Int)
    (as : List TableEvent) : Prop :=
  HashedTables.start m₀ now = .error (.uthash .overflow) ∨
    ∃ as' e h, as' ++ [e] <+: as ∧ (hashedSystem firstByte m₀ now).Run as' h ∧
      e.applyHashed firstByte h = .error (.uthash .overflow)

/-! ## Refinement -/

/-- What `HASH_FSCK` checks, of every table: the chains hold the handles of the elements, and the
counts are right. -/
structure HashedTables.Fsck (h : HashedTables) : Prop where
  stats : h.stats.Fsck fun s => s.name.memory
  counters : h.counters.Fsck StatsdCounter.key
  gauges : h.gauges.Fsck StatsdGauge.key
  timers : h.timers.Fsck StatsdTimer.key

/-- **The hashed tables stand for the lists** `m`: the same elements in the same order, in tables
that are in order. -/
structure HashedTables.Stands (h : HashedTables) (m : MemTables) : Prop where
  mem : h.mem = m
  fsck : h.Fsck

/-- A fault that the function on lists has as well. -/
def HashedFault.OfDaemon {ε : Type} (e : HashedFault) (_ : ε) : Prop := ∃ fault, e = .daemon fault

/-- A count that would pass its range, which does not happen while there is `room`. -/
def HashedFault.Overflow (room : Prop) (e : HashedFault) : Prop :=
  e = .uthash .overflow ∧ ¬ room

theorem HashedFault.Overflow.of_imp {room room' : Prop} {e : HashedFault}
    (himp : room' → room) (h : e.Overflow room) : e.Overflow room' :=
  ⟨h.1, fun hroom => h.2 (himp hroom)⟩

/-- The two computations do the same to the tables, unless a count passes its range, which needs
tables without room. -/
def SameTables {ε : Type} (room : Prop) :
    Except HashedFault HashedTables → Except ε MemTables → Prop :=
  Alike HashedTables.Stands HashedFault.OfDaemon (HashedFault.Overflow room)

/-- Names whose strings are unique have unique bytes. -/
theorem MemState.memory_nodup {m : MemTables} (h : MemState m) :
    (m.stats.map fun s => s.name.memory).Nodup := by
  have hstats := h.unique.stats
  rw [MemTables.tables, List.map_map] at hstats
  have hpairwise := List.pairwise_map.mp hstats
  refine List.pairwise_map.mpr ((List.pairwise_iff_forall_sublist.mpr ?_))
  intro s s' hsub heq
  have hs : s ∈ m.stats := hsub.subset (List.mem_cons_self ..)
  have hs' : s' ∈ m.stats := hsub.subset (List.mem_cons_of_mem _ (List.mem_singleton_self s'))
  exact List.pairwise_iff_forall_sublist.mp hpairwise hsub
    ((StatNameBytes.memory_eq_iff (h.padded s hs) (h.padded s' hs')).mp heq)

section Stands
variable {h : HashedTables} {m : MemTables}

theorem alike_tableFault {α : Type} {room : Prop} (x : Except TableFault α) :
    Alike Eq HashedFault.OfDaemon (HashedFault.Overflow room)
      (x.mapError HashedTables.tableFault) x :=
  alike_mapError (fun e => ⟨.table e, rfl⟩) x

/-- Two computations that end with the same fault of the functions on tables. -/
theorem same_tableFault {ε : Type} {room : Prop} (fault : TableFault) (e : ε) :
    SameTables room (.error (HashedTables.tableFault fault)) (.error e) :=
  Alike.error ⟨.table fault, rfl⟩

/-- An addition to one of the tables is one at the end of its list. -/
theorem hashAdd_same {ε ε' : Type} {room : Prop} {keyOf : ε → List Char} {u : UtHash ε}
    (set : UtHash ε → HashedTables) (set' : List ε → MemTables) (hu : u.Fsck keyOf)
    (hroom : room → u.HasRoom)
    (hset : ∀ u', u'.Fsck keyOf → (set u').Stands (set' u'.elements)) (e : ε) :
    SameTables room
      ((u.hashAdd (keyOf e) e).mapError HashedFault.uthash >>= fun u' => .ok (set u'))
      (.ok (set' (u.elements ++ [e])) : Except ε' MemTables) := by
  rcases hu.hashAdd e with ⟨u', hadd, helements, hu'⟩ | ⟨herror, hfull⟩
  · rw [hadd, ← helements]
    exact Alike.ok (hset u' hu')
  · rw [herror]
    exact Alike.limit ⟨rfl, fun h => hfull (hroom h)⟩

/-- An update of a stat that is there, or a new stat behind the others. -/
theorem updateStat_same (hs : h.Stands m) (hm : MemState m) (group key value : CString) :
    SameTables h.HasRoom (h.updateStat group key value) (m.updateStat group key value) := by
  obtain ⟨rfl, hf⟩ := hs
  refine (alike_tableFault _).bind fun l _ _ hl => ?_
  subst hl
  rw [hf.stats.hashFind_eq hm.memory_nodup]
  show Alike _ _ _ _ (match find (fun s => s.name.memory) h.stats.elements l.memory with
    | some s => _ | none => _)
  cases find (fun s : MemStat => s.name.memory) h.stats.elements l.memory with
  | some s =>
    exact Alike.ok ⟨rfl, hf.stats.modify fun _ => rfl, hf.counters, hf.gauges, hf.timers⟩
  | none =>
    refine (alike_tableFault _).bind fun name _ _ hname => ?_
    subst hname
    exact hashAdd_same (fun u => { h with stats := u })
      (fun es => { h.mem with stats := es }) hf.stats HashedTables.HasRoom.stats
      (fun u hu => ⟨rfl, hu, hf.counters, hf.gauges, hf.timers⟩) ⟨name, atol value, false⟩

theorem updateCounter_same (hs : h.Stands m) (hm : MemState m) (key : CString)
    (value sampleRate : Num) :
    SameTables h.HasRoom (h.updateCounter key value sampleRate)
      (m.metricCall (.updateCounter (some key) value sampleRate)) := by
  obtain ⟨rfl, hf⟩ := hs
  unfold HashedTables.updateCounter MemTables.metricCall MetricCall.apply updateCounter
  rw [hf.counters.hashFind_eq hm.unique.metrics.counters]
  show SameTables _ _ (Except.bind (match find StatsdCounter.key h.counters.elements key with
    | some c => _ | none => _) _)
  cases find StatsdCounter.key h.counters.elements key with
  | some c =>
    exact Alike.ok ⟨rfl, hf.stats, hf.counters.modify fun _ => rfl, hf.gauges, hf.timers⟩
  | none =>
    cases strcpyKey key with
    | error e => exact same_tableFault e _
    | ok key =>
      exact hashAdd_same (fun u => { h with counters := u })
        (fun es => { h.mem with counters := es }) hf.counters HashedTables.HasRoom.counters
        (fun u hu => ⟨rfl, hf.stats, hu, hf.gauges, hf.timers⟩)
        ⟨key, contribution value sampleRate⟩

theorem updateTimer_same (hs : h.Stands m) (hm : MemState m) (key : CString) (value : Num) :
    SameTables h.HasRoom (h.updateTimer key value)
      (m.metricCall (.updateTimer (some key) value)) := by
  obtain ⟨rfl, hf⟩ := hs
  unfold HashedTables.updateTimer MemTables.metricCall MetricCall.apply updateTimer
  rw [hf.timers.hashFind_eq hm.unique.metrics.timers]
  show SameTables _ _ (Except.bind (match find StatsdTimer.key h.timers.elements key with
    | some s => _ | none => _) _)
  cases find StatsdTimer.key h.timers.elements key with
  | some s =>
    exact Alike.ok ⟨rfl, hf.stats, hf.counters, hf.gauges, hf.timers.modify fun _ => rfl⟩
  | none =>
    cases strcpyKey key with
    | error e => exact same_tableFault e _
    | ok key =>
      exact hashAdd_same (fun u => { h with timers := u })
        (fun es => { h.mem with timers := es }) hf.timers HashedTables.HasRoom.timers
        (fun u hu => ⟨rfl, hf.stats, hf.counters, hf.gauges, hu⟩) ⟨key, 1, [value]⟩

theorem updateGaugePlusminus_same (hs : h.Stands m) (hm : MemState m) (key : CString)
    (value : Num) (plusminus : Int) :
    SameTables h.HasRoom (h.updateGaugePlusminus key value plusminus)
      (m.metricCall (.updateGaugePlusminus (some key) value plusminus)) := by
  obtain ⟨rfl, hf⟩ := hs
  unfold HashedTables.updateGaugePlusminus MemTables.metricCall MetricCall.apply
    updateGaugePlusminus
  rw [hf.gauges.hashFind_eq hm.unique.metrics.gauges]
  show SameTables _ _ (Except.bind (match find StatsdGauge.key h.gauges.elements key with
    | some g => _ | none => _) _)
  cases find StatsdGauge.key h.gauges.elements key with
  | some g =>
    exact Alike.ok ⟨rfl, hf.stats, hf.counters, hf.gauges.modify fun _ => rfl, hf.timers⟩
  | none =>
    cases strcpyKey key with
    | error e => exact same_tableFault e _
    | ok key =>
      cases plusminusValue 0 value plusminus with
      | none => exact same_tableFault .gaugeUnset _
      | some value =>
        exact hashAdd_same (fun u => { h with gauges := u })
          (fun es => { h.mem with gauges := es }) hf.gauges HashedTables.HasRoom.gauges
          (fun u hu => ⟨rfl, hf.stats, hf.counters, hu, hf.timers⟩) ⟨key, value⟩

/-- A metric call does to the hash tables what it does to the lists. -/
theorem metricCall_same (hs : h.Stands m) (hm : MemState m) (call : MetricCall Num) :
    SameTables h.HasRoom (h.metricCall call) (m.metricCall call) := by
  cases call with
  | updateCounter key value sampleRate =>
    cases key with
    | none => exact same_tableFault .nullKey _
    | some key => exact updateCounter_same hs hm key value sampleRate
  | updateTimer key value =>
    cases key with
    | none => exact same_tableFault .nullKey _
    | some key => exact updateTimer_same hs hm key value
  | updateGaugePlusminus key value plusminus =>
    cases key with
    | none => exact same_tableFault .nullKey _
    | some key => exact updateGaugePlusminus_same hs hm key value plusminus

/-- What the loops of a pass leave is unique as well. -/
theorem MemState.flushed (hm : MemState m) {firstByte : Num → Int} {cfg : FlushConfig} {ts : Int}
    {r : List (StatsdTimer Num) × Report Num}
    (htimers : flushTimers firstByte cfg ts m.timers = .ok r) :
    MemState { m with counters := m.counters.map fun c => (flushCounter cfg ts c).1
                      timers := r.1 } := by
  refine ⟨hm.padded, hm.unique.stats, ?_, hm.unique.metrics.gauges, ?_⟩
  · show ((m.counters.map fun c => (flushCounter cfg ts c).1).map StatsdCounter.key).Nodup
    rw [List.map_map]
    exact hm.unique.metrics.counters
  · show (r.1.map StatsdTimer.key).Nodup
    rw [flushTimers_keys htimers]
    exact hm.unique.metrics.timers

/-- A flush pass walks over the same elements. -/
theorem flushPass_same (hs : h.Stands m) (hm : MemState m) (firstByte : Num → Int)
    (cfg : FlushConfig) (env : FlushEnv) :
    SameTables h.HasRoom (h.flushPass firstByte cfg env) (m.flushPass firstByte cfg env) := by
  obtain ⟨rfl, hf⟩ := hs
  unfold HashedTables.flushPass MemTables.flushPass
  show SameTables _ _ (match flushTimers firstByte cfg env.ts h.timers.elements with
    | .error e => _ | .ok (timers, _) => _)
  cases htimers : flushTimers firstByte cfg env.ts h.timers.elements with
  | error e => exact Alike.error ⟨.flush e, rfl⟩
  | ok r =>
    have hstands : HashedTables.Stands
        { h with
          counters := { h.counters with
            elements := h.counters.elements.map fun c => (flushCounter cfg env.ts c).1 }
          timers := { h.timers with elements := r.1 } }
        { h.mem with
          counters := h.mem.counters.map fun c => (flushCounter cfg env.ts c).1
          timers := r.1 } := by
      refine ⟨rfl, hf.stats, hf.counters.withElements ?_, hf.gauges, hf.timers.withElements ?_⟩
      · rw [List.map_map]
        rfl
      · exact flushTimers_keys htimers
    dsimp only
    split
    · -- the loops have left the tables of the hash values as they are
      have hsame := updateStat_same hstands (hm.flushed htimers) "graphite".toList
        "last_flush".toList (printD env.now)
      refine Alike.mapError_right (Alike.limit_imp hsame fun _ he => ?_) fun _ _ he => he
      exact he.of_imp fun hroom => ⟨hroom.stats, hroom.counters, hroom.gauges, hroom.timers⟩
    · exact Alike.ok hstands

theorem MemState.updateStat (hm : MemState m) {group key value : CString} {m' : MemTables}
    (hgroup : nul ∉ group) (hkey : nul ∉ key) (hok : m.updateStat group key value = .ok m') :
    MemState m' := by
  obtain ⟨hupdate, hpadded⟩ := updateStat_refines hm.padded hgroup hkey hok
  exact ⟨hpadded, hm.unique.updateStat hupdate⟩

/-- `init_stats` makes three additions, the bounds of which are not told apart. -/
theorem initStats_same (hs : h.Stands m) (hm : MemState m) (now : Int) :
    SameTables False (h.initStats now) (m.initStats now) := by
  obtain ⟨hmessages, hlast, -⟩ := nul_notMem_messages
  refine ((updateStat_same hs hm _ _ _).limit_imp fun _ => .of_imp False.elim).bind
    fun h₁ m₁ hok₁ hs₁ => ?_
  have hm₁ := hm.updateStat nul_notMem_lastFlush.1 nul_notMem_lastFlush.2 hok₁
  refine ((updateStat_same hs₁ hm₁ _ _ _).limit_imp fun _ => .of_imp False.elim).bind
    fun h₂ m₂ hok₂ hs₂ => ?_
  exact (updateStat_same hs₂ (hm₁.updateStat hmessages hlast hok₂) _ _ _).limit_imp
    fun _ => .of_imp False.elim

/-- One event does to the hash tables what it does to the lists, unless a count passes its range. -/
theorem applyHashed_same (hs : h.Stands m) (hm : MemState m) (firstByte : Num → Int)
    (e : TableEvent) :
    SameTables h.HasRoom (e.applyHashed firstByte h) (e.apply firstByte m) := by
  cases e with
  | updateStat group key value hgroup hkey =>
    exact (updateStat_same hs hm group key value).mapError_right fun _ _ he => he
  | metricCall call => exact (metricCall_same hs hm call).mapError_right fun _ _ he => he
  | flush cfg env => exact (flushPass_same hs hm firstByte cfg env).mapError_right fun _ _ he => he

end Stands

/-- A table that the elements are added to, one after another, has them in that order. -/
theorem hashAddAll_ok {ε : Type} {keyOf : ε → List Char} {u : UtHash ε} (hu : u.Fsck keyOf)
    (es : List ε) :
    (∃ u', es.foldlM (fun u e => u.hashAdd (keyOf e) e) u = .ok u' ∧
      u'.elements = u.elements ++ es ∧ u'.Fsck keyOf) ∨
      es.foldlM (fun u e => u.hashAdd (keyOf e) e) u = .error .overflow := by
  induction es generalizing u with
  | nil => exact .inl ⟨u, rfl, (List.append_nil _).symm, hu⟩
  | cons e es ih =>
    rw [List.foldlM_cons]
    rcases hu.hashAdd e with ⟨u₁, hadd, helements, hu₁⟩ | ⟨herror, -⟩
    · rw [hadd, ok_bind]
      rcases ih hu₁ with ⟨u', hfold, helements', hu'⟩ | herror
      · refine .inl ⟨u', hfold, ?_, hu'⟩
        rw [helements', helements, List.append_assoc, List.singleton_append]
      · exact .inr herror
    · rw [herror]
      exact .inr rfl

/-- What is loaded from a file stands for the entries of the file. -/
theorem load_stands (m : MemTables) :
    (∃ h, HashedTables.load m = .ok h ∧ h.Stands m) ∨ HashedTables.load m = .error .overflow := by
  unfold HashedTables.load
  rcases hashAddAll_ok (fsck_null _) m.stats with
    ⟨stats, hstats, hstatsElements, hstatsFsck⟩ | herror
  swap
  · rw [herror]
    exact .inr rfl
  rcases hashAddAll_ok (fsck_null _) m.timers with
    ⟨timers, htimers, htimersElements, htimersFsck⟩ | herror
  swap
  · rw [hstats, ok_bind, herror]
    exact .inr rfl
  rcases hashAddAll_ok (fsck_null _) m.gauges with
    ⟨gauges, hgauges, hgaugesElements, hgaugesFsck⟩ | herror
  swap
  · rw [hstats, ok_bind, htimers, ok_bind, herror]
    exact .inr rfl
  rcases hashAddAll_ok (fsck_null _) m.counters with
    ⟨counters, hcounters, hcountersElements, hcountersFsck⟩ | herror
  swap
  · rw [hstats, ok_bind, htimers, ok_bind, hgauges, ok_bind, herror]
    exact .inr rfl
  refine .inl ⟨⟨stats, counters, gauges, timers⟩, ?_, ?_,
    hstatsFsck, hcountersFsck, hgaugesFsck, htimersFsck⟩
  · rw [hstats, ok_bind, htimers, ok_bind, hgauges, ok_bind, hcounters]
    rfl
  · rw [HashedTables.mem, hstatsElements, hcountersElements, hgaugesElements, htimersElements]
    rfl

/-- The start, with or without a file, leaves tables that stand for the lists. -/
theorem start_same {m₀ : MemTables} (hload : Loaded m₀) (now : Int) :
    SameTables False (HashedTables.start m₀ now) (m₀.initStats now) := by
  unfold HashedTables.start
  rcases load_stands m₀ with ⟨h₀, hloaded, hs⟩ | herror
  · rw [hloaded]
    exact initStats_same hs hload.memState now
  · rw [herror]
    exact Alike.limit ⟨rfl, not_false⟩

/-! ## Runs -/

section Runs
variable {firstByte : Num → Int} {m₀ : MemTables} {now : Int}

theorem tableSystemFrom_run (hload : Loaded m₀) {as : List TableEvent} {m : MemTables}
    (hrun : (tableSystemFrom firstByte m₀ now).Run as m) : (tableSystem firstByte).Run as m := by
  induction hrun with
  | start hinit => exact .start ⟨m₀, now, hload, hinit⟩
  | next _ hstep ih => exact ih.next hstep

/-- A run over the hashed tables is one over the lists, by induction over its events. -/
theorem hashedRun_stands (hload : Loaded m₀) {as : List TableEvent} {h : HashedTables}
    (hrun : (hashedSystem firstByte m₀ now).Run as h) :
    (tableSystemFrom firstByte m₀ now).Run as h.mem ∧ h.Stands h.mem := by
  refine hrun.invariant
    (I := fun as h => (tableSystemFrom firstByte m₀ now).Run as h.mem ∧ h.Stands h.mem) ?_ ?_
  · intro h hinit
    obtain ⟨m, hm, rfl, hf⟩ := (start_same hload now).of_left hinit
    exact ⟨.start hm, rfl, hf⟩
  · rintro as h e h' ⟨hrun, hs⟩ hstep
    have hm := reachable_memState ⟨as, tableSystemFrom_run hload hrun⟩
    obtain ⟨m', hstep', rfl, hf⟩ := (applyHashed_same hs hm firstByte e).of_left hstep
    exact ⟨hrun.next hstep', rfl, hf⟩

/-- The only fault of uthash that an event can have. -/
theorem applyHashed_uthash {h : HashedTables} (hs : h.Stands h.mem) (hm : MemState h.mem)
    {e : TableEvent} {fault : UtFault}
    (hfault : e.applyHashed firstByte h = .error (.uthash fault)) :
    fault = .overflow ∧ ¬ h.HasRoom := by
  have hsame := applyHashed_same hs hm firstByte e
  rw [hfault] at hsame
  generalize e.apply firstByte h.mem = y at hsame
  cases hsame with
  | error hdaemon =>
    obtain ⟨d, hd⟩ := hdaemon
    cases hd
  | limit hover =>
    obtain ⟨hoverflow, hroom⟩ := hover
    cases hoverflow
    exact ⟨rfl, hroom⟩

/-- A run over the lists is one over the hashed tables, as far as their counts go. -/
theorem hashedRun_of_run (hload : Loaded m₀) {as : List TableEvent} {m : MemTables}
    (hrun : (tableSystemFrom firstByte m₀ now).Run as m) :
    (∃ h, (hashedSystem firstByte m₀ now).Run as h ∧ h.mem = m) ∨
      HashOverflows firstByte m₀ now as := by
  induction hrun with
  | start hinit =>
    rcases (start_same hload now).of_right hinit with ⟨h, hh, hs⟩ | ⟨e, he, rfl, -⟩
    · exact .inl ⟨h, .start hh, hs.mem⟩
    · exact .inr (.inl he)
  | @next as m m' e hrun hstep ih =>
    rcases ih with ⟨h, hrunh, rfl⟩ | hover | ⟨as', e', h, hprefix, hrun', hover⟩
    · have hs := (hashedRun_stands hload hrunh).2
      have hm := reachable_memState ⟨_, tableSystemFrom_run hload hrun⟩
      rcases (applyHashed_same hs hm firstByte e).of_right hstep with
        ⟨h', hstep', hs'⟩ | ⟨fault, hfault, rfl, -⟩
      · exact .inl ⟨h', hrunh.next hstep', hs'.mem⟩
      · exact .inr (.inr ⟨as, e, h, List.prefix_refl _, hrunh, hfault⟩)
    · exact .inr (.inl hover)
    · exact .inr (.inr ⟨as', e', h, hprefix.trans (List.prefix_append ..), hrun', hover⟩)

/-- **The runs are the same.**  From the same file, a run of the daemon over its hash tables
is a run over lists of entries in the order of insertion, with the same events; in every
state each table passes `HASH_FSCK`, a lookup finds the entry that a search of the list
finds, no event divides by zero in an expansion, and none takes a count past its range
while there is room.  The other way round, a run over the lists is a run over the hash
tables, unless a count passes its range on the way. -/
theorem hashedRun_refines (firstByte : Num → Int) :
    (∀ m₀ now, Loaded m₀ → ∀ as h, (hashedSystem firstByte m₀ now).Run as h →
      (tableSystemFrom firstByte m₀ now).Run as h.mem ∧ h.Fsck ∧
      (∀ k, h.counters.hashFind k = find StatsdCounter.key h.counters.elements k) ∧
      (∀ k, h.gauges.hashFind k = find StatsdGauge.key h.gauges.elements k) ∧
      (∀ k, h.timers.hashFind k = find StatsdTimer.key h.timers.elements k) ∧
      (∀ k, h.stats.hashFind k = find (fun s => s.name.memory) h.stats.elements k) ∧
      ∀ e fault, TableEvent.applyHashed firstByte h e = .error (.uthash fault) →
        fault = .overflow ∧ ¬ h.HasRoom) ∧
    ∀ m₀ now, Loaded m₀ → ∀ as m, (tableSystemFrom firstByte m₀ now).Run as m →
      (∃ h, (hashedSystem firstByte m₀ now).Run as h ∧ h.mem = m) ∨
        HashOverflows firstByte m₀ now as := by
  refine ⟨fun m₀ now hload as h hrun => ?_, fun m₀ now hload as m => hashedRun_of_run hload⟩
  obtain ⟨hrun', hs⟩ := hashedRun_stands hload hrun
  have hm := reachable_memState ⟨as, tableSystemFrom_run hload hrun'⟩
  have hf := hs.fsck
  exact ⟨hrun', hf, hf.counters.hashFind_eq hm.unique.metrics.counters,
    hf.gauges.hashFind_eq hm.unique.metrics.gauges,
    hf.timers.hashFind_eq hm.unique.metrics.timers, hf.stats.hashFind_eq hm.memory_nodup,
    fun e fault => applyHashed_uthash hs hm⟩

/-- Without a snapshot the daemon starts. -/
example : (HashedTables.start .empty 0).toOption.isSome = true := by decide +kernel

end Runs
end StatsdC
