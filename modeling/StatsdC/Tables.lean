import Mathlib.Algebra.Notation.Defs
import StatsdC.Lib.Fallible
import StatsdC.Lib.OrderedTable
import StatsdC.Numbers
import StatsdC.Packet

/-!
# The metric tables

The four hash tables of the daemon and the functions that update them.  A table is the list of its
entries in insertion order; a pointer to an entry, as `HASH_FIND` returns it, is a position.  Keys
are unique, so the order in which a bucket is searched does not matter.  The buckets themselves are
in `StatsdC.UtHash`, and `StatsdC.HashedTables` shows that the tables over buckets behave like
these lists.

A key is copied into a field of 100 bytes.  The copy that does not fit, and the other accesses
without a meaning in C, are faults.  A stat's name is a pair of two such fields, compared as bytes;
that comparing the texts comes to the same is shown in `StatsdC.StatNames`.

The number type is a parameter: the `long double` of the counters and gauges and the `double` of
the samples are one type here, with the operations the functions use.  The number of samples of a
timer is a natural number, and the program keeps it in an `int`.  So what is said of a timer is
about fewer than `2 ^ 31` samples between two passes; `StatsdC.TimerArrays` has the count with its
overflow as a fault, and the arrays of the samples besides.

The threads and their locks are not here.  Every function is what it does when nothing interferes;
what can happen in between is in `StatsdC.CounterThreads`, `StatsdC.TimerThreads` and
`StatsdC.Locks`.
-/

namespace StatsdC
open OrderedTable Fallible

/-- The size of a key field, in all four kinds of entries. -/
def keySize : Nat := 100

/-- `statsd_counter_t`: the value since the last pass, and the key. -/
structure StatsdCounter (α : Type) where
  key : CString
  value : α
  deriving DecidableEq

/-- `statsd_gauge_t`: the last value, which no pass clears. -/
structure StatsdGauge (α : Type) where
  key : CString
  value : α
  deriving DecidableEq

/-- `statsd_timer_t`: the samples since the last pass and their number, which the program keeps in
an `int`.  Nothing is said about `2 ^ 31` samples and more. -/
structure StatsdTimer (α : Type) where
  key : CString
  count : Nat
  values : List α
  deriving DecidableEq

/-- `statsd_stat_name_t`, as the strings in its two fields.  A field of exactly 100 bytes has no NUL
of its own. -/
structure StatsdStatName where
  groupName : CString
  keyName : CString
  deriving DecidableEq

/-- `statsd_stat_t`.  The flag `locked` is cleared in a new entry, and no function here looks at it.
-/
structure StatsdStat where
  name : StatsdStatName
  value : Int
  locked : Bool
  deriving DecidableEq

/-- The four tables, each a list of its entries in the order of their insertion, which is the order
in which every loop of the program goes through them. -/
structure Tables (α : Type) where
  stats : List StatsdStat
  counters : List (StatsdCounter α)
  gauges : List (StatsdGauge α)
  timers : List (StatsdTimer α)
  deriving DecidableEq

/-- The tables at the start of the process. -/
def Tables.empty {α : Type} : Tables α := ⟨[], [], [], []⟩

/-- An access without a meaning: a key that is `NULL` or does not fit its field, or a value that was
never assigned. -/
inductive TableFault where
  /-- `NULL` used as a key. -/
  | nullKey
  /-- A text copied into a field that it does not fit. -/
  | keyOverflow
  /-- The value of a new gauge not assigned. -/
  | gaugeUnset
  deriving DecidableEq

/-- `strcpy` into a key field.  A key of 100 bytes has no room for its NUL. -/
def strcpyKey (key : CString) : Except TableFault CString :=
  if key.length < keySize then .ok key else .error .keyOverflow

theorem strcpyKey_of_lt {key : CString} (h : key.length < keySize) : strcpyKey key = .ok key :=
  if_pos h

theorem strcpyKey_eq_ok {key key' : CString} (h : strcpyKey key = .ok key') :
    key' = key ∧ key.length < keySize := by
  unfold strcpyKey at h
  split at h
  · exact ⟨(Except.ok.inj h).symm, by assumption⟩
  · cases h

/-- `update_stat`: the value is read with `atol` from its text, and the entry is found by the two
parts of its name. -/
def updateStat {α : Type} (t : Tables α) (group key value : CString) :
    Except TableFault (Tables α) := do
  -- both parts are copied before the lookup
  let name : StatsdStatName := ⟨← strcpyKey group, ← strcpyKey key⟩
  match find StatsdStat.name t.stats name with
  | some s => .ok { t with stats := t.stats.modify s fun s => { s with value := atol value } }
  | none => .ok { t with stats := t.stats ++ [⟨name, atol value, false⟩] }

section Update
variable {α : Type} [Add α] [Sub α] [Mul α] [Div α] [Zero α] [One α] [BEq α]

/-- What a counter update adds.  A rate of zero stands for none, and by the inverse of any other the
value is multiplied. -/
def contribution (value sampleRate : α) : α :=
  if sampleRate == 0 then value else value * (1 / sampleRate)

/-- `update_counter`: an entry that is there grows by the contribution, and a missing one is made of
it. -/
def updateCounter (t : Tables α) (key : CString) (value sampleRate : α) :
    Except TableFault (Tables α) := do
  match find StatsdCounter.key t.counters key with
  | some c =>
    .ok { t with
      counters := t.counters.modify c fun c =>
        { c with value := c.value + contribution value sampleRate } }
  | none =>
    let key ← strcpyKey key
    .ok { t with counters := t.counters ++ [⟨key, contribution value sampleRate⟩] }

/-- The branches on `plusminus` that set the value of a gauge, given its old one.  The last one only
logs an error. -/
def plusminusValue (old value : α) (plusminus : Int) : Option α :=
  if plusminus < 1 then some value
  else if plusminus < 2 then some (old - value)
  else if plusminus < 3 then some (old + value)
  else none

/-- `update_gauge_plusminus`: a gauge that is not there has the old value zero, and is made in the
three known modes. -/
def updateGaugePlusminus (t : Tables α) (key : CString) (value : α) (plusminus : Int) :
    Except TableFault (Tables α) := do
  match find StatsdGauge.key t.gauges key with
  | some g =>
    .ok { t with
      gauges := t.gauges.modify g fun g =>
        { g with value := (plusminusValue g.value value plusminus).getD g.value } }
  | none =>
    let key ← strcpyKey key
    match plusminusValue 0 value plusminus with
    | some value => .ok { t with gauges := t.gauges ++ [⟨key, value⟩] }
    -- the value of the new entry would be what `malloc` left there
    | none => .error .gaugeUnset

end Update

/-- `update_timer`: the sample goes to the end of the array, and the count with it. -/
def updateTimer {α : Type} (t : Tables α) (key : CString) (value : α) :
    Except TableFault (Tables α) := do
  match find StatsdTimer.key t.timers key with
  | some s =>
    .ok { t with
      timers := t.timers.modify s fun s =>
        { s with values := s.values ++ [value], count := s.count + 1 } }
  | none =>
    let key ← strcpyKey key
    .ok { t with timers := t.timers ++ [⟨key, 1, [value]⟩] }

section Apply
variable {α : Type} [Add α] [Sub α] [Mul α] [Div α] [Zero α] [One α] [BEq α]

/-- The effect of a call on the tables, which is that of the function it calls. -/
def MetricCall.apply (t : Tables α) (call : MetricCall α) : Except TableFault (Tables α) :=
  match call with
  | .updateCounter (some key) value sampleRate => StatsdC.updateCounter t key value sampleRate
  | .updateTimer (some key) value => StatsdC.updateTimer t key value
  | .updateGaugePlusminus (some key) value plusminus =>
    StatsdC.updateGaugePlusminus t key value plusminus
  | .updateCounter none _ _ | .updateTimer none _ | .updateGaugePlusminus none _ _ =>
    .error .nullKey

/-- The effect of a sequence of calls. -/
def applyMetricCalls (t : Tables α) (calls : List (MetricCall α)) : Except TableFault (Tables α) :=
  calls.foldlM (fun t call => call.apply t) t

end Apply

/-! ## The keys after an update -/

/-- The keys of a table after an update under `key`: as they were, or with `key` at the end if it is
new.  No update takes an entry out. -/
inductive KeysAfter (key : CString) (keys : List CString) : List CString → Prop where
  | same : KeysAfter key keys keys
  | new : key ∉ keys → key.length < keySize → KeysAfter key keys (keys ++ [key])

theorem KeysAfter.nodup {key : CString} {keys keys' : List CString} (h : KeysAfter key keys keys')
    (hnd : keys.Nodup) : keys'.Nodup := by
  cases h with
  | same => exact hnd
  | new hnew _ =>
    refine List.nodup_append.mpr ⟨hnd, List.nodup_singleton key, ?_⟩
    rintro a ha b hb rfl
    exact hnew (List.mem_singleton.mp hb ▸ ha)

section Keys
variable {ε : Type} {keyOf : ε → CString} {table : List ε} {key : CString}

theorem keysAfter_modify {i : Nat} {g : ε → ε} (hg : ∀ e, keyOf (g e) = keyOf e) :
    KeysAfter key (table.map keyOf) ((table.modify i g).map keyOf) := by
  rw [map_modify hg]
  exact .same

theorem keysAfter_append {e : ε} (hkey : keyOf e = key) (hfind : find keyOf table key = none)
    (hlt : key.length < keySize) :
    KeysAfter key (table.map keyOf) ((table ++ [e]).map keyOf) := by
  rw [List.map_append, List.map_singleton, hkey]
  exact .new (notMem_keys_of_find hfind) hlt

variable {α : Type} {t t' : Tables α}

/-- What `update_counter` does: it adds to an entry, or appends one whose key fits its field. -/
theorem updateCounter_cases [Add α] [Mul α] [Div α] [Zero α] [One α] [BEq α]
    {value sampleRate : α} (h : updateCounter t key value sampleRate = .ok t') :
    (∃ i, find StatsdCounter.key t.counters key = some i ∧
      t' = { t with
        counters := t.counters.modify i fun c =>
          { c with value := c.value + contribution value sampleRate } }) ∨
    (find StatsdCounter.key t.counters key = none ∧ key.length < keySize ∧
      t' = { t with counters := t.counters ++ [⟨key, contribution value sampleRate⟩] }) := by
  unfold updateCounter at h
  split at h
  · rename_i i hfind
    exact .inl ⟨i, hfind, (Except.ok.inj h).symm⟩
  · rename_i hfind
    obtain ⟨key', hkey, hok⟩ := bind_eq_ok.mp h
    obtain ⟨rfl, hlt⟩ := strcpyKey_eq_ok hkey
    exact .inr ⟨hfind, hlt, (Except.ok.inj hok).symm⟩

theorem updateCounter_keys [Add α] [Mul α] [Div α] [Zero α] [One α] [BEq α]
    {value sampleRate : α}
    (h : updateCounter t key value sampleRate = .ok t') :
    ∃ counters, t' = { t with counters } ∧
      KeysAfter key (t.counters.map StatsdCounter.key) (counters.map StatsdCounter.key) := by
  obtain ⟨i, -, rfl⟩ | ⟨hfind, hlt, rfl⟩ := updateCounter_cases h
  · exact ⟨_, rfl, keysAfter_modify fun _ => rfl⟩
  · exact ⟨_, rfl, keysAfter_append rfl hfind hlt⟩

/-- What `update_timer` does: it appends the sample to those of an entry, or an entry with it whose
key fits its field. -/
theorem updateTimer_cases {value : α} (h : updateTimer t key value = .ok t') :
    (∃ i, find StatsdTimer.key t.timers key = some i ∧
      t' = { t with
        timers := t.timers.modify i fun s =>
          { s with values := s.values ++ [value], count := s.count + 1 } }) ∨
    (find StatsdTimer.key t.timers key = none ∧ key.length < keySize ∧
      t' = { t with timers := t.timers ++ [⟨key, 1, [value]⟩] }) := by
  unfold updateTimer at h
  split at h
  · rename_i i hfind
    exact .inl ⟨i, hfind, (Except.ok.inj h).symm⟩
  · rename_i hfind
    obtain ⟨key', hkey, hok⟩ := bind_eq_ok.mp h
    obtain ⟨rfl, hlt⟩ := strcpyKey_eq_ok hkey
    exact .inr ⟨hfind, hlt, (Except.ok.inj hok).symm⟩

theorem updateTimer_keys {value : α} (h : updateTimer t key value = .ok t') :
    ∃ timers, t' = { t with timers } ∧
      KeysAfter key (t.timers.map StatsdTimer.key) (timers.map StatsdTimer.key) := by
  obtain ⟨i, -, rfl⟩ | ⟨hfind, hlt, rfl⟩ := updateTimer_cases h
  · exact ⟨_, rfl, keysAfter_modify fun _ => rfl⟩
  · exact ⟨_, rfl, keysAfter_append rfl hfind hlt⟩

theorem updateGaugePlusminus_keys [Add α] [Sub α] [Zero α] {value : α} {plusminus : Int}
    (h : updateGaugePlusminus t key value plusminus = .ok t') :
    ∃ gauges, t' = { t with gauges } ∧
      KeysAfter key (t.gauges.map StatsdGauge.key) (gauges.map StatsdGauge.key) := by
  unfold updateGaugePlusminus at h
  split at h
  · obtain rfl := Except.ok.inj h
    exact ⟨_, rfl, keysAfter_modify fun _ => rfl⟩
  · rename_i hfind
    obtain ⟨key', hkey, hok⟩ := bind_eq_ok.mp h
    obtain ⟨rfl, hlt⟩ := strcpyKey_eq_ok hkey
    split at hok
    · obtain rfl := Except.ok.inj hok
      exact ⟨_, rfl, keysAfter_append rfl hfind hlt⟩
    · cases hok

/-- **What a call does**: it updates one of the three tables under its key and leaves the other
tables alone.  A key that is new fits its field then. -/
theorem MetricCall.apply_cases [Add α] [Sub α] [Mul α] [Div α] [Zero α] [One α] [BEq α]
    {call : MetricCall α} (h : call.apply t = .ok t') :
    ∃ key, call.key = some key ∧
      ((∃ counters, t' = { t with counters } ∧
          KeysAfter key (t.counters.map StatsdCounter.key) (counters.map StatsdCounter.key)) ∨
        (∃ timers, t' = { t with timers } ∧
          KeysAfter key (t.timers.map StatsdTimer.key) (timers.map StatsdTimer.key)) ∨
        ∃ gauges, t' = { t with gauges } ∧
          KeysAfter key (t.gauges.map StatsdGauge.key) (gauges.map StatsdGauge.key)) := by
  cases call with
  | updateCounter key value sampleRate =>
    cases key with
    | none => cases h
    | some key => exact ⟨key, rfl, .inl (updateCounter_keys h)⟩
  | updateTimer key value =>
    cases key with
    | none => cases h
    | some key => exact ⟨key, rfl, .inr (.inl (updateTimer_keys h))⟩
  | updateGaugePlusminus key value plusminus =>
    cases key with
    | none => cases h
    | some key => exact ⟨key, rfl, .inr (.inr (updateGaugePlusminus_keys h))⟩

/-- What `update_stat` does: it sets the value of an entry or adds one. -/
theorem updateStat_cases {group key value : CString} (h : updateStat t group key value = .ok t') :
    (∃ i, find StatsdStat.name t.stats ⟨group, key⟩ = some i ∧
      t' = { t with stats := t.stats.modify i fun s => { s with value := atol value } }) ∨
    (find StatsdStat.name t.stats ⟨group, key⟩ = none ∧
      t' = { t with stats := t.stats ++ [⟨⟨group, key⟩, atol value, false⟩] }) := by
  simp only [updateStat, bind_eq_ok] at h
  obtain ⟨group', hgroup, key', hkey, hok⟩ := h
  obtain ⟨rfl, -⟩ := strcpyKey_eq_ok hgroup
  obtain ⟨rfl, -⟩ := strcpyKey_eq_ok hkey
  split at hok
  · rename_i i hfind
    exact .inl ⟨i, hfind, (Except.ok.inj hok).symm⟩
  · rename_i hfind
    exact .inr ⟨hfind, (Except.ok.inj hok).symm⟩

/-- A call leaves the stats as they are. -/
theorem stats_metricCall [Add α] [Sub α] [Mul α] [Div α] [Zero α] [One α] [BEq α]
    {call : MetricCall α} (h : call.apply t = .ok t') : t'.stats = t.stats := by
  obtain ⟨key, -, ⟨counters, rfl, -⟩ | ⟨timers, rfl, -⟩ | ⟨gauges, rfl, -⟩⟩ := call.apply_cases h
  · rfl
  · rfl
  · rfl

end Keys
end StatsdC
