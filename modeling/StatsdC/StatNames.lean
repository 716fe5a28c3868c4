import StatsdC.Daemon

/-!
# Stat names in memory

A stat's name is two fields of 100 bytes, and `HASH_FIND` compares all 200.  The fields are filled
in two ways: `update_stat` copies whole strings with `strcpy`, `statsd_deserialize` the two parts
of a key with `strncpy`.  Both start from fields of NULs, so that a name is its strings and NULs
behind them, and the comparison of bytes is one of strings (`memory_eq_iff`).

A field that `strncpy` fills to its last byte has no NUL.  The program does not write outside the
field then, but what reads the field as a string goes on into the next one.  So a padded field is
one whose string ends inside it (`NameField.ZeroPadded`), and in the runs considered here a group
of exactly 100 bytes does not come up (`SnapshotSource`).

`MemTables` are the tables with names as bytes.  Each function on them refines the one on `Tables`,
so that nothing about counters or passes has to be proved again, and in every run keys stay unique
(`reachable_memUnique`): no two stats have the same strings in their names, no key is in a metric
table twice, and every byte behind a string is zero.  A run starts with empty tables or with those
that are loaded from a snapshot of tables whose strings fit their fields, and its events are calls
of any kind and passes.

The 200 bytes are what the hash function sees as well, so that two names with the same strings are
also in the same bucket.
-/

namespace StatsdC
open CString OrderedTable Fallible

/-! ## Fields -/

/-- `char group_name[100]` or `char key_name[100]`: all of its bytes, also those behind the NUL,
since `HASH_FIND` compares them. -/
structure NameField where
  bytes : List Char
  length_eq : bytes.length = keySize
  deriving DecidableEq

namespace NameField

/-- `memset` to 0, as every caller does before it copies a string in. -/
def zero : NameField := ⟨List.replicate keySize nul, List.length_replicate⟩

/-- `strcpy`: the string and its NUL, with the bytes behind them as they were.  A string without
room for its NUL is a fault. -/
def strcpy (f : NameField) (s : CString) : Except TableFault NameField :=
  if h : s.length < keySize then
    .ok ⟨s ++ nul :: f.bytes.drop (s.length + 1), by simp [f.length_eq]; omega⟩
  else
    .error .keyOverflow

/-- `strncpy`: at most `n` bytes of the string, and NULs up to `n`.  Only a count beyond the field
is a fault. -/
def strncpy (f : NameField) (s : CString) (n : Nat) : Except TableFault NameField :=
  if h : n ≤ keySize then
    .ok ⟨s.take n ++ List.replicate (n - s.length) nul ++ f.bytes.drop n,
      by simp [f.length_eq]; omega⟩
  else
    .error .keyOverflow

/-- The string in a field, up to the first NUL as the C library reads it. -/
def string (f : NameField) : CString := cstr f.bytes 0

/-- The string ends inside the field, and every byte behind it is zero. -/
structure ZeroPadded (f : NameField) : Prop where
  ends : f.string.length < keySize
  zeros : ∀ b ∈ f.bytes.drop f.string.length, b = nul

variable {f f' : NameField} {s : CString}

/-- A field that consists of a string and NULs is padded, and the string is that one. -/
theorem zeroPadded_of_bytes {k : Nat} (hnul : nul ∉ s) (hlt : s.length < keySize)
    (h : f.bytes = s ++ List.replicate k nul) : f.string = s ∧ f.ZeroPadded := by
  have hlen : s.length + k = keySize := by
    have := f.length_eq
    rwa [h, List.length_append, List.length_replicate] at this
  obtain ⟨k, rfl⟩ : ∃ j, k = j + 1 := ⟨k - 1, by omega⟩
  have hat : StringAt f.bytes 0 s (List.replicate k nul) := ⟨h, hnul⟩
  have hstring : f.string = s := hat.cstr_eq
  refine ⟨hstring, ?_, fun b hb => ?_⟩
  · rwa [hstring]
  · rw [hstring, h, List.drop_left] at hb
    exact List.eq_of_mem_replicate hb

/-- A padded field is its string and NULs. -/
theorem ZeroPadded.bytes_eq (h : f.ZeroPadded) :
    f.bytes = f.string ++ List.replicate (keySize - f.string.length) nul := by
  have hzeros := List.eq_replicate_of_mem h.zeros
  rw [List.length_drop, f.length_eq] at hzeros
  have htake : f.bytes.take f.string.length = f.string :=
    List.prefix_iff_eq_take.mp (List.takeWhile_prefix _) |>.symm
  rw [← hzeros]
  conv_lhs => rw [← List.take_append_drop f.string.length f.bytes, htake]

/-- Padded fields are equal if their strings are, since nothing else is in them. -/
theorem ZeroPadded.ext (h : f.ZeroPadded) (h' : f'.ZeroPadded) (hs : f.string = f'.string) :
    f = f' := by
  have hbytes : f.bytes = f'.bytes := by rw [h.bytes_eq, h'.bytes_eq, hs]
  obtain ⟨bytes, hlen⟩ := f
  obtain ⟨bytes', hlen'⟩ := f'
  obtain rfl : bytes = bytes' := hbytes
  rfl

theorem strcpy_zero (hnul : nul ∉ s) (h : zero.strcpy s = .ok f) :
    s.length < keySize ∧ f.string = s ∧ f.ZeroPadded := by
  unfold strcpy at h
  split at h
  · rename_i hlt
    obtain rfl := Except.ok.inj h
    refine ⟨hlt, zeroPadded_of_bytes (k := keySize - s.length) hnul hlt ?_⟩
    show s ++ nul :: (List.replicate keySize nul).drop (s.length + 1) = _
    rw [List.drop_replicate, ← List.replicate_succ]
    congr 2
    omega
  · cases h

theorem strncpy_zero {n : Nat} (hnul : nul ∉ s) (hlt : (s.take n).length < keySize)
    (h : zero.strncpy s n = .ok f) : n ≤ keySize ∧ f.string = s.take n ∧ f.ZeroPadded := by
  unfold strncpy at h
  split at h
  · rename_i hle
    obtain rfl := Except.ok.inj h
    refine ⟨hle, zeroPadded_of_bytes (k := n - s.length + (keySize - n))
      (fun hm => hnul (List.mem_of_mem_take hm)) hlt ?_⟩
    show s.take n ++ List.replicate (n - s.length) nul ++ (List.replicate keySize nul).drop n = _
    rw [List.drop_replicate, List.append_assoc, List.replicate_append_replicate]
  · cases h

theorem zeroPadded_zero : zero.string = [] ∧ zero.ZeroPadded :=
  zeroPadded_of_bytes (k := keySize) (by rintro ⟨⟩) (by decide) rfl

end NameField

/-! ## Names -/

/-- `statsd_stat_name_t` as it is in memory, two fields of 100 bytes each without padding in
between. -/
structure StatNameBytes where
  groupName : NameField
  keyName : NameField
  deriving DecidableEq

namespace StatNameBytes

/-- The 200 bytes that `HASH_FIND` compares, the group name and then the key name. -/
def memory (n : StatNameBytes) : List Char := n.groupName.bytes ++ n.keyName.bytes

/-- The strings in the two fields, which is how `StatsdC.Tables` has the name. -/
def strings (n : StatNameBytes) : StatsdStatName := ⟨n.groupName.string, n.keyName.string⟩

/-- Both fields are padded with zeros. -/
structure ZeroPadded (n : StatNameBytes) : Prop where
  groupName : n.groupName.ZeroPadded
  keyName : n.keyName.ZeroPadded

/-- The name that `update_stat` builds: both fields are zeroed and then filled by `strcpy`. -/
def ofStrings (group key : CString) : Except TableFault StatNameBytes := do
  let groupName ← NameField.zero.strcpy group
  let keyName ← NameField.zero.strcpy key
  return ⟨groupName, keyName⟩

/-- The name that `statsd_deserialize` builds from a key in the file, which it splits at the first
period. -/
def ofKey (key : CString) : Except TableFault StatNameBytes :=
  if '.' ∈ key then do
    let periodPos := key.idxOf '.'
    let groupName ← NameField.zero.strncpy key periodPos
    let keyName ← NameField.zero.strncpy (key.drop (periodPos + 1)) (key.length - periodPos + 1)
    return ⟨groupName, keyName⟩
  else do
    let keyName ← NameField.zero.strcpy key
    return ⟨NameField.zero, keyName⟩

variable {n n' : StatNameBytes}

/-- **The comparison of the bytes is one of the strings.** -/
theorem memory_eq_iff (h : n.ZeroPadded) (h' : n'.ZeroPadded) :
    n.memory = n'.memory ↔ n.strings = n'.strings := by
  constructor
  · intro heq
    have hlen : n.groupName.bytes.length = n'.groupName.bytes.length := by
      rw [n.groupName.length_eq, n'.groupName.length_eq]
    obtain ⟨hgroup, hkey⟩ := List.append_inj heq hlen
    rw [strings, strings, NameField.string, NameField.string, hgroup, hkey]
    rfl
  · intro heq
    have hgroup : n.groupName.string = n'.groupName.string :=
      congrArg StatsdStatName.groupName heq
    have hkey : n.keyName.string = n'.keyName.string := congrArg StatsdStatName.keyName heq
    rw [memory, memory, h.groupName.ext h'.groupName hgroup, h.keyName.ext h'.keyName hkey]

theorem ofStrings_spec {group key : CString} (hgroup : nul ∉ group) (hkey : nul ∉ key)
    (h : ofStrings group key = .ok n) :
    (group.length < keySize ∧ key.length < keySize) ∧ n.strings = ⟨group, key⟩ ∧
      n.ZeroPadded := by
  simp only [ofStrings, bind_eq_ok] at h
  obtain ⟨f, hf, f', hf', hok⟩ := h
  obtain rfl := pure_eq_ok.mp hok
  obtain ⟨hlt, hstring, hpadded⟩ := NameField.strcpy_zero hgroup hf
  obtain ⟨hlt', hstring', hpadded'⟩ := NameField.strcpy_zero hkey hf'
  exact ⟨⟨hlt, hlt'⟩, by rw [strings, hstring, hstring'], hpadded, hpadded'⟩

/-- The parts of a key whose first one fits with its NUL are what `statNameOf` has, in padded
fields. -/
theorem ofKey_spec {key : CString} (hnul : nul ∉ key)
    (hgroup : '.' ∈ key → key.idxOf '.' < keySize) (h : ofKey key = .ok n) :
    StatKeyFits key ∧ n.strings = statNameOf key ∧ n.ZeroPadded := by
  unfold ofKey at h
  unfold StatKeyFits statNameOf
  by_cases hperiod : '.' ∈ key
  · have hidx := hgroup hperiod
    have hlt := List.idxOf_lt_length_of_mem hperiod
    simp only [hperiod, if_true, bind_eq_ok] at h ⊢
    obtain ⟨f, hf, f', hf', hok⟩ := h
    obtain rfl := pure_eq_ok.mp hok
    have hlen : (key.take (key.idxOf '.')).length < keySize := by
      rw [List.length_take]
      omega
    -- the copy ends behind the NUL of the key
    have hall : (key.drop (key.idxOf '.' + 1)).take (key.length - key.idxOf '.' + 1) =
        key.drop (key.idxOf '.' + 1) := by
      rw [List.take_of_length_le]
      rw [List.length_drop]
      omega
    have hle : key.length - key.idxOf '.' + 1 ≤ keySize := by
      unfold NameField.strncpy at hf'
      split at hf'
      · assumption
      · cases hf'
    have hlen' : (key.drop (key.idxOf '.' + 1)).length < keySize := by
      rw [List.length_drop]
      omega
    obtain ⟨-, hstring, hpadded⟩ := NameField.strncpy_zero hnul hlen hf
    obtain ⟨-, hstring', hpadded'⟩ := NameField.strncpy_zero
      (fun hm => hnul (List.mem_of_mem_drop hm)) (by rwa [hall]) hf'
    rw [hall] at hstring'
    exact ⟨⟨hidx.le, hle⟩, by rw [strings, hstring, hstring'], hpadded, hpadded'⟩
  · simp only [hperiod, if_false, bind_eq_ok] at h ⊢
    obtain ⟨f, hf, hok⟩ := h
    obtain rfl := pure_eq_ok.mp hok
    obtain ⟨hlt, hstring, hpadded⟩ := NameField.strcpy_zero hnul hf
    obtain ⟨hzero, hpadded'⟩ := NameField.zeroPadded_zero
    exact ⟨hlt, by rw [strings, hstring, hzero], hpadded', hpadded⟩

end StatNameBytes

/-! ## Tables -/

/-- `statsd_stat_t`, with its name as the bytes in memory. -/
structure MemStat where
  name : StatNameBytes
  value : Int
  locked : Bool

/-- The stat with its name as strings. -/
def MemStat.stat (s : MemStat) : StatsdStat := ⟨s.name.strings, s.value, s.locked⟩

/-- The tables, with the names of the stats as they are in memory.  The other three tables are those
of `StatsdC.Tables`. -/
structure MemTables where
  stats : List MemStat
  counters : List (StatsdCounter Num)
  gauges : List (StatsdGauge Num)
  timers : List (StatsdTimer Num)

namespace MemTables

/-- The tables at the start of the process. -/
def empty : MemTables := ⟨[], [], [], []⟩

/-- The tables with the names as strings. -/
def tables (m : MemTables) : Tables Num :=
  ⟨m.stats.map MemStat.stat, m.counters, m.gauges, m.timers⟩

/-- The tables with other metrics. -/
def withMetrics (m : MemTables) (t : Tables Num) : MemTables :=
  { m with counters := t.counters, gauges := t.gauges, timers := t.timers }

/-- `update_stat`, which looks the name up by its bytes and appends an entry where there is none. -/
def updateStat (m : MemTables) (group key value : CString) : Except TableFault MemTables := do
  let l ← StatNameBytes.ofStrings group key
  match find (fun s => s.name.memory) m.stats l.memory with
  | some s => .ok { m with stats := m.stats.modify s fun s => { s with value := atol value } }
  | none =>
    let name ← StatNameBytes.ofStrings group key
    .ok { m with stats := m.stats ++ [⟨name, atol value, false⟩] }

/-- `update_counter`, `update_timer` and `update_gauge_plusminus`: they leave the stats
alone. -/
def metricCall (m : MemTables) (call : MetricCall Num) : Except TableFault MemTables := do
  let t ← call.apply m.tables
  return m.withMetrics t

/-- `p_thread_flush`, from one sleep to the next: as over strings, with `update_stat` on the names
in memory. -/
def flushPass (firstByte : Num → Int) (cfg : FlushConfig) (env : FlushEnv) (m : MemTables) :
    Except FlushFault MemTables :=
  match flushTimers firstByte cfg env.ts m.timers with
  | .error e => .error e
  | .ok (timers, _) =>
    let m := { m with counters := m.counters.map fun c => (flushCounter cfg env.ts c).1, timers }
    if cfg.enableGraphite && env.socket then
      (m.updateStat "graphite".toList "last_flush".toList (printD env.now)).mapError .table
    else
      .ok m

/-- The body of the loop over the stats of a file, which splits the key and stores the number. -/
def loadStat (e : CString × Json) : Except SnapshotFault MemStat := do
  let name ← (StatNameBytes.ofKey e.1).mapError .table
  return ⟨name, e.2.getInt, false⟩

/-- `statsd_deserialize` of a file with the bytes `file`, with the names of its stats built in
memory. -/
def statsdDeserialize (m : MemTables) (file : List Char) :
    Except SnapshotFault (Nat × MemTables) :=
  if file.length < 10 then
    .ok (0, m)
  else do
    let data := file ++ List.replicate 20 nul
    let obj := jsonTokenerParse (cstr data 0)
    let stats ← (← snapshotSection obj "stats".toList).mapM loadStat
    let timers ← (← snapshotSection obj "timers".toList).mapM loadTimer
    let gauges ← (← snapshotSection obj "gauges".toList).mapM loadGauge
    let counters ← (← snapshotSection obj "counters".toList).mapM loadCounter
    return (1, ⟨m.stats ++ stats, m.counters ++ counters, m.gauges ++ gauges, m.timers ++ timers⟩)

/-- `init_stats` at time `now`, once the snapshot is loaded. -/
def initStats (m : MemTables) (now : Int) : Except TableFault MemTables := do
  let m ← m.updateStat "graphite".toList "last_flush".toList (printD now)
  let m ← m.updateStat "messages".toList "last_msg_seen".toList (printD now)
  m.updateStat "messages".toList "bad_lines_seen".toList "0".toList

/-- The names of all stats are padded with zeros. -/
def ZeroPadded (m : MemTables) : Prop := ∀ s ∈ m.stats, s.name.ZeroPadded

end MemTables

/-! ## Refinement -/

section Refinement
variable {m m' : MemTables}

/-- A lookup by the bytes of a name finds what one by its strings does, as long as both are padded.
-/
theorem find_memory (hm : m.ZeroPadded) {l : StatNameBytes} (hl : l.ZeroPadded) :
    find (fun s => s.name.memory) m.stats l.memory =
      find StatsdStat.name m.tables.stats l.strings := by
  exact find_congr fun s hs => StatNameBytes.memory_eq_iff (hm s hs) hl

/-- **`update_stat` refines** its version with strings. -/
theorem updateStat_refines (hm : m.ZeroPadded) {group key value : CString} (hgroup : nul ∉ group)
    (hkey : nul ∉ key) (h : m.updateStat group key value = .ok m') :
    updateStat m.tables group key value = .ok m'.tables ∧ m'.ZeroPadded := by
  simp only [MemTables.updateStat, bind_eq_ok] at h
  obtain ⟨l, hl, h⟩ := h
  obtain ⟨⟨hlt, hlt'⟩, hstrings, hpadded⟩ := StatNameBytes.ofStrings_spec hgroup hkey hl
  have hfind := find_memory hm hpadded
  rw [hstrings] at hfind
  simp only [updateStat, bind_eq_ok]
  refine ⟨⟨group, if_pos hlt, key, if_pos hlt', ?_⟩, ?_⟩
  -- both lookups find the same entry
  · rw [← hfind]
    cases hres : find (fun s => s.name.memory) m.stats l.memory with
    | some s =>
      rw [hres] at h
      obtain rfl := Except.ok.inj h
      have hmap : (m.stats.modify s fun e => { e with value := atol value }).map MemStat.stat =
          (m.stats.map MemStat.stat).modify s fun e => { e with value := atol value } :=
        map_modify_comm fun _ => rfl
      simp only [MemTables.tables, hmap]
    | none =>
      simp only [hres, bind_eq_ok] at h
      obtain ⟨name, hname, h⟩ := h
      obtain rfl := Except.ok.inj (hl.symm.trans hname)
      obtain rfl := Except.ok.inj h
      simp only [MemTables.tables, List.map_append, List.map_singleton, MemStat.stat, hstrings]
  · cases hres : find (fun s => s.name.memory) m.stats l.memory with
    | some s =>
      rw [hres] at h
      obtain rfl := Except.ok.inj h
      intro s' hs'
      obtain ⟨s'', hs'', hname⟩ := exists_of_mem_modify MemStat.name (fun _ => by rfl) hs'
      exact hname ▸ hm s'' hs''
    | none =>
      simp only [hres, bind_eq_ok] at h
      obtain ⟨name, hname, h⟩ := h
      obtain rfl := Except.ok.inj (hl.symm.trans hname)
      obtain rfl := Except.ok.inj h
      intro s hs
      rcases List.mem_append.mp hs with hs | hs
      · exact hm s hs
      · rwa [List.mem_singleton.mp hs]

theorem nul_notMem_lastFlush : nul ∉ "graphite".toList ∧ nul ∉ "last_flush".toList := by decide

theorem nul_notMem_messages :
    nul ∉ "messages".toList ∧ nul ∉ "last_msg_seen".toList ∧ nul ∉ "bad_lines_seen".toList := by
  decide

/-- The metric calls refine theirs: the stats are not looked at. -/
theorem metricCall_refines (hm : m.ZeroPadded) {call : MetricCall Num}
    (h : m.metricCall call = .ok m') : call.apply m.tables = .ok m'.tables ∧ m'.ZeroPadded := by
  simp only [MemTables.metricCall, bind_eq_ok] at h
  obtain ⟨t, ht, h⟩ := h
  obtain rfl := pure_eq_ok.mp h
  have hstats : m.stats.map MemStat.stat = t.stats := (stats_metricCall ht).symm
  refine ⟨?_, hm⟩
  rw [ht, MemTables.tables, MemTables.withMetrics, hstats]

/-- A pass refines its version with strings: the two have the same tables and succeed together. -/
theorem flushPass_memRefines (hm : m.ZeroPadded) {firstByte : Num → Int} {cfg : FlushConfig}
    {env : FlushEnv} (h : m.flushPass firstByte cfg env = .ok m') :
    (∃ report, flushPass firstByte cfg env m.tables = .ok (m'.tables, report)) ∧
      m'.ZeroPadded := by
  unfold MemTables.flushPass at h
  cases htimers : flushTimers firstByte cfg env.ts m.timers with
  | error e =>
    rw [htimers] at h
    cases h
  | ok timers =>
    simp only [htimers] at h
    have htables : m.tables.timers = m.timers := rfl
    have hcounters : (m.tables.counters.map (flushCounter cfg env.ts)).map Prod.fst =
        m.counters.map fun c => (flushCounter cfg env.ts c).1 := by
      rw [List.map_map]
      rfl
    unfold flushPass
    simp only [htables, htimers, hcounters]
    split at h
    · rename_i hsocket
      rw [mapError_eq_ok] at h
      -- the loops do not touch the stats
      have hflushed : MemTables.ZeroPadded
          { m with counters := m.counters.map fun c => (flushCounter cfg env.ts c).1
                   timers := timers.1 } := hm
      obtain ⟨hstat, hm'⟩ := updateStat_refines hflushed nul_notMem_lastFlush.1
        nul_notMem_lastFlush.2 h
      have hstat' : updateStat { m.tables with
          counters := m.counters.map fun c => (flushCounter cfg env.ts c).1, timers := timers.1 }
          "graphite".toList "last_flush".toList (printD env.now) = .ok m'.tables := hstat
      simp only [hsocket, if_true, hstat']
      exact ⟨⟨_, rfl⟩, hm'⟩
    · rename_i hsocket
      obtain rfl := Except.ok.inj h
      simp only [hsocket]
      exact ⟨⟨_, rfl⟩, hm⟩

theorem initStats_refines (hm : m.ZeroPadded) {now : Int} (h : m.initStats now = .ok m') :
    initStats m.tables now = .ok m'.tables ∧ m'.ZeroPadded := by
  simp only [MemTables.initStats, bind_eq_ok] at h
  obtain ⟨m₁, h₁, m₂, h₂, h₃⟩ := h
  obtain ⟨ht₁, hm₁⟩ := updateStat_refines hm nul_notMem_lastFlush.1 nul_notMem_lastFlush.2 h₁
  obtain ⟨ht₂, hm₂⟩ := updateStat_refines hm₁ nul_notMem_messages.1 nul_notMem_messages.2.1 h₂
  obtain ⟨ht₃, hm₃⟩ := updateStat_refines hm₂ nul_notMem_messages.1 nul_notMem_messages.2.2 h₃
  simp only [initStats, bind_eq_ok]
  exact ⟨⟨_, ht₁, _, ht₂, ht₃⟩, hm₃⟩

/-- Tables whose snapshot can be at the start of a run: strings without NULs, the group of
a stat without a period, names of at most 97 bytes and keys of at most 99. -/
structure SnapshotSource (t : Tables Num) : Prop where
  nulFree : NulFree t
  stats : ∀ s ∈ t.stats, '.' ∉ s.name.groupName ∧ s.name.groupName.length ≤ 97 ∧
    s.name.keyName.length ≤ 97
  timers : ∀ s ∈ t.timers, s.key.length ≤ 99
  gauges : ∀ g ∈ t.gauges, g.key.length ≤ 99
  counters : ∀ c ∈ t.counters, c.key.length ≤ 99

/-- A stat of a file refines its version with strings. -/
theorem loadStat_refines {e : CString × Json} {s : MemStat} (hnul : nul ∉ e.1)
    (hgroup : '.' ∈ e.1 → e.1.idxOf '.' < keySize) (h : MemTables.loadStat e = .ok s) :
    loadStat e = .ok s.stat ∧ s.name.ZeroPadded := by
  simp only [MemTables.loadStat, bind_eq_ok, mapError_eq_ok] at h
  obtain ⟨name, hname, h⟩ := h
  obtain rfl := pure_eq_ok.mp h
  obtain ⟨hfits, hstrings, hpadded⟩ := StatNameBytes.ofKey_spec hnul hgroup hname
  refine ⟨(loadStat_eq_ok_iff e _).mpr ⟨hfits, ?_⟩, hpadded⟩
  rw [MemStat.stat, hstrings]
  rfl

/-- The keys of the stats in the snapshot of such tables have a period early enough for the field.
-/
theorem SnapshotSource.tmpkey {t : Tables Num} (h : SnapshotSource t) {e : CString × Json}
    (he : e ∈ (printedSections t).reread.stats) :
    nul ∉ e.1 ∧ '.' ∈ e.1 ∧ e.1.idxOf '.' < keySize := by
  obtain ⟨s, hs, hkey, -⟩ := exists_key_of_mem_rereadEntries he
  obtain ⟨hperiod, hlen, -⟩ := h.stats s hs
  have hidx : s.name.tmpkey.idxOf '.' = s.name.groupName.length := by
    rw [StatsdStatName.tmpkey, List.idxOf_append, if_neg hperiod, List.idxOf_cons_self,
      Nat.zero_add]
  have hsize : 97 < keySize := by decide
  rw [← hkey]
  refine ⟨h.nulFree.stats s hs, ?_, by omega⟩
  simp [StatsdStatName.tmpkey]

/-- **Loading a snapshot refines** its version with strings. -/
theorem statsdDeserialize_refines {t : Tables Num} (ht : SnapshotSource t) {r : Nat}
    (h : MemTables.empty.statsdDeserialize (snapshotText t) = .ok (r, m')) :
    statsdDeserialize .empty (snapshotText t) = .ok (r, m'.tables) ∧ m'.ZeroPadded := by
  unfold MemTables.statsdDeserialize at h
  unfold statsdDeserialize
  rw [if_neg (length_snapshotText t)] at h ⊢
  simp only [bind_eq_ok] at h ⊢
  obtain ⟨entries, hentries, stats, hstats, timers, htimers, timers', htimers', gauges, hgauges,
    gauges', hgauges', counters, hcounters, counters', hcounters', h⟩ := h
  obtain ⟨rfl, rfl⟩ := Prod.mk.inj (pure_eq_ok.mp h)
  -- the entries are those that were printed
  have hread : entries = (printedSections t).reread.stats := by
    obtain ⟨obj, hobj, hget⟩ := snapshotSection_eq_ok_iff.mp hentries
    obtain ⟨obj₁, hobj₁, hget₁⟩ := snapshotSection_eq_ok_iff.mp htimers
    obtain ⟨obj₂, hobj₂, hget₂⟩ := snapshotSection_eq_ok_iff.mp hgauges
    obtain ⟨obj₃, hobj₃, hget₃⟩ := snapshotSection_eq_ok_iff.mp hcounters
    obtain rfl := Except.ok.inj (hobj.symm.trans hobj₁)
    obtain rfl := Except.ok.inj (hobj.symm.trans hobj₂)
    obtain rfl := Except.ok.inj (hobj.symm.trans hobj₃)
    have hsections :
        HasSections (fileText (snapshotText t)) ⟨entries, timers, gauges, counters⟩ :=
      ⟨obj, hobj, hget, hget₁, hget₂, hget₃⟩
    rw [← ((hasSections_serialize_iff ht.nulFree).mp hsections).2]
  obtain ⟨hstats', hpadded⟩ := mapM_refines (g := loadStat) (h := MemStat.stat)
    (p := fun s => s.name.ZeroPadded) (fun e he s hs => by
      obtain ⟨hnul, -, hidx⟩ := ht.tmpkey (hread ▸ he)
      exact loadStat_refines hnul (fun _ => hidx) hs) hstats
  exact ⟨⟨entries, hentries, _, hstats', timers, htimers, timers', htimers', gauges, hgauges,
    gauges', hgauges', counters, hcounters, counters', hcounters', rfl⟩, hpadded⟩

end Refinement

/-! ## Unique keys -/

/-- No key is in a table twice, in any of the four tables. -/
structure TablesUnique (t : Tables Num) : Prop where
  stats : (t.stats.map StatsdStat.name).Nodup
  metrics : KeysUnique t

namespace TablesUnique
variable {t t' : Tables Num}

theorem updateStat (h : TablesUnique t) {group key value : CString}
    (hok : StatsdC.updateStat t group key value = .ok t') : TablesUnique t' := by
  obtain ⟨i, -, rfl⟩ | ⟨hfind, rfl⟩ := updateStat_cases hok
  · exact ⟨nodup_map_modify h.stats fun _ => rfl, h.metrics.counters, h.metrics.gauges,
      h.metrics.timers⟩
  · exact ⟨nodup_map_append h.stats (notMem_keys_of_find hfind), h.metrics.counters,
      h.metrics.gauges, h.metrics.timers⟩

theorem metricCall (h : TablesUnique t) {call : MetricCall Num} (hok : call.apply t = .ok t') :
    TablesUnique t' := by
  obtain ⟨hstats, hcounters, hgauges, htimers⟩ := h
  obtain ⟨key, -, hcases⟩ := call.apply_cases hok
  rcases hcases with ⟨counters, rfl, hkeys⟩ | ⟨timers, rfl, hkeys⟩ | ⟨gauges, rfl, hkeys⟩
  · exact ⟨hstats, hkeys.nodup hcounters, hgauges, htimers⟩
  · exact ⟨hstats, hcounters, hgauges, hkeys.nodup htimers⟩
  · exact ⟨hstats, hcounters, hkeys.nodup hgauges, htimers⟩

theorem flushPass (h : TablesUnique t) {firstByte : Num → Int} {cfg : FlushConfig}
    {env : FlushEnv} {report : Report Num}
    (hok : StatsdC.flushPass firstByte cfg env t = .ok (t', report)) : TablesUnique t' := by
  obtain ⟨timers, htimers, -, hr⟩ := flushPass_eq_ok hok
  have hflushed : TablesUnique (flushedTables cfg env.ts t timers.1) := by
    refine ⟨h.stats, ?_, h.metrics.gauges, ?_⟩
    · show ((t.counters.map fun c => (flushCounter cfg env.ts c).1).map StatsdCounter.key).Nodup
      rw [List.map_map]
      exact h.metrics.counters
    · show (timers.1.map StatsdTimer.key).Nodup
      rw [flushTimers_keys htimers]
      exact h.metrics.timers
  rcases hr with rfl | hstat
  · exact hflushed
  · exact hflushed.updateStat hstat

theorem initStats (h : TablesUnique t) {now : Int} (hok : StatsdC.initStats t now = .ok t') :
    TablesUnique t' := by
  simp only [StatsdC.initStats, bind_eq_ok] at hok
  obtain ⟨t₁, h₁, t₂, h₂, h₃⟩ := hok
  exact ((h.updateStat h₁).updateStat h₂).updateStat h₃

/-- Keys with a period give different names, since the first period is where the parts meet. -/
theorem statNameOf_inj {key key' : CString} (h : '.' ∈ key) (h' : '.' ∈ key')
    (heq : statNameOf key = statNameOf key') : key = key' := by
  have hjoin : ∀ {k : CString}, '.' ∈ k → (statNameOf k).tmpkey = k := by
    intro k hk
    have hlt := List.idxOf_lt_length_of_mem hk
    have hget : k[k.idxOf '.'] = '.' := List.getElem_idxOf hlt
    rw [statNameOf, if_pos hk, StatsdStatName.tmpkey]
    conv_rhs => rw [← List.take_append_drop (k.idxOf '.') k, List.drop_eq_getElem_cons hlt, hget]
  rw [← hjoin h, heq, hjoin h']

/-- What is loaded from a snapshot is unique, because a table of the file has no key twice. -/
theorem reread {t₀ : Tables Num} (h₀ : SnapshotSource t₀) {r : Nat}
    (hok : statsdDeserialize .empty (snapshotText t₀) = .ok (r, t)) : TablesUnique t := by
  obtain ⟨-, -, -, rfl⟩ := (statsdDeserialize_serialize_iff h₀.nulFree).mp hok
  refine ⟨?_, keysUnique_reread t₀⟩
  have hkeys : ((printedSections t₀).reread.stats.map Prod.fst).Nodup := nodup_rereadEntries
  have hnames : ((printedSections t₀).reread.tables.stats.map StatsdStat.name) =
      ((printedSections t₀).reread.stats.map Prod.fst).map statNameOf := by
    rw [Sections.tables, List.map_map, List.map_map]
    rfl
  rw [hnames]
  refine List.Nodup.map_on (fun k hk k' hk' heq => ?_) hkeys
  obtain ⟨e, he, rfl⟩ := List.mem_map.mp hk
  obtain ⟨e', he', rfl⟩ := List.mem_map.mp hk'
  exact statNameOf_inj (h₀.tmpkey he).2.1 (h₀.tmpkey he').2.1 heq

theorem empty : TablesUnique .empty :=
  ⟨List.nodup_nil, List.nodup_nil, List.nodup_nil, List.nodup_nil⟩

end TablesUnique

/-! ## Runs -/

/-- A call on the tables, or a flush pass, in any order a thread may make them. -/
inductive TableEvent where
  | updateStat (group key value : CString) (hgroup : nul ∉ group) (hkey : nul ∉ key)
  | metricCall (call : MetricCall Num)
  | flush (cfg : FlushConfig) (env : FlushEnv)

/-- The tables after an event. -/
def TableEvent.apply (firstByte : Num → Int) (m : MemTables) :
    TableEvent → Except DaemonFault MemTables
  | .updateStat group key value _ _ => (m.updateStat group key value).mapError .table
  | .metricCall call => (m.metricCall call).mapError .table
  | .flush cfg env => (m.flushPass firstByte cfg env).mapError .flush

/-- What a run can start with: nothing, or what is loaded from a snapshot that the daemon has
written. -/
def Loaded (m : MemTables) : Prop :=
  m = .empty ∨ ∃ t₀ r, SnapshotSource t₀ ∧
    MemTables.empty.statsdDeserialize (snapshotText t₀) = .ok (r, m)

/-- Runs from `init_stats` on, one call or pass at a time. -/
def tableSystem (firstByte : Num → Int) : TransitionSystem MemTables TableEvent where
  init m := ∃ m₀ now, Loaded m₀ ∧ m₀.initStats now = .ok m
  step m e m' := e.apply firstByte m = .ok m'

/-- What holds of the tables in every state: padded names, and no key twice. -/
structure MemState (m : MemTables) : Prop where
  padded : m.ZeroPadded
  unique : TablesUnique m.tables

theorem Loaded.memState {m : MemTables} (h : Loaded m) : MemState m := by
  rcases h with rfl | ⟨t₀, r, h₀, hok⟩
  · exact ⟨(by rintro s ⟨⟩), TablesUnique.empty⟩
  · obtain ⟨hload, hpadded⟩ := statsdDeserialize_refines h₀ hok
    exact ⟨hpadded, TablesUnique.reread h₀ hload⟩

/-- One event keeps the invariant, by the refinement to strings and its own invariant. -/
theorem memState_step {firstByte : Num → Int} {m m' : MemTables} {e : TableEvent}
    (h : MemState m) (hstep : e.apply firstByte m = .ok m') : MemState m' := by
  cases e with
  | updateStat group key value hgroup hkey =>
    obtain ⟨hok, hpadded⟩ := updateStat_refines h.padded hgroup hkey (mapError_eq_ok.mp hstep)
    exact ⟨hpadded, h.unique.updateStat hok⟩
  | metricCall call =>
    obtain ⟨hok, hpadded⟩ := metricCall_refines h.padded (mapError_eq_ok.mp hstep)
    exact ⟨hpadded, h.unique.metricCall hok⟩
  | flush cfg env =>
    obtain ⟨⟨report, hok⟩, hpadded⟩ := flushPass_memRefines h.padded (mapError_eq_ok.mp hstep)
    exact ⟨hpadded, h.unique.flushPass hok⟩

theorem reachable_memState {firstByte : Num → Int} {m : MemTables}
    (h : (tableSystem firstByte).Reachable m) : MemState m := by
  refine h.invariant (I := MemState) (fun m hinit => ?_) fun _ _ _ hm hstep =>
    memState_step hm hstep
  obtain ⟨m₀, now, hload, hok⟩ := hinit
  obtain ⟨hok', hpadded⟩ := initStats_refines hload.memState.padded hok
  exact ⟨hpadded, hload.memState.unique.initStats hok'⟩

/-- Unique keys, in memory: no two stats have the same strings in their names, no key is
in a metric table twice, every byte behind a name's strings is zero, and a lookup that
compares bytes matches a stat exactly if its strings are those looked for. -/
structure MemUnique (m : MemTables) : Prop where
  stats : (m.stats.map fun s => s.name.strings).Nodup
  counters : (m.counters.map StatsdCounter.key).Nodup
  timers : (m.timers.map StatsdTimer.key).Nodup
  gauges : (m.gauges.map StatsdGauge.key).Nodup
  padded : ∀ s ∈ m.stats, s.name.ZeroPadded
  lookup : ∀ s ∈ m.stats, ∀ group key l, nul ∉ group → nul ∉ key →
    StatNameBytes.ofStrings group key = .ok l →
      (s.name.memory = l.memory ↔ s.name.strings = ⟨group, key⟩)

theorem MemState.memUnique {m : MemTables} (h : MemState m) : MemUnique m := by
  have hstats := h.unique.stats
  rw [MemTables.tables, List.map_map] at hstats
  refine ⟨hstats, h.unique.metrics.counters, h.unique.metrics.timers, h.unique.metrics.gauges,
    h.padded, fun s hs group key l hgroup hkey hl => ?_⟩
  obtain ⟨-, hstrings, hpadded⟩ := StatNameBytes.ofStrings_spec hgroup hkey hl
  rw [StatNameBytes.memory_eq_iff (h.padded s hs) hpadded, hstrings]

/-- **Keys are unique in every state of every run**, and names are padded, so that the
lookups compare strings. -/
theorem reachable_memUnique {firstByte : Num → Int} {m : MemTables}
    (h : (tableSystem firstByte).Reachable m) : MemUnique m :=
  (reachable_memState h).memUnique

/-- A line that could not be read is counted, and then a counter and a gauge come in. -/
def threeEvents : List TableEvent :=
  [.updateStat "messages".toList "bad_lines_seen".toList "1".toList (by decide) (by decide),
    .metricCall (.updateCounter (some ['k']) (.fin 7) 0),
    .metricCall (.updateGaugePlusminus (some ['k']) (.fin 7) 0)]

/-- The theorem after these events, without a snapshot: the stat is the one that was there from
the start, and the counter and the gauge of the same key are in tables of their own. -/
theorem reachable_memUnique_threeEvents :
    ∃ m, (tableSystem fun _ => 0).Reachable m ∧ MemUnique m ∧
      m.stats.length = 3 ∧ m.counters.length = 1 ∧ m.gauges.length = 1 := by
  have hrun : (((MemTables.empty.initStats 0).toOption.bind fun m =>
      threeEvents.foldlM (fun m e => (e.apply (fun _ => 0) m).toOption) m).any fun m =>
        m.stats.length = 3 ∧ m.counters.length = 1 ∧ m.gauges.length = 1) = true := by
    decide +kernel
  obtain ⟨m, hm, hlengths⟩ := (Option.any_eq_true _ _).mp hrun
  obtain ⟨m₀, hinit, hevents⟩ := Option.bind_eq_some_iff.mp hm
  have hstart : (tableSystem fun _ => 0).Reachable m₀ :=
    .start ⟨.empty, 0, .inl rfl, eq_ok_of_toOption hinit⟩
  have hreach := hstart.foldlM (fun _ _ _ hstep => eq_ok_of_toOption hstep) hevents
  exact ⟨m, hreach, reachable_memUnique hreach, of_decide_eq_true hlengths⟩

end StatsdC
