import StatsdC.JsonTokener
import StatsdC.Lib.Fallible
import StatsdC.Tables

/-!
# The snapshot

`serialize.c`: the tables are written to a file as one JSON object with four sections, and read
back at the next start.  The writer works on objects alone, except for the key of a stat, which it
prints into a block of its own; the size of that block is a parameter, and a longer key is a fault
(`printTmpkey`).  The text of the file is that of the object.

The reader takes what it finds: every access to a value that is not there or of another type, and
every name that does not fit its field, is a fault of the model.  Its loops over the sections are
`mapM` over the entries of the objects, in their order.  `statsdDeserialize_eq_ok_iff` says when the
reader returns, and with what: a file of less than ten bytes is passed over, and any other needs
all four sections, each with entries that can be loaded.  A file that the reader survives is loaded
completely or not at all (`statsdDeserialize_allOrNothing_iff`).

The size of the file is read into an `int`.  `statsdDeserializeFile` is the function with this size
(`filesizeOf`) and with what is then read (`bytesRead`), and `statsdDeserialize` is what it does
with those bytes; the two are the same for files below `2 ^ 31` bytes
(`statsdDeserializeFile_eq`).  What is read is the text up to the first NUL, with the NULs that
`calloc` left behind it.

Failures of `malloc` and of the file functions, and the log, are left out.
-/

namespace StatsdC
open CString Fallible

/-- An access without a meaning, by the writer of a snapshot or by its reader. -/
inductive SnapshotFault where
  | json (fault : JsonFault)
  | table (fault : TableFault)
  /-- A stat's key printed past the end of the block that was allocated for it. -/
  | tmpkeyOverflow
  /-- A size that is no `int`. -/
  | sizeOverflow
  deriving DecidableEq

/-! ## Writing -/

/-- The loop over a table that adds each of its entries to a new object, in the order of the table.
-/
def tableObject {ε : Type} (key : ε → CString) (val : ε → Json) (table : List ε) : Json :=
  table.foldl (fun obj s => obj.objectAdd (key s) (val s)) (.object [])

/-- The key of a stat in the file: its group, a period, and its name. -/
def StatsdStatName.tmpkey (name : StatsdStatName) : CString :=
  name.groupName ++ '.' :: name.keyName

/-- The object that is written, with one section for each table.  The conversions to `int` and to
`double` are made here. -/
def snapshotObject (t : Tables Num) : Json :=
  let objStats := tableObject (fun s => s.name.tmpkey) (fun s => .int (intOfLong s.value)) t.stats
  let objTimers := tableObject StatsdTimer.key (fun s => .array (s.values.map .double)) t.timers
  let objCounters := tableObject StatsdCounter.key (fun s => .double s.value.toDouble) t.counters
  let objGauges := tableObject StatsdGauge.key (fun g => .double g.value.toDouble) t.gauges
  (((((Json.object []).objectAdd "stats".toList objStats).objectAdd "timers".toList objTimers)
    |>.objectAdd "gauges".toList objGauges).objectAdd "counters".toList objCounters)

/-- The text that is written, which is the whole file. -/
def snapshotText (t : Tables Num) : CString := (snapshotObject t).toJsonString

/-- `sprintf` of a stat's key into `block` bytes.  The block is allocated with
`malloc( sizeof( .. ) )`, of a number and not of the length it computes: it is asked to have
8 bytes, and how many it has is the allocator's choice. -/
def printTmpkey (block : Nat) (name : StatsdStatName) : Except SnapshotFault CString :=
  if name.tmpkey.length < block then .ok name.tmpkey else .error .tmpkeyOverflow

/-- `statsd_serialize`: the text it writes, where a block of 8 bytes has `block` bytes. -/
def statsdSerialize (block : Nat) (t : Tables Num) : Except SnapshotFault CString := do
  let _ ← t.stats.mapM fun s => printTmpkey block s.name
  return snapshotText t

/-! ## Reading -/

/-- `strncpy` of `n` bytes into a key field that is filled with NULs before.  It stays in the
field if `n` does; where the text has as many bytes as the field, no NUL is left behind
them. -/
def strncpyKey (s : CString) (n : Nat) : Except TableFault CString :=
  if n ≤ keySize then .ok (s.take n) else .error .keyOverflow

/-- The name of a stat, from its key in the file, which is split at its first period. -/
def statName (key : CString) : Except TableFault StatsdStatName :=
  if '.' ∈ key then do
    let periodPos := key.idxOf '.'
    let groupName ← strncpyKey key periodPos
    -- one byte more than is left of the key with its NUL
    let keyName ← strncpyKey (key.drop (periodPos + 1)) (key.length - periodPos + 1)
    return ⟨groupName, keyName⟩
  else do
    let keyName ← strcpyKey key
    return ⟨[], keyName⟩

/-- The body of the loop over the stats, with the number converted to an `int`. -/
def loadStat (e : CString × Json) : Except SnapshotFault StatsdStat := do
  let name ← (statName e.1).mapError .table
  return ⟨name, e.2.getInt, false⟩

/-- The values of a timer, read from the array by their indices. -/
def loadValues (val : Json) : List Nat → Except JsonFault (List Num)
  | [] => .ok []
  | i :: is => do
    let jso ← val.arrayGetIdx i
    let values ← loadValues val is
    return jso.getDouble :: values

/-- The body of the loop over the timers.  The count is the length of the array in the file. -/
def loadTimer (e : CString × Json) : Except SnapshotFault (StatsdTimer Num) := do
  let key ← (strcpyKey e.1).mapError .table
  let count ← e.2.arrayLength.mapError .json
  let values ← (loadValues e.2 (List.range count)).mapError .json
  return ⟨key, count, values⟩

/-- The body of the loop over the gauges, with the number as a `double`. -/
def loadGauge (e : CString × Json) : Except SnapshotFault (StatsdGauge Num) := do
  let key ← (strcpyKey e.1).mapError .table
  return ⟨key, e.2.getDouble⟩

/-- The body of the loop over the counters, with the number as a `double`. -/
def loadCounter (e : CString × Json) : Except SnapshotFault (StatsdCounter Num) := do
  let key ← (strcpyKey e.1).mapError .table
  return ⟨key, e.2.getDouble⟩

/-- The entries of a section, as the loop over it finds them. -/
def snapshotSection (obj : Except JsonTokenerError Json) (key : CString) :
    Except SnapshotFault (List (CString × Json)) :=
  Except.mapError .json do
    let obj ← follow obj
    let objSection ← obj.objectGet key
    objSection.objectForeach

/-- `statsd_deserialize` of a file with the bytes `file`, whose size is an `int` with the 20
bytes that are added to it: what it returns, and the tables. -/
def statsdDeserialize (t : Tables Num) (file : List Char) :
    Except SnapshotFault (Nat × Tables Num) :=
  if file.length < 10 then
    .ok (0, t)
  else do
    -- `calloc` clears 20 bytes more than are read
    let data := file ++ List.replicate 20 nul
    let obj := jsonTokenerParse (cstr data 0)
    let stats ← (← snapshotSection obj "stats".toList).mapM loadStat
    let timers ← (← snapshotSection obj "timers".toList).mapM loadTimer
    let gauges ← (← snapshotSection obj "gauges".toList).mapM loadGauge
    let counters ← (← snapshotSection obj "counters".toList).mapM loadCounter
    return (1, ⟨t.stats ++ stats, t.counters ++ counters, t.gauges ++ gauges, t.timers ++ timers⟩)

/-- `filesize`: the size of a file as an `int`, which is negative for some files of two gigabytes
and more. -/
def filesizeOf (file : List Char) : Int := intOfLong file.length

/-- The bytes of a file that are read, as many as `filesize` says. -/
def bytesRead (file : List Char) : List Char := file.take (filesizeOf file).toNat

/-- `statsd_deserialize` of any file.  As many bytes are read as its size is, converted to an
`int`: of a file of two gigabytes or more that can be none or a part. -/
def statsdDeserializeFile (t : Tables Num) (file : List Char) :
    Except SnapshotFault (Nat × Tables Num) :=
  if filesizeOf file < 10 then .ok (0, t)
  else if 2 ^ 31 ≤ filesizeOf file + 20 then .error .sizeOverflow
  else statsdDeserialize t (bytesRead file)

/-- A file of less than two gigabytes is read as it is, the twenty bytes of padding included. -/
theorem statsdDeserializeFile_eq {t : Tables Num} {file : List Char}
    (h : file.length + 20 < 2 ^ 31) : statsdDeserializeFile t file = statsdDeserialize t file := by
  have hsize : filesizeOf file = file.length := by
    rw [filesizeOf, intOfLong]
    exact Int.bmod_eq_of_le (by omega) (by omega)
  unfold statsdDeserializeFile bytesRead
  rw [hsize]
  by_cases hshort : file.length < 10
  · rw [if_pos (by omega), statsdDeserialize, if_pos hshort]
  · rw [if_neg (by omega), if_neg (by omega), Int.toNat_natCast, List.take_length]

/-- **When the writer returns**, and with what: every stat's key has to fit the block. -/
theorem statsdSerialize_eq_ok_iff {block : Nat} {t : Tables Num} {text : CString} :
    statsdSerialize block t = .ok text ↔
      (∀ s ∈ t.stats, s.name.tmpkey.length < block) ∧ text = snapshotText t := by
  have hprint : ∀ (s : StatsdStat) (key : CString), printTmpkey block s.name = .ok key ↔
      s.name.tmpkey.length < block ∧ key = s.name.tmpkey := by
    intro s key
    unfold printTmpkey
    split
    · rename_i hlt
      exact ⟨fun h => ⟨hlt, (Except.ok.inj h).symm⟩, fun h => h.2 ▸ rfl⟩
    · rename_i hge
      exact ⟨(by cases ·), fun h => absurd h.1 hge⟩
  simp only [statsdSerialize, bind_eq_ok, mapM_eq_ok_iff hprint]
  constructor
  · rintro ⟨_, ⟨hfits, rfl⟩, hok⟩
    exact ⟨hfits, (pure_eq_ok.mp hok).symm⟩
  · rintro ⟨hfits, rfl⟩
    exact ⟨_, ⟨hfits, rfl⟩, rfl⟩

/-! ## What the reader loads -/

/-- A key that fits its field, with a byte left for its NUL. -/
def KeyFits (key : CString) : Prop := key.length < keySize

/-- A key of the stats section whose two parts fit: the first without a NUL, the second with
one more than it needs. -/
def StatKeyFits (key : CString) : Prop :=
  if '.' ∈ key then key.idxOf '.' ≤ keySize ∧ key.length - key.idxOf '.' + 1 ≤ keySize
  else KeyFits key

/-- The name in a key of the stats section: the parts around the first period, or the whole key as
its name. -/
def statNameOf (key : CString) : StatsdStatName :=
  if '.' ∈ key then ⟨key.take (key.idxOf '.'), key.drop (key.idxOf '.' + 1)⟩ else ⟨[], key⟩

/-- The elements of a value that is an array, and none of any other. -/
def elementsOf : Json → List Json
  | .array elements => elements
  | _ => []

/-- The stat of an entry, which is not locked. -/
def statOf (e : CString × Json) : StatsdStat := ⟨statNameOf e.1, e.2.getInt, false⟩

/-- The timer of an entry, with as many samples as its count says. -/
def timerOf (e : CString × Json) : StatsdTimer Num :=
  ⟨e.1, (elementsOf e.2).length, (elementsOf e.2).map Json.getDouble⟩

/-- The gauge of an entry, with its number as a `double`. -/
def gaugeOf (e : CString × Json) : StatsdGauge Num := ⟨e.1, e.2.getDouble⟩

/-- The counter of an entry, with its number as a `double`. -/
def counterOf (e : CString × Json) : StatsdCounter Num := ⟨e.1, e.2.getDouble⟩

theorem strcpyKey_eq_ok_iff {key key' : CString} :
    strcpyKey key = .ok key' ↔ KeyFits key ∧ key' = key := by
  constructor
  · intro h
    obtain ⟨rfl, hlt⟩ := strcpyKey_eq_ok h
    exact ⟨hlt, rfl⟩
  · rintro ⟨hlt, rfl⟩
    exact strcpyKey_of_lt hlt

theorem strncpyKey_eq_ok_iff {s s' : CString} {n : Nat} :
    strncpyKey s n = .ok s' ↔ n ≤ keySize ∧ s' = s.take n := by
  by_cases h : n ≤ keySize
  · rw [strncpyKey, if_pos h]
    exact ⟨fun heq => ⟨h, (Except.ok.inj heq).symm⟩, fun heq => heq.2 ▸ rfl⟩
  · rw [strncpyKey, if_neg h]
    exact ⟨(by cases ·), fun heq => absurd heq.1 h⟩

theorem statName_eq_ok_iff {key : CString} {name : StatsdStatName} :
    statName key = .ok name ↔ StatKeyFits key ∧ name = statNameOf key := by
  unfold statName StatKeyFits statNameOf
  by_cases hperiod : '.' ∈ key
  · have hlt := List.idxOf_lt_length_of_mem hperiod
    simp only [hperiod, if_true, bind_eq_ok, strncpyKey_eq_ok_iff]
    have hall : (key.drop (key.idxOf '.' + 1)).take (key.length - key.idxOf '.' + 1) =
        key.drop (key.idxOf '.' + 1) := by
      rw [List.take_of_length_le]
      rw [List.length_drop]
      omega
    simp only [hall]
    constructor
    · rintro ⟨group, ⟨hgroup, rfl⟩, name', ⟨hname, rfl⟩, hok⟩
      exact ⟨⟨hgroup, hname⟩, (Except.ok.inj hok).symm⟩
    · rintro ⟨⟨hgroup, hname⟩, rfl⟩
      exact ⟨_, ⟨hgroup, rfl⟩, _, ⟨hname, rfl⟩, rfl⟩
  · simp only [hperiod, if_false, bind_eq_ok, strcpyKey_eq_ok_iff]
    constructor
    · rintro ⟨key', ⟨hfits, rfl⟩, hok⟩
      exact ⟨hfits, (Except.ok.inj hok).symm⟩
    · rintro ⟨hfits, rfl⟩
      exact ⟨key, ⟨hfits, rfl⟩, rfl⟩

theorem loadStat_eq_ok_iff (e : CString × Json) (s : StatsdStat) :
    loadStat e = .ok s ↔ StatKeyFits e.1 ∧ s = statOf e := by
  simp only [loadStat, bind_eq_ok, mapError_eq_ok, statName_eq_ok_iff]
  constructor
  · rintro ⟨name, ⟨hfits, rfl⟩, hok⟩
    exact ⟨hfits, (Except.ok.inj hok).symm⟩
  · rintro ⟨hfits, rfl⟩
    exact ⟨_, ⟨hfits, rfl⟩, rfl⟩

theorem loadGauge_eq_ok_iff (e : CString × Json) (g : StatsdGauge Num) :
    loadGauge e = .ok g ↔ KeyFits e.1 ∧ g = gaugeOf e := by
  simp only [loadGauge, bind_eq_ok, mapError_eq_ok, strcpyKey_eq_ok_iff]
  constructor
  · rintro ⟨key, ⟨hfits, rfl⟩, hok⟩
    exact ⟨hfits, (Except.ok.inj hok).symm⟩
  · rintro ⟨hfits, rfl⟩
    exact ⟨_, ⟨hfits, rfl⟩, rfl⟩

theorem loadCounter_eq_ok_iff (e : CString × Json) (c : StatsdCounter Num) :
    loadCounter e = .ok c ↔ KeyFits e.1 ∧ c = counterOf e := by
  simp only [loadCounter, bind_eq_ok, mapError_eq_ok, strcpyKey_eq_ok_iff]
  constructor
  · rintro ⟨key, ⟨hfits, rfl⟩, hok⟩
    exact ⟨hfits, (Except.ok.inj hok).symm⟩
  · rintro ⟨hfits, rfl⟩
    exact ⟨_, ⟨hfits, rfl⟩, rfl⟩

theorem loadValues_array (elements : List Json) (is : List Nat) :
    loadValues (.array elements) is =
      .ok (is.map fun i => (elements.getD i .null).getDouble) := by
  induction is with
  | nil => rfl
  | cons i is ih =>
    simp only [loadValues, Json.arrayGetIdx, ih, bind, Except.bind, pure, Except.pure,
      List.map_cons]

theorem arrayLength_eq_ok_iff {val : Json} {n : Nat} :
    val.arrayLength = .ok n ↔ ∃ elements, val = .array elements ∧ n = elements.length := by
  cases val <;> simp [Json.arrayLength, eq_comm]

theorem loadTimer_eq_ok_iff (e : CString × Json) (s : StatsdTimer Num) :
    loadTimer e = .ok s ↔ (KeyFits e.1 ∧ ∃ elements, e.2 = .array elements) ∧ s = timerOf e := by
  simp only [loadTimer, bind_eq_ok, mapError_eq_ok, strcpyKey_eq_ok_iff,
    arrayLength_eq_ok_iff]
  obtain ⟨key, val⟩ := e
  have hvalues : ∀ elements : List Json,
      loadValues (.array elements) (List.range elements.length) =
        .ok (elements.map Json.getDouble) := fun elements => by
    have hmap := congrArg (List.map Json.getDouble) (Json.map_getD_range elements)
    rw [List.map_map] at hmap
    rw [loadValues_array]
    exact congrArg _ hmap
  constructor
  · rintro ⟨key', ⟨hfits, rfl⟩, n, ⟨elements, rfl, rfl⟩, values, hload, hok⟩
    have heq := (hvalues elements).symm.trans hload
    obtain rfl := Except.ok.inj heq
    exact ⟨⟨hfits, elements, rfl⟩, (Except.ok.inj hok).symm⟩
  · rintro ⟨⟨hfits, elements, rfl⟩, rfl⟩
    exact ⟨key, ⟨hfits, rfl⟩, _, ⟨elements, rfl, rfl⟩, _, hvalues elements, rfl⟩

theorem snapshotSection_eq_ok_iff {obj : Except JsonTokenerError Json} {key : CString}
    {entries : List (CString × Json)} :
    snapshotSection obj key = .ok entries ↔
      ∃ jso, obj = .ok jso ∧ jso.objectGet key = .ok (.object entries) := by
  simp only [snapshotSection, mapError_eq_ok, bind_eq_ok]
  constructor
  · rintro ⟨jso, hfollow, objSection, hget, hforeach⟩
    cases obj with
    | error e => cases hfollow
    | ok jso' =>
      obtain rfl := Except.ok.inj hfollow
      cases objSection with
      | object entries' =>
        obtain rfl := Except.ok.inj hforeach
        exact ⟨jso', rfl, hget⟩
      | null | boolean _ | double _ | int _ | array _ | string _ => cases hforeach
  · rintro ⟨jso, rfl, hget⟩
    exact ⟨jso, rfl, _, hget, rfl⟩

/-- The entries of the four sections, in the order in which the objects have them. -/
structure Sections where
  stats : List (CString × Json)
  timers : List (CString × Json)
  gauges : List (CString × Json)
  counters : List (CString × Json)

/-- A text that parses to an object with these sections, each of them an object. -/
structure HasSections (text : CString) (s : Sections) : Prop where
  parses : ∃ obj, jsonTokenerParse text = .ok obj ∧
    obj.objectGet "stats".toList = .ok (.object s.stats) ∧
    obj.objectGet "timers".toList = .ok (.object s.timers) ∧
    obj.objectGet "gauges".toList = .ok (.object s.gauges) ∧
    obj.objectGet "counters".toList = .ok (.object s.counters)

/-- Sections of which every entry can be loaded: the keys fit, and the timers are arrays. -/
structure Sections.Loadable (s : Sections) : Prop where
  stats : ∀ e ∈ s.stats, StatKeyFits e.1
  timers : ∀ e ∈ s.timers, KeyFits e.1 ∧ ∃ elements, e.2 = .array elements
  gauges : ∀ e ∈ s.gauges, KeyFits e.1
  counters : ∀ e ∈ s.counters, KeyFits e.1

/-- The tables with every entry of the sections, and nothing else, in the order of the sections. -/
def Sections.tables (s : Sections) : Tables Num :=
  ⟨s.stats.map statOf, s.counters.map counterOf, s.gauges.map gaugeOf, s.timers.map timerOf⟩

/-- The text in a file: up to its first NUL, of which there are twenty behind the bytes. -/
def fileText (file : List Char) : CString := cstr (file ++ List.replicate 20 nul) 0

/-- **When the reader returns**, and with what: a file of fewer than ten bytes is left
alone, and of any other every entry is loaded. -/
theorem statsdDeserialize_eq_ok_iff {file : List Char} {r : Nat} {t : Tables Num} :
    statsdDeserialize .empty file = .ok (r, t) ↔
      if file.length < 10 then r = 0 ∧ t = .empty
      else ∃ s, HasSections (fileText file) s ∧ s.Loadable ∧ r = 1 ∧ t = s.tables := by
  unfold statsdDeserialize
  by_cases hlen : file.length < 10
  · rw [if_pos hlen, if_pos hlen]
    simp [eq_comm]
  · rw [if_neg hlen, if_neg hlen]
    simp only [bind_eq_ok, snapshotSection_eq_ok_iff, mapM_eq_ok_iff loadStat_eq_ok_iff,
      mapM_eq_ok_iff loadTimer_eq_ok_iff, mapM_eq_ok_iff loadGauge_eq_ok_iff,
      mapM_eq_ok_iff loadCounter_eq_ok_iff]
    constructor
    · rintro ⟨stats, ⟨obj, hobj, hstats⟩, _, ⟨hstatsFit, rfl⟩, timers, ⟨_, h₁, htimers⟩, _,
        ⟨htimersFit, rfl⟩, gauges, ⟨_, h₂, hgauges⟩, _, ⟨hgaugesFit, rfl⟩, counters,
        ⟨_, h₃, hcounters⟩, _, ⟨hcountersFit, rfl⟩, hok⟩
      -- the four sections are those of one object
      obtain rfl := Except.ok.inj (hobj.symm.trans h₁)
      obtain rfl := Except.ok.inj (hobj.symm.trans h₂)
      obtain rfl := Except.ok.inj (hobj.symm.trans h₃)
      obtain ⟨rfl, rfl⟩ := Prod.mk.inj (Except.ok.inj hok)
      exact ⟨⟨stats, timers, gauges, counters⟩,
        ⟨⟨obj, hobj, hstats, htimers, hgauges, hcounters⟩⟩,
        ⟨hstatsFit, htimersFit, hgaugesFit, hcountersFit⟩, rfl, rfl⟩
    · rintro ⟨s, ⟨obj, hobj, hstats, htimers, hgauges, hcounters⟩, hload, rfl, rfl⟩
      exact ⟨_, ⟨obj, hobj, hstats⟩, _, ⟨hload.stats, rfl⟩, _, ⟨obj, hobj, htimers⟩, _,
        ⟨hload.timers, rfl⟩, _, ⟨obj, hobj, hgauges⟩, _, ⟨hload.gauges, rfl⟩, _,
        ⟨obj, hobj, hcounters⟩, _, ⟨hload.counters, rfl⟩, rfl⟩

/-! ## All or nothing -/

/-- The reader returns 1 with every entry of the four sections loaded, or 0 with
nothing loaded. -/
def AllOrNothing (file : List Char) : Prop :=
  (∃ s, HasSections (fileText (bytesRead file)) s ∧
      statsdDeserializeFile .empty file = .ok (1, s.tables)) ∨
    statsdDeserializeFile .empty file = .ok (0, .empty)

/-- The size is the number of bytes that are read, if it is not negative. -/
theorem length_bytesRead {file : List Char} (h : 0 ≤ filesizeOf file) :
    ((bytesRead file).length : Int) = filesizeOf file := by
  have hle : filesizeOf file ≤ file.length := by
    rw [filesizeOf, intOfLong, Int.bmod_def]
    split <;> omega
  rw [bytesRead, List.length_take, Nat.min_eq_left (by omega), Int.toNat_of_nonneg h]

/-- **A file is loaded completely or not at all** exactly if its size, as an `int`, is less
than ten, or the buffer for it can be allocated and what is read of it is an object with the
four sections whose entries all fit. -/
theorem statsdDeserialize_allOrNothing_iff (file : List Char) :
    AllOrNothing file ↔
      filesizeOf file < 10 ∨ filesizeOf file + 20 < 2 ^ 31 ∧
        ∃ s, HasSections (fileText (bytesRead file)) s ∧ s.Loadable := by
  unfold AllOrNothing statsdDeserializeFile
  by_cases hshort : filesizeOf file < 10
  · simp [hshort]
  · have hlen := @length_bytesRead file (by omega)
    by_cases hlong : 2 ^ 31 ≤ filesizeOf file + 20
    · rw [if_neg hshort, if_pos hlong]
      refine iff_of_false ?_ ?_
      · rintro (⟨s, -, ⟨⟩⟩ | ⟨⟨⟩⟩)
      · rintro (hten | ⟨hfits, -⟩)
        · exact hshort hten
        · exact absurd hlong (not_le.mpr hfits)
    · have hten : ¬ (bytesRead file).length < 10 := by omega
      simp only [hshort, hlong, if_false, false_or, statsdDeserialize_eq_ok_iff, hten]
      constructor
      · rintro (⟨_, _, s, hsections, hload, -⟩ | ⟨_, _, _, hone, -⟩)
        · exact ⟨by omega, s, hsections, hload⟩
        · cases hone
      · rintro ⟨-, s, hsections, hload⟩
        exact .inl ⟨s, hsections, s, hsections, hload, trivial, rfl⟩

/-- A file of ten bytes that is no JSON: the error pointer is used as an object. -/
theorem damaged_file_not_survived : ¬ AllOrNothing "not a file".toList := by
  have hfault : statsdDeserializeFile .empty "not a file".toList =
      .error (.json .errorPointer) := statsdDeserializeFile_eq (by decide)
  rintro (⟨s, -, hok⟩ | hok)
  · rw [hfault] at hok
    cases hok
  · rw [hfault] at hok
    cases hok

end StatsdC
