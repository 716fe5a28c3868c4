import StatsdC.Daemon
import StatsdC.PacketSafety

/-!
# What is copied into the key fields

Every way into the tables ends in a `strcpy` or `strncpy` into a field of 100 bytes, and none looks
at the length first.  Here are the strings that a packet or a snapshot copies (`Ingest.copies`), up
to the fault that stops it if there is one, and the exact condition on the packet or the file for
all of them to fit (`copiesFit_iff`).

The three ways are a plain packet, a JSON packet and a snapshot file.  For a plain packet it is the
one key that matters, after `sanitize_key`, and only if there is a call that takes it.  For a JSON
packet it is the key of each object that makes a call, in front of the first element that is no
object.  For a snapshot it is the keys of the sections, in the order in which they are loaded; a
stat's key is cut at its period, the part in front of it is copied without a NUL and may have 100
bytes, and the part behind it is copied with its NUL and one byte more.

That the condition is one on the input means that it is said in terms of what the input is: the
tokens of the packet, or the value that its text is parsed to.  An update that finds its key in the
table copies nothing; but a key that is in a table fits its field, so that the condition on the
input alone is exact in every state that can be reached.

A file counts with the bytes that the reader reads of it (`bytesRead`), which is all of them below
`2 ^ 31`.
-/

namespace StatsdC
open CString OrderedTable Fallible

/-! ## The calls before a fault -/

/-- The calls that have been made, and the fault that ended them, if one did.  `Except` alone would
drop the calls. -/
structure Made (ε β : Type) where
  calls : List β
  fault : Option ε

namespace Made
variable {ε β : Type}

/-- Calls made before the others, which keep their fault. -/
def prepend (calls : List β) (m : Made ε β) : Made ε β := ⟨calls ++ m.calls, m.fault⟩

/-- What is left of them when a fault takes the calls with it. -/
def result (m : Made ε β) : Except ε (List β) :=
  match m.fault with
  | none => .ok m.calls
  | some e => .error e

theorem result_prepend (calls : List β) (m : Made ε β) :
    (m.prepend calls).result = m.result.map (calls ++ ·) := by
  obtain ⟨calls', fault⟩ := m
  cases fault <;> rfl

end Made

section Plain
variable {α : Type} [One α] (strtod : CString → α)

/-- The segments from iteration `i` on, each with its call, up to the one that faults. -/
def segmentsMade (keyName : Option CString) :
    Nat → Charvalue → List CString → Made PacketFault (TracedCall α)
  | _, _, [] => ⟨[], none⟩
  | i, charvalue, seg :: segs =>
    match decodeSegment strtod i keyName charvalue seg with
    | .error e => ⟨[], some e⟩
    | .ok (charvalue, _, call) => (segmentsMade keyName (i + 1) charvalue segs).prepend [call]

/-- A whole packet: its name, and the calls of its segments. -/
def packetMade (packet : CString) : Made PacketFault (TracedCall α) :=
  if packet.length < 2 then
    ⟨[], none⟩
  else
    match tokens ':' packet with
    | [] => ⟨[⟨.updateCounter none 1 1, 0, none⟩], none⟩
    | [key] => ⟨[⟨.updateCounter (some (sanitizeKey key)) 1 1, 1, none⟩], none⟩
    | key :: segs => segmentsMade strtod (some (sanitizeKey key)) 2 .unset segs

theorem segmentsMade_result (keyName : Option CString) (i : Nat) (charvalue : Charvalue)
    (segs : List CString) :
    (segmentsMade strtod keyName i charvalue segs).result =
      decodeSegments strtod keyName i charvalue segs := by
  induction segs generalizing i charvalue with
  | nil => rfl
  | cons seg segs ih =>
    rw [segmentsMade, decodeSegments]
    cases decodeSegment strtod i keyName charvalue seg with
    | error e => rfl
    | ok r =>
      simp only [Made.result_prepend, ih, List.singleton_append]

/-- **The calls of `process_stats_packet`**, those before a fault included. -/
theorem packetMade_result {buf : Buffer} {packet rest : CString}
    (h : StringAt buf 0 packet rest) :
    (packetMade strtod packet).result = processStatsPacket strtod buf := by
  rw [processStatsPacket_eq strtod h, packetMade, decodePacket]
  by_cases hshort : packet.length < 2
  · rw [if_pos hshort, if_pos hshort]
    rfl
  · rw [if_neg hshort, if_neg hshort]
    rcases tokens ':' packet with _ | ⟨key, _ | ⟨seg, segs⟩⟩
    · rfl
    · rfl
    · exact segmentsMade_result strtod _ _ _ (seg :: segs)

end Plain

/-- The elements of an array, one after another, up to the one that faults. -/
def elementsMade : List Json → Made JsonFault (MetricCall Num)
  | [] => ⟨[], none⟩
  | sobj :: elements =>
    match processJsonStatsObject sobj with
    | .error e => ⟨[], some e⟩
    | .ok calls => (elementsMade elements).prepend calls

/-- A JSON packet: the calls of its value, up to a fault. -/
def jsonMade (packet : CString) : Made JsonFault (MetricCall Num) :=
  if packet.length < 2 then
    ⟨[], none⟩
  else
    match jsonTokenerParse packet with
    | .error _ => ⟨[], some .errorPointer⟩
    | .ok (.object entries) => elementsMade [.object entries]
    | .ok (.array elements) => elementsMade elements
    | .ok _ => ⟨[], none⟩

theorem elementsMade_result (obj : List Json) (is : List Nat) :
    (elementsMade (is.map fun i => obj.getD i .null)).result = elementLoop (.array obj) is := by
  induction is with
  | nil => rfl
  | cons i is ih =>
    rw [List.map_cons, elementsMade, elementLoop]
    simp only [Json.arrayGetIdx, bind, Except.bind]
    cases processJsonStatsObject (obj.getD i .null) with
    | error e => rfl
    | ok calls =>
      simp only [Made.result_prepend, ih]
      cases elementLoop (.array obj) is <;> rfl

/-- **The calls of `process_json_stats_packet`**, those before a fault included. -/
theorem jsonMade_result {buf : Buffer} {packet rest : CString} (h : StringAt buf 0 packet rest) :
    (jsonMade packet).result = processJsonStatsPacket buf := by
  unfold jsonMade processJsonStatsPacket
  rw [h.cstr_eq]
  by_cases hshort : packet.length < 2
  · rw [if_pos hshort, if_pos hshort]
    rfl
  · rw [if_neg hshort, if_neg hshort]
    cases jsonTokenerParse packet with
    | error e => rfl
    | ok jso =>
      cases jso with
      | object entries =>
        have hobject := processJsonStatsObject_object entries
        simp only [elementsMade, hobject, follow, Json.getType, bind, Except.bind]
        simp [Made.prepend, Made.result]
      | array elements =>
        have hloop := elementsMade_result elements (List.range elements.length)
        rw [Json.map_getD_range] at hloop
        simp only [follow, Json.getType, Json.arrayLength, bind, Except.bind, hloop]
      | null | boolean _ | double _ | int _ | string _ => rfl

/-! ## The copies -/

/-- The key that is copied into an entry, if there has to be a new one. -/
def newKey {ε : Type} (keyOf : ε → CString) (table : List ε) (key : CString) : List CString :=
  if find keyOf table key = none then [key] else []

/-- What a call copies: its key, where the table has no entry for it yet. -/
def MetricCall.copies (t : Tables Num) : MetricCall Num → List CString
  | .updateCounter (some key) _ _ => newKey StatsdCounter.key t.counters key
  | .updateTimer (some key) _ => newKey StatsdTimer.key t.timers key
  | .updateGaugePlusminus (some key) _ _ => newKey StatsdGauge.key t.gauges key
  | .updateCounter none _ _ | .updateTimer none _ | .updateGaugePlusminus none _ _ => []

/-- What calls copy one after another, and then `rest`.  A call that does not fit ends the process.
-/
def callsCopies (rest : List CString) : Tables Num → List (MetricCall Num) → List CString
  | _, [] => rest
  | t, call :: calls =>
    call.copies t ++
      match call.apply t with
      | .error _ => []
      | .ok t => callsCopies rest t calls

/-- `update_stat` copies both parts of a name, and once more if it is new. -/
def lastMsgSeenCopies : List CString := ["messages".toList, "last_msg_seen".toList]

/-- `process_stats_packet`: the copies of its calls, and then those of `UPDATE_LAST_MSG_SEEN`. -/
def plainCopies (t : Tables Num) (packet : CString) : List CString :=
  let made := packetMade strtod packet
  callsCopies (if made.fault.isNone then lastMsgSeenCopies else []) t
    (made.calls.map TracedCall.call)

/-- `process_json_stats_packet`.  Only a short packet updates the time of the last
message. -/
def jsonCopies (t : Tables Num) (packet : CString) : List CString :=
  callsCopies (if packet.length < 2 then lastMsgSeenCopies else []) t (jsonMade packet).calls

/-- What a key of the stats section is cut into: the two parts around its first period, or the whole
key. -/
def statCopies (key : CString) : List CString :=
  if '.' ∈ key then [key.take (key.idxOf '.'), key.drop (key.idxOf '.' + 1)] else [key]

/-- A value whose length can be asked for, which is what the loop over the samples does. -/
def Json.isArray : Json → Bool
  | array _ => true
  | _ => false

/-- The loop over a section: what the entries copy, as long as it goes on, and then
`rest`. -/
def entriesCopies (copies : CString × Json → List CString) (goesOn : CString × Json → Bool)
    (rest : List CString) : List (CString × Json) → List CString
  | [] => rest
  | e :: es => copies e ++ if goesOn e then entriesCopies copies goesOn rest es else []

/-- A section of the file, and then `rest`.  An entry that the loader cannot use ends the process.
-/
def sectionCopies (obj : Except JsonTokenerError Json) (key : CString)
    (copies : CString × Json → List CString) (goesOn : CString × Json → Bool)
    (rest : List CString) : List CString :=
  match snapshotSection obj key with
  | .error _ => []
  | .ok entries => entriesCopies copies goesOn rest entries

/-- `statsd_deserialize`, of what it reads of a file.  Nothing is copied where the size of the
buffer is no `int`. -/
def snapshotCopies (file : List Char) : List CString :=
  if filesizeOf file < 10 ∨ 2 ^ 31 ≤ filesizeOf file + 20 then
    []
  else
    let obj := jsonTokenerParse (fileText (bytesRead file))
    sectionCopies obj "stats".toList (fun e => statCopies e.1) (fun _ => true) <|
    -- the length of a timer's array is asked for once its key is copied
    sectionCopies obj "timers".toList (fun e => [e.1]) (fun e => e.2.isArray) <|
    sectionCopies obj "gauges".toList (fun e => [e.1]) (fun _ => true) <|
    sectionCopies obj "counters".toList (fun e => [e.1]) (fun _ => true) []

/-- What comes in: a packet of one of the two kinds, or the file at the start. -/
inductive Ingest where
  | plain (packet : QueuedPacket)
  | json (packet : QueuedPacket)
  | snapshot (file : List Char)

/-- The strings that are copied into the key fields, from given tables on, in the order of the
copies. -/
def Ingest.copies (t : Tables Num) : Ingest → List CString
  | plain packet => plainCopies t packet.text
  | json packet => jsonCopies t packet.text
  | snapshot file => snapshotCopies file

/-- They all fit, each with its NUL in a field of 100 bytes. -/
def CopiesFit (t : Tables Num) (i : Ingest) : Prop := ∀ s ∈ i.copies t, s.length ≤ 99

/-! ## Calls -/

/-- Tables whose metric keys fit, which every reachable state has. -/
structure MetricKeysFit (t : Tables Num) : Prop where
  counters : ∀ c ∈ t.counters, KeyFits c.key
  timers : ∀ s ∈ t.timers, KeyFits s.key
  gauges : ∀ g ∈ t.gauges, KeyFits g.key

theorem reachable_metricKeysFit {firstByte : Num → Int} {t : Tables Num}
    (h : (daemon firstByte).Reachable t) : MetricKeysFit t := by
  have hfits := (reachable_daemonState h).keysFit
  exact ⟨hfits.counters, hfits.timers, hfits.gauges⟩

/-- A call with a key and, for a gauge, one of the three ways to update it. -/
def MetricCall.Meaningful : MetricCall Num → Prop
  | .updateGaugePlusminus key _ plusminus => key ≠ none ∧ plusminus < 3
  | .updateCounter key _ _ | .updateTimer key _ => key ≠ none

theorem MetricCall.Meaningful.exists_key {call : MetricCall Num} (h : call.Meaningful) :
    ∃ key, call.key = some key := by
  cases call with
  | updateCounter key value sampleRate => exact Option.ne_none_iff_exists'.mp h
  | updateTimer key value => exact Option.ne_none_iff_exists'.mp h
  | updateGaugePlusminus key value plusminus => exact Option.ne_none_iff_exists'.mp h.1

section Calls
variable {t t' : Tables Num} {call : MetricCall Num} {key : CString}

theorem mem_newKey {ε : Type} {keyOf : ε → CString} {table : List ε} {s : CString}
    (h : s ∈ newKey keyOf table key) : s = key := by
  unfold newKey at h
  split at h
  · exact List.mem_singleton.mp h
  · cases h

/-- A key that does not fit is in no table, and so it is copied. -/
theorem mem_newKey_of_long {ε : Type} {keyOf : ε → CString} {table : List ε}
    (h : ∀ e ∈ table, KeyFits (keyOf e)) (hlong : ¬ KeyFits key) :
    key ∈ newKey keyOf table key := by
  have hnone : find keyOf table key = none :=
    (find_eq_none_iff keyOf).mpr fun e he heq => hlong (heq ▸ h e he)
  rw [newKey, if_pos hnone]
  exact List.mem_singleton_self key

/-- A call copies nothing but its key, since the values are numbers. -/
theorem MetricCall.mem_copies {s : CString} (h : s ∈ call.copies t) : call.key = some s := by
  cases call with
  | updateCounter key value sampleRate =>
    cases key with
    | none => cases h
    | some key => exact congrArg some (mem_newKey h).symm
  | updateTimer key value =>
    cases key with
    | none => cases h
    | some key => exact congrArg some (mem_newKey h).symm
  | updateGaugePlusminus key value plusminus =>
    cases key with
    | none => cases h
    | some key => exact congrArg some (mem_newKey h).symm

theorem MetricCall.mem_copies_of_long (h : MetricKeysFit t) (hkey : call.key = some key)
    (hlong : ¬ KeyFits key) : key ∈ call.copies t := by
  cases call with
  | updateCounter key' value sampleRate =>
    obtain rfl : key' = some key := hkey
    exact mem_newKey_of_long h.counters hlong
  | updateTimer key' value =>
    obtain rfl : key' = some key := hkey
    exact mem_newKey_of_long h.timers hlong
  | updateGaugePlusminus key' value plusminus =>
    obtain rfl : key' = some key := hkey
    exact mem_newKey_of_long h.gauges hlong

/-- A call with a key that fits goes through, whatever the tables are. -/
theorem MetricCall.exists_apply_ok (hcall : call.Meaningful) (hkey : call.key = some key)
    (hfits : KeyFits key) : ∃ t', call.apply t = .ok t' := by
  have hcopy := strcpyKey_of_lt hfits
  cases call with
  | updateCounter key' value sampleRate =>
    obtain rfl : key' = some key := hkey
    simp only [apply, StatsdC.updateCounter, hcopy, bind, Except.bind]
    split <;> exact ⟨_, rfl⟩
  | updateTimer key' value =>
    obtain rfl : key' = some key := hkey
    simp only [apply, StatsdC.updateTimer, hcopy, bind, Except.bind]
    split <;> exact ⟨_, rfl⟩
  | updateGaugePlusminus key' value plusminus =>
    obtain rfl : key' = some key := hkey
    have hvalue : ∃ v, plusminusValue 0 value plusminus = some v := by
      unfold plusminusValue
      rw [if_pos hcall.2]
      split
      · exact ⟨_, rfl⟩
      · split <;> exact ⟨_, rfl⟩
    obtain ⟨v, hv⟩ := hvalue
    simp only [apply, StatsdC.updateGaugePlusminus, hcopy, hv, bind, Except.bind]
    split <;> exact ⟨_, rfl⟩

theorem forall_keyFits_of_after {ε : Type} {keyOf : ε → CString} {table table' : List ε}
    (h : ∀ e ∈ table, KeyFits (keyOf e))
    (hkeys : KeysAfter key (table.map keyOf) (table'.map keyOf)) :
    ∀ e ∈ table', KeyFits (keyOf e) := by
  intro e he
  have hmem : keyOf e ∈ table'.map keyOf := List.mem_map_of_mem he
  generalize table'.map keyOf = keys' at hkeys hmem
  have hold : ∀ k ∈ table.map keyOf, KeyFits k := List.forall_mem_map.mpr h
  cases hkeys with
  | same => exact hold _ hmem
  | new _ hlt =>
    rcases List.mem_append.mp hmem with hmem | hmem
    · exact hold _ hmem
    · rw [List.mem_singleton.mp hmem]
      exact hlt

/-- The keys still fit afterwards, since a call that goes through has copied its key. -/
theorem MetricKeysFit.apply (h : MetricKeysFit t) (hok : call.apply t = .ok t') :
    MetricKeysFit t' := by
  obtain ⟨key, -, hcases⟩ := call.apply_cases hok
  rcases hcases with ⟨counters, rfl, hkeys⟩ | ⟨timers, rfl, hkeys⟩ | ⟨gauges, rfl, hkeys⟩
  · exact ⟨forall_keyFits_of_after h.counters hkeys, h.timers, h.gauges⟩
  · exact ⟨h.counters, forall_keyFits_of_after h.timers hkeys, h.gauges⟩
  · exact ⟨h.counters, h.timers, forall_keyFits_of_after h.gauges hkeys⟩

/-- **Calls one after another** copy what fits exactly if their keys do. -/
theorem callsCopies_fit_iff {rest : List CString} {calls : List (MetricCall Num)}
    (h : MetricKeysFit t) (hcalls : ∀ c ∈ calls, c.Meaningful)
    (hrest : ∀ s ∈ rest, s.length ≤ 99) :
    (∀ s ∈ callsCopies rest t calls, s.length ≤ 99) ↔
      ∀ c ∈ calls, ∀ key, c.key = some key → key.length ≤ 99 := by
  induction calls generalizing t with
  | nil => exact iff_of_true hrest nofun
  | cons c calls ih =>
    obtain ⟨hc, hcalls⟩ := List.forall_mem_cons.mp hcalls
    obtain ⟨key, hkey⟩ := hc.exists_key
    simp only [callsCopies, List.forall_mem_append, List.forall_mem_cons]
    by_cases hfits : KeyFits key
    · have hle : key.length ≤ 99 := Nat.le_of_lt_succ hfits
      obtain ⟨t', hok⟩ := MetricCall.exists_apply_ok hc hkey hfits
      have hcopied : ∀ s ∈ c.copies t, s.length ≤ 99 := by
        intro s hs
        have heq := MetricCall.mem_copies hs
        rw [hkey, Option.some.injEq] at heq
        rwa [← heq]
      have hown : ∀ key, c.key = some key → key.length ≤ 99 := by
        intro key' hkey'
        rw [hkey, Option.some.injEq] at hkey'
        rwa [← hkey']
      rw [hok]
      simp only [ih (h.apply hok) hcalls, iff_true_intro hcopied, iff_true_intro hown]
    · have hlong : ¬ key.length ≤ 99 := fun hle => hfits (Nat.lt_succ_of_le hle)
      refine iff_of_false (fun hall => ?_) fun hall => hlong (hall.1 key hkey)
      exact hlong (hall.1 key (MetricCall.mem_copies_of_long h hkey hfits))

end Calls

theorem lastMsgSeenCopies_fit : ∀ s ∈ lastMsgSeenCopies, s.length ≤ 99 := by decide

/-! ## Plain packets -/

/-- The key of a plain packet, where there is a call to make under it: it stands alone, or
its first segment sets `charvalue`. -/
def PlainKeyFits (packet : CString) : Prop :=
  2 ≤ packet.length →
    match tokens ':' packet with
    | [] => True
    | [key] => (sanitizeKey key).length ≤ 99
    | key :: seg :: _ => SetsCharvalue seg → (sanitizeKey key).length ≤ 99

section Plain
variable {t : Tables Num}

theorem dispatch_meaningful {i : Nat} {key : CString} {d : Decoded} {charvalue : Charvalue}
    {value : Num} {call : TracedCall Num}
    (h : dispatch strtod i (some key) d = .ok (charvalue, value, call)) :
    call.call.Meaningful := by
  obtain ⟨-, hcall | ⟨plusminus, hlt, hcall⟩ | ⟨sampleRate, hcall⟩⟩ := dispatch_cases h
  · rw [hcall]
    exact Option.some_ne_none key
  · rw [hcall]
    exact ⟨Option.some_ne_none key, hlt⟩
  · rw [hcall]
    exact Option.some_ne_none key

theorem segmentsMade_calls {key : CString} {i : Nat} {charvalue : Charvalue}
    {segs : List CString} :
    ∀ c ∈ (segmentsMade strtod (some key) i charvalue segs).calls,
      c.call.key = some key ∧ c.call.Meaningful := by
  induction segs generalizing i charvalue with
  | nil => exact nofun
  | cons seg segs ih =>
    unfold segmentsMade
    cases hseg : decodeSegment strtod i (some key) charvalue seg with
    | error e => exact nofun
    | ok r =>
      obtain ⟨charvalue', value, call⟩ := r
      exact List.forall_mem_cons.mpr ⟨⟨dispatch_key hseg, dispatch_meaningful hseg⟩, ih⟩

/-- The first segment makes a call if it sets `charvalue`, and only then. -/
theorem segmentsMade_ne_nil_iff {key : CString} {i : Nat} {seg : CString} {segs : List CString} :
    (segmentsMade strtod (some key) i .unset (seg :: segs)).calls ≠ [] ↔ SetsCharvalue seg := by
  rw [segmentsMade]
  by_cases hsets : SetsCharvalue seg
  · obtain ⟨charvalue, value, call, hok, -⟩ :=
      decodeSegment_sets strtod i key .unset hsets
    rw [hok]
    exact iff_of_true (List.cons_ne_nil _ _) hsets
  · have herror : decodeSegment strtod i (some key) .unset seg = .error .charvalueUnset := by
      rw [decodeSegment, fieldsOf_eq_nil_iff.mpr hsets]
      rfl
    rw [herror]
    exact iff_of_false (fun hne => hne rfl) hsets

theorem plainCopies_fit_iff (h : MetricKeysFit t) (packet : CString) :
    (∀ s ∈ plainCopies t packet, s.length ≤ 99) ↔ PlainKeyFits packet := by
  have hrest : ∀ b : Bool, ∀ s ∈ (if b then lastMsgSeenCopies else []), s.length ≤ 99 := by
    intro b
    cases b with
    | false => exact nofun
    | true => exact lastMsgSeenCopies_fit
  unfold plainCopies PlainKeyFits packetMade
  by_cases hshort : packet.length < 2
  · rw [if_pos hshort]
    exact iff_of_true (hrest true) fun hlong => absurd hshort (by omega)
  · rw [if_neg hshort]
    simp only [not_lt.mp hshort, true_implies]
    rcases tokens ':' packet with _ | ⟨key, _ | ⟨seg, segs⟩⟩
    · -- the key is `NULL`
      exact iff_of_true nofun trivial
    · rw [callsCopies_fit_iff h (by simp [MetricCall.Meaningful]) (hrest _)]
      simp [MetricCall.key]
    · have hcalls := @segmentsMade_calls (sanitizeKey key) 2 .unset (seg :: segs)
      rw [callsCopies_fit_iff h (List.forall_mem_map.mpr fun c hc => (hcalls c hc).2) (hrest _),
        List.forall_mem_map]
      constructor
      · intro hall hsets
        obtain ⟨c, hc⟩ := List.exists_mem_of_ne_nil _ (segmentsMade_ne_nil_iff.mpr hsets)
        exact hall c hc _ (hcalls c hc).1
      · intro hfits c hc key' hkey'
        rw [(hcalls c hc).1, Option.some.injEq] at hkey'
        rw [← hkey']
        exact hfits (segmentsMade_ne_nil_iff.mp (List.ne_nil_of_mem hc))

end Plain

/-! ## JSON packets -/

namespace Json

/-- A member of an object; `null` if there is none, as `json_object_object_get` returns it. -/
def member (entries : List (CString × Json)) (key : CString) : Json :=
  ((lookup Prod.fst entries key).map Prod.snd).getD .null

/-- Whether `json_object_object_get` can be asked. -/
def isObject : Json → Bool
  | object _ => true
  | _ => false

end Json

/-- The name that an object updates: of its timer or of its counter, if there is only one
of them, and a value. -/
def updatedName (entries : List (CString × Json)) : Option CString :=
  let timer := Json.member entries "timer".toList
  let counter := Json.member entries "counter".toList
  if (Json.member entries "value".toList).isNull then none
  else if timer.isNull then counter.getString
  else if counter.isNull then timer.getString
  else none

/-- The name that an element of a JSON packet updates fits its field once it is sanitized. -/
def NameFits : Json → Prop
  | .object entries => ∀ name ∈ updatedName entries, (sanitizeKey name).length ≤ 99
  | _ => True

/-- The names in a JSON packet, up to the first element that is not an object. -/
def JsonKeysFit (packet : CString) : Prop :=
  2 ≤ packet.length →
    match jsonTokenerParse packet with
    | .ok (.object entries) => NameFits (.object entries)
    | .ok (.array elements) => ∀ x ∈ elements.takeWhile Json.isObject, NameFits x
    | _ => True

section JsonPackets
variable {t : Tables Num}

theorem getString_of_not_isNull {jso : Json} (h : jso.isNull = false) :
    ∃ name, jso.getString = some name := by
  cases jso with
  | null => cases h
  | string s => exact ⟨s, rfl⟩
  | boolean _ | double _ | int _ | object _ | array _ => exact ⟨_, rfl⟩

theorem getString_of_isNull {jso : Json} (h : jso.isNull = true) : jso.getString = none := by
  cases jso with
  | null => rfl
  | string _ | boolean _ | double _ | int _ | object _ | array _ => cases h

/-- **An object** makes a call under the name it updates, if there is one. -/
theorem processJsonStatsObject_name (entries : List (CString × Json)) :
    match updatedName entries with
    | none => processJsonStatsObject (.object entries) = .ok []
    | some name => ∃ call, processJsonStatsObject (.object entries) = .ok [call] ∧
        call.key = some (sanitizeKey name) ∧ call.Meaningful := by
  have hget : ∀ k, (Json.object entries).objectGet k = .ok (Json.member entries k) := fun _ => rfl
  unfold updatedName
  simp only [processJsonStatsObject, hget, bind, Except.bind, pure, Except.pure]
  generalize Json.member entries "timer".toList = timer
  generalize Json.member entries "counter".toList = counter
  generalize Json.member entries "value".toList = value
  cases htimer : timer.isNull with
  | false =>
    obtain ⟨name, hname⟩ := getString_of_not_isNull htimer
    rw [hname]
    cases hcounter : counter.isNull with
    | false => cases value.isNull <;> rfl
    | true =>
      cases value.isNull with
      | false => exact ⟨_, rfl, rfl, Option.some_ne_none _⟩
      | true => rfl
  | true =>
    cases hcounter : counter.isNull with
    | false =>
      obtain ⟨name, hname⟩ := getString_of_not_isNull hcounter
      rw [hname]
      cases value.isNull with
      | false => exact ⟨_, rfl, rfl, Option.some_ne_none _⟩
      | true => rfl
    | true =>
      rw [getString_of_isNull hcounter]
      cases value.isNull <;> rfl

/-- Its call fits if the name does, and no call is made without a name. -/
theorem processJsonStatsObject_fits (entries : List (CString × Json)) :
    ∃ calls, processJsonStatsObject (.object entries) = .ok calls ∧
      (∀ c ∈ calls, c.Meaningful) ∧
      ((∀ c ∈ calls, ∀ key, c.key = some key → key.length ≤ 99) ↔ NameFits (.object entries)) := by
  have hname := processJsonStatsObject_name entries
  unfold NameFits
  cases hupdated : updatedName entries with
  | none =>
    rw [hupdated] at hname
    refine ⟨[], hname, nofun, iff_of_true nofun fun name h => ?_⟩
    rw [hupdated] at h
    cases h
  | some name =>
    rw [hupdated] at hname
    obtain ⟨call, hok, hkey, hcall⟩ := hname
    refine ⟨[call], hok, by simpa using hcall, ?_⟩
    simp [hkey, hupdated]

theorem elementsMade_keys (elements : List Json) :
    (∀ c ∈ (elementsMade elements).calls, c.Meaningful) ∧
      ((∀ c ∈ (elementsMade elements).calls, ∀ key, c.key = some key → key.length ≤ 99) ↔
        ∀ x ∈ elements.takeWhile Json.isObject, NameFits x) := by
  induction elements with
  | nil => exact ⟨nofun, iff_of_true nofun nofun⟩
  | cons x elements ih =>
    by_cases hobject : x.IsObject
    · obtain ⟨entries, rfl⟩ := hobject
      obtain ⟨calls, hok, hmeaningful, hfits⟩ := processJsonStatsObject_fits entries
      rw [elementsMade, hok, List.takeWhile_cons_of_pos rfl]
      simp only [Made.prepend, List.forall_mem_append, List.forall_mem_cons]
      exact ⟨⟨hmeaningful, ih.1⟩, and_congr hfits ih.2⟩
    · obtain ⟨fault, herror⟩ := processJsonStatsObject_error hobject
      have hstop : ¬ x.isObject = true := by
        intro h
        cases x with
        | object entries => exact hobject ⟨entries, rfl⟩
        | null | boolean _ | double _ | int _ | array _ | string _ => cases h
      rw [elementsMade, herror, List.takeWhile_cons_of_neg hstop]
      exact ⟨nofun, iff_of_true nofun nofun⟩

theorem jsonCopies_fit_iff (h : MetricKeysFit t) (packet : CString) :
    (∀ s ∈ jsonCopies t packet, s.length ≤ 99) ↔ JsonKeysFit packet := by
  have hkeys := elementsMade_keys
  unfold jsonCopies JsonKeysFit jsonMade
  by_cases hshort : packet.length < 2
  · rw [if_pos hshort, if_pos hshort]
    exact iff_of_true lastMsgSeenCopies_fit fun hlong => absurd hshort (by omega)
  · rw [if_neg hshort, if_neg hshort]
    simp only [not_lt.mp hshort, true_implies]
    cases jsonTokenerParse packet with
    | error e => exact iff_of_true nofun trivial
    | ok jso =>
      cases jso with
      | object entries =>
        rw [callsCopies_fit_iff h (hkeys [.object entries]).1 (by simp), (hkeys _).2]
        exact List.forall_mem_singleton
      | array elements =>
        rw [callsCopies_fit_iff h (hkeys elements).1 (by simp)]
        exact (hkeys elements).2
      | null | boolean _ | double _ | int _ | string _ => exact iff_of_true nofun trivial

end JsonPackets

/-! ## Snapshots -/

/-- A key of the stats section whose parts fit. -/
def StatNameFits (key : CString) : Prop :=
  if '.' ∈ key then key.idxOf '.' ≤ 99 ∧ key.length - (key.idxOf '.' + 1) ≤ 99
  else key.length ≤ 99

theorem statCopies_fit_iff (key : CString) :
    (∀ s ∈ statCopies key, s.length ≤ 99) ↔ StatNameFits key := by
  unfold statCopies StatNameFits
  by_cases hperiod : '.' ∈ key
  · have hlt := List.idxOf_lt_length_of_mem hperiod
    rw [if_pos hperiod, if_pos hperiod, List.forall_mem_cons, List.forall_mem_singleton,
      List.length_take, List.length_drop, Nat.min_eq_left hlt.le]
  · rw [if_neg hperiod, if_neg hperiod, List.forall_mem_singleton]

/-- The entries that a loop gets to: up to the first that stops it, which is included. -/
def entriesReached (goesOn : CString × Json → Bool) : List (CString × Json) → List (CString × Json)
  | [] => []
  | e :: es => e :: if goesOn e then entriesReached goesOn es else []

/-- The keys in a section that the loader gets to, and `rest` if it gets through. -/
def SectionFits (obj : Except JsonTokenerError Json) (key : CString) (fits : CString → Prop)
    (goesOn : CString × Json → Bool) (rest : Prop) : Prop :=
  ∀ entries, snapshotSection obj key = .ok entries →
    (∀ e ∈ entriesReached goesOn entries, fits e.1) ∧ (entries.all goesOn = true → rest)

/-- The keys in a file that the loader gets to, if the file is long enough to be parsed at all. -/
def SnapshotKeysFit (file : List Char) : Prop :=
  10 ≤ filesizeOf file ∧ filesizeOf file + 20 < 2 ^ 31 →
    let obj := jsonTokenerParse (fileText (bytesRead file))
    SectionFits obj "stats".toList StatNameFits (fun _ => true) <|
    SectionFits obj "timers".toList (fun key => key.length ≤ 99) (fun e => e.2.isArray) <|
    SectionFits obj "gauges".toList (fun key => key.length ≤ 99) (fun _ => true) <|
    SectionFits obj "counters".toList (fun key => key.length ≤ 99) (fun _ => true) True

section Snapshots
variable {copies : CString × Json → List CString} {goesOn : CString × Json → Bool}
variable {rest : List CString}

theorem entriesCopies_fit_iff (entries : List (CString × Json)) :
    (∀ s ∈ entriesCopies copies goesOn rest entries, s.length ≤ 99) ↔
      (∀ e ∈ entriesReached goesOn entries, ∀ s ∈ copies e, s.length ≤ 99) ∧
        (entries.all goesOn = true → ∀ s ∈ rest, s.length ≤ 99) := by
  induction entries with
  | nil => simp [entriesCopies, entriesReached]
  | cons e entries ih =>
    simp only [entriesCopies, entriesReached, List.forall_mem_append, List.forall_mem_cons,
      List.all_cons, Bool.and_eq_true]
    by_cases hgo : goesOn e = true
    · simp only [hgo, if_true, ih, true_and, and_assoc]
    · simp [hgo]

theorem sectionCopies_fit_iff {obj : Except JsonTokenerError Json} {key : CString}
    {fits : CString → Prop} {restFits : Prop}
    (hcopies : ∀ e, (∀ s ∈ copies e, s.length ≤ 99) ↔ fits e.1)
    (hrest : (∀ s ∈ rest, s.length ≤ 99) ↔ restFits) :
    (∀ s ∈ sectionCopies obj key copies goesOn rest, s.length ≤ 99) ↔
      SectionFits obj key fits goesOn restFits := by
  unfold sectionCopies SectionFits
  cases snapshotSection obj key with
  | error e => exact iff_of_true nofun nofun
  | ok entries =>
    simp only [entriesCopies_fit_iff, hcopies, hrest, Except.ok.injEq, forall_eq']

theorem snapshotCopies_fit_iff (file : List Char) :
    (∀ s ∈ snapshotCopies file, s.length ≤ 99) ↔ SnapshotKeysFit file := by
  have hkey : ∀ e : CString × Json, (∀ s ∈ [e.1], s.length ≤ 99) ↔ e.1.length ≤ 99 :=
    fun _ => List.forall_mem_singleton
  unfold snapshotCopies SnapshotKeysFit
  by_cases hsize : filesizeOf file < 10 ∨ 2 ^ 31 ≤ filesizeOf file + 20
  · rw [if_pos hsize]
    exact iff_of_true nofun fun hread => absurd hsize (by omega)
  · have hread : 10 ≤ filesizeOf file ∧ filesizeOf file + 20 < 2 ^ 31 := by omega
    rw [if_neg hsize]
    simp only [hread, and_self, true_implies]
    exact sectionCopies_fit_iff (fun e => statCopies_fit_iff e.1) <|
      sectionCopies_fit_iff hkey <| sectionCopies_fit_iff hkey <|
      sectionCopies_fit_iff hkey <| iff_of_true nofun trivial

end Snapshots

/-! ## The promise -/

/-- The condition on a packet or a file. -/
def Ingest.KeysFit : Ingest → Prop
  | plain packet => PlainKeyFits packet.text
  | json packet => JsonKeysFit packet.text
  | snapshot file => SnapshotKeysFit file

/-- **When every copy fits its field**, in every state that can be reached. -/
theorem copiesFit_iff {firstByte : Num → Int} {t : Tables Num}
    (h : (daemon firstByte).Reachable t) (i : Ingest) : CopiesFit t i ↔ i.KeysFit := by
  have hmetric := reachable_metricKeysFit h
  cases i with
  | plain packet => exact plainCopies_fit_iff hmetric packet.text
  | json packet => exact jsonCopies_fit_iff hmetric packet.text
  | snapshot file => exact snapshotCopies_fit_iff file

/-- The packet `a:1|c`. -/
def shortKeyPacket : QueuedPacket := ⟨"a:1|c".toList, by decide, by decide⟩

theorem copiesFit_shortKey : (daemon fun _ => 0).Reachable startTables ∧
    CopiesFit startTables (.plain shortKeyPacket) := by
  have hreach := reachable_startTables fun _ => 0
  have htokens : tokens ':' shortKeyPacket.text = [['a'], "1|c".toList] := by decide
  refine ⟨hreach, (copiesFit_iff hreach _).mpr fun _ => ?_⟩
  rw [htokens]
  intro _
  decide

/-- A packet of a hundred letters. -/
def longKeyPacket : QueuedPacket := ⟨List.replicate 100 'a', by decide, by decide⟩

/-- **A key of a hundred letters** is copied with its NUL behind the end of its field. -/
theorem long_key_not_fit : (daemon fun _ => 0).Reachable startTables ∧
    ¬ CopiesFit startTables (.plain longKeyPacket) := by
  have hreach := reachable_startTables fun _ => 0
  have hfits := reachable_metricKeysFit hreach
  have htokens : tokens ':' longKeyPacket.text = [longKeyPacket.text] :=
    tokens_single (by decide) (by decide)
  refine ⟨hreach, fun h => ?_⟩
  have hkey := (plainCopies_fit_iff hfits longKeyPacket.text).mp h (by decide)
  rw [htokens] at hkey
  exact absurd hkey (by decide)

end StatsdC
