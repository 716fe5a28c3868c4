import StatsdC.JsonTokener
import StatsdC.Packet

/-!
# `process_json_stats_packet`

The JSON front end: one object, or an array of them, each with a `timer` or a `counter` and its
`value`.  A counter may have a `sample_rate`, which is taken to be zero if it is not there.

What `json_tokener_parse` returns is followed without a look at whether it is an error pointer, and
the elements of an array without a look at their type.  Each such access is a fault of the model,
so that the theorem can say exactly which packets are harmless.  `SkipsBadJson` is what one would
want: no access is illegal, a text that does not parse makes no call, and the elements of an array
make the calls that they make by themselves.  `processJsonStatsPacket_skips_iff` is the exact
condition: the packet is short, or it parses, and then there is nothing but objects in it if it is
an array.

The two ways to fail are an error pointer that is used as an object, for a text that does not parse
(`unparsable_packet_not_skipped`), and an element that is no object, or a `null`, which is a null
pointer.

An object without a `timer` and a `counter`, or without a `value`, makes no call and is no fault.
The calls are those of `StatsdC.Packet`, and their effect on the tables is not part of this.
-/

namespace StatsdC
open CString

namespace Json

/-- A value that is `NULL`, which is also what a missing key gives. -/
def isNull : Json → Bool
  | null => true
  | _ => false

/-- A value that is an object. -/
def IsObject (jso : Json) : Prop := ∃ entries, jso = object entries

end Json

/-- `process_json_stats_object`: the calls it makes.  The first of the three kinds that is there
decides. -/
def processJsonStatsObject (sobj : Json) : Except JsonFault (List (MetricCall Num)) := do
  let timerObj ← sobj.objectGet "timer".toList
  let counterObj ← sobj.objectGet "counter".toList
  if !timerObj.isNull && !counterObj.isNull then
    return []
  if !timerObj.isNull then
    let valueObj ← sobj.objectGet "value".toList
    if valueObj.isNull then
      return []
    let keyName := timerObj.getString.map sanitizeKey
    return [.updateTimer keyName valueObj.getDouble]
  else if !counterObj.isNull then
    let valueObj ← sobj.objectGet "value".toList
    let sampleRateObj ← sobj.objectGet "sample_rate".toList
    if valueObj.isNull then
      return []
    let keyName := counterObj.getString.map sanitizeKey
    let sampleRate := if sampleRateObj.isNull then 0 else sampleRateObj.getDouble
    return [.updateCounter keyName valueObj.getDouble sampleRate]
  else
    return []

/-- The loop over the elements of an array, from its indices.  A fault in an element ends it. -/
def elementLoop (obj : Json) : List Nat → Except JsonFault (List (MetricCall Num))
  | [] => .ok []
  | i :: is => do
    let sobj ← obj.arrayGetIdx i
    let calls ← processJsonStatsObject sobj
    let rest ← elementLoop obj is
    return calls ++ rest

/-- `process_json_stats_packet` on the buffer `bufIn`: the calls it makes, in order.
The liveness update of a short packet is not among them. -/
def processJsonStatsPacket (bufIn : Buffer) : Except JsonFault (List (MetricCall Num)) :=
  if (cstr bufIn 0).length < 2 then
    .ok []
  else
    match jsonTokenerParse (cstr bufIn 0) with
    | .ok .null => .ok []
    | obj => do
      let obj ← follow obj
      match ← obj.getType with
      | .object => processJsonStatsObject obj
      | .array => elementLoop obj (List.range (← obj.arrayLength))
      | _ => return []

/-! ## Objects -/

/-- What an element does by itself, as if it were the whole packet; nothing, if it is no object. -/
def callsAlone (sobj : Json) : List (MetricCall Num) :=
  match sobj with
  | .object _ => (processJsonStatsObject sobj).toOption.getD []
  | _ => []

theorem objectGet_object (entries : List (CString × Json)) (key : CString) :
    ∃ jso, (Json.object entries).objectGet key = .ok jso := ⟨_, rfl⟩

/-- An object is processed without a fault, whatever its entries are. -/
theorem processJsonStatsObject_object (entries : List (CString × Json)) :
    processJsonStatsObject (.object entries) = .ok (callsAlone (.object entries)) := by
  have hok : ∃ calls, processJsonStatsObject (.object entries) = .ok calls := by
    obtain ⟨timerObj, htimer⟩ := objectGet_object entries "timer".toList
    obtain ⟨counterObj, hcounter⟩ := objectGet_object entries "counter".toList
    obtain ⟨valueObj, hvalue⟩ := objectGet_object entries "value".toList
    obtain ⟨rateObj, hrate⟩ := objectGet_object entries "sample_rate".toList
    simp only [processJsonStatsObject, htimer, hcounter, hvalue, hrate, bind, Except.bind, pure,
      Except.pure]
    repeat' split
    all_goals exact ⟨_, rfl⟩
  obtain ⟨calls, hcalls⟩ := hok
  rw [callsAlone, hcalls]
  rfl

/-- Any other value is used as one, which is a fault at the first lookup. -/
theorem processJsonStatsObject_error {sobj : Json} (h : ¬ sobj.IsObject) :
    ∃ fault, processJsonStatsObject sobj = .error fault := by
  cases sobj with
  | object entries => exact absurd ⟨entries, rfl⟩ h
  | null | boolean _ | double _ | int _ | array _ | string _ => exact ⟨_, rfl⟩

/-! ## Arrays -/

theorem elementLoop_ok {elements : List Json} (h : ∀ x ∈ elements, x.IsObject) (is : List Nat)
    (his : ∀ i ∈ is, i < elements.length) :
    elementLoop (.array elements) is =
      .ok (is.flatMap fun i => callsAlone (elements.getD i .null)) := by
  induction is with
  | nil => rfl
  | cons i is ih =>
    have hi := his i (List.mem_cons_self ..)
    have hget : elements.getD i .null = elements[i] := by simp [hi]
    obtain ⟨entries, hentries⟩ := h _ (List.getElem_mem hi)
    have hrest := ih fun j hj => his j (List.mem_cons_of_mem _ hj)
    simp only [elementLoop, Json.arrayGetIdx, hget, hentries, processJsonStatsObject_object, hrest,
      bind, Except.bind, pure, Except.pure, List.flatMap_cons]

theorem elementLoop_error {elements : List Json} {is : List Nat} {i : Nat} (hi : i ∈ is)
    (h : ¬ (elements.getD i .null).IsObject) :
    ∃ fault, elementLoop (.array elements) is = .error fault := by
  induction is with
  | nil => cases hi
  | cons j is ih =>
    simp only [elementLoop, Json.arrayGetIdx, bind, Except.bind]
    rcases List.mem_cons.mp hi with rfl | hi
    · obtain ⟨fault, hfault⟩ := processJsonStatsObject_error h
      exact ⟨fault, by rw [hfault]⟩
    · obtain ⟨fault, hfault⟩ := ih hi
      rw [hfault]
      cases processJsonStatsObject (elements.getD j .null) with
      | error e => exact ⟨e, rfl⟩
      | ok calls => exact ⟨fault, rfl⟩

/-- **An array of objects** does what its elements do, one after another. -/
theorem elementLoop_range {elements : List Json} (h : ∀ x ∈ elements, x.IsObject) :
    elementLoop (.array elements) (List.range elements.length) =
      .ok (elements.flatMap callsAlone) := by
  rw [elementLoop_ok h _ fun i hi => List.mem_range.mp hi]
  congr 1
  rw [← List.flatMap_map (fun i => elements.getD i .null), Json.map_getD_range]

/-! ## Packets -/

/-- Bad JSON in `bufIn` is skipped: no access is illegal, a text that does not parse
makes no call, and an array makes the calls that its objects make alone. -/
def SkipsBadJson (bufIn : Buffer) : Prop :=
  ∃ calls, processJsonStatsPacket bufIn = .ok calls ∧
    (∀ e, jsonTokenerParse (cstr bufIn 0) = .error e → calls = []) ∧
    (∀ elements, jsonTokenerParse (cstr bufIn 0) = .ok (.array elements) →
      calls = elements.flatMap callsAlone)

/-- A text that parses, with nothing but objects in it if it is an array: the condition of the main
result. -/
def Tolerated (text : CString) : Prop :=
  ∃ jso, jsonTokenerParse text = .ok jso ∧
    ∀ elements, jso = .array elements → ∀ x ∈ elements, x.IsObject

/-- `p_thread_queue` takes a packet that starts so for JSON. -/
def StartsJson (text : CString) : Prop := text.head? = some '{' ∨ text.head? = some '['

/-- A short text does not parse, since a bracket or a brace alone is not a value. -/
theorem parse_short {text : CString} (hstart : StartsJson text) (hlen : text.length < 2) :
    ∃ e, jsonTokenerParse text = .error e := by
  match text, hlen with
  | [], _ => rcases hstart with h | h <;> cases h
  | [c], _ =>
    rcases hstart with h | h
    · obtain rfl : c = '{' := by simpa using h
      exact ⟨.parseEof, rfl⟩
    · obtain rfl : c = '[' := by simpa using h
      exact ⟨.parseEof, rfl⟩

/-- What becomes of the value of a text: it is skipped unless it is an array with an element that is
no object. -/
theorem skips_of_parse {bufIn : Buffer} {jso : Json} (hlen : ¬ (cstr bufIn 0).length < 2)
    (hparse : jsonTokenerParse (cstr bufIn 0) = .ok jso) :
    SkipsBadJson bufIn ↔ ∀ elements, jso = .array elements → ∀ x ∈ elements, x.IsObject := by
  unfold SkipsBadJson processJsonStatsPacket
  rw [if_neg hlen, hparse]
  cases jso with
  | array elements =>
    constructor
    · intro ⟨calls, hok, _⟩ xs hxs x hx
      obtain rfl := Json.array.inj hxs
      by_contra hobject
      obtain ⟨i, hi, rfl⟩ := List.getElem_of_mem hx
      have hget : ¬ (elements.getD i .null).IsObject := by simpa [hi] using hobject
      obtain ⟨fault, hfault⟩ := elementLoop_error (List.mem_range.mpr hi) hget
      have hboth : Except.error fault = Except.ok calls := hfault.symm.trans hok
      cases hboth
    · intro hall
      refine ⟨_, elementLoop_range (hall elements rfl), fun e he => ?_, fun xs hxs => ?_⟩
      · cases he
      · cases hxs
        rfl
  | object entries =>
    refine iff_of_true ⟨_, processJsonStatsObject_object entries, fun e he => ?_, fun xs hxs => ?_⟩
      fun xs hxs => ?_
    · cases he
    · cases hxs
    · cases hxs
  | null | boolean _ | double _ | int _ | string _ =>
    -- the packet is logged as bad data, and nothing else is done
    refine iff_of_true ⟨[], rfl, fun _ _ => rfl, fun xs hxs => ?_⟩ fun xs hxs => ?_
    · cases hxs
    · cases hxs

/-- **Bad JSON is skipped** exactly in packets that are short, or parse, and then not
to an array with an element that is no object. -/
theorem processJsonStatsPacket_skips_iff {bufIn : Buffer} (hstart : StartsJson (cstr bufIn 0)) :
    SkipsBadJson bufIn ↔ (cstr bufIn 0).length < 2 ∨ Tolerated (cstr bufIn 0) := by
  by_cases hlen : (cstr bufIn 0).length < 2
  · obtain ⟨e, he⟩ := parse_short hstart hlen
    refine iff_of_true ⟨[], ?_, fun _ _ => rfl, fun elements helements => ?_⟩ (.inl hlen)
    · rw [processJsonStatsPacket, if_pos hlen]
    · rw [he] at helements
      cases helements
  · simp only [hlen, false_or, Tolerated]
    cases hparse : jsonTokenerParse (cstr bufIn 0) with
    | error e =>
      -- the error pointer is not `NULL`, and its type is read
      have hfault : processJsonStatsPacket bufIn = .error .errorPointer := by
        rw [processJsonStatsPacket, if_neg hlen, hparse]
        rfl
      refine iff_of_false ?_ ?_
      · rintro ⟨calls, hok, -⟩
        rw [hfault] at hok
        cases hok
      · rintro ⟨jso, hjso, -⟩
        cases hjso
    | ok jso =>
      rw [skips_of_parse hlen hparse]
      exact ⟨fun h => ⟨jso, rfl, h⟩, fun ⟨jso', hjso, h⟩ => Except.ok.inj hjso ▸ h⟩

/-- The theorem at the packet `[{}]`, which meets the condition. -/
theorem processJsonStatsPacket_skips_empty_object :
    SkipsBadJson ("[\x7b\x7d]".toList ++ [nul]) := by
  have htext : cstr ("[\x7b\x7d]".toList ++ [nul]) 0 = "[\x7b\x7d]".toList := by decide
  have hparse : jsonTokenerParse "[\x7b\x7d]".toList = .ok (.array [.object []]) := rfl
  refine (processJsonStatsPacket_skips_iff ?_).mpr (.inr ?_)
  · rw [htext]
    exact .inr rfl
  · rw [htext]
    refine ⟨_, hparse, ?_⟩
    rintro elements ⟨⟩ x hx
    exact ⟨[], List.mem_singleton.mp hx⟩

/-- The packet `{x`: the error pointer is followed. -/
theorem unparsable_packet_not_skipped :
    StartsJson (cstr ("\x7bx".toList ++ [nul]) 0) ∧ ¬ SkipsBadJson ("\x7bx".toList ++ [nul]) := by
  have hfault : processJsonStatsPacket ("\x7bx".toList ++ [nul]) = .error .errorPointer := rfl
  refine ⟨.inl (by decide), ?_⟩
  rintro ⟨calls, hok, -⟩
  rw [hfault] at hok
  cases hok

end StatsdC
