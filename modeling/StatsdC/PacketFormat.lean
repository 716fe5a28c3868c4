import Mathlib.Algebra.Ring.Int.Defs
import StatsdC.PacketDecode

/-!
# The wire format

A packet is a key and segments, `key(:value|type[|@rate])*`.  A `Segment` is built from nonempty
fields without delimiters, so that `packetText` writes exactly the packets of the format, and
nothing needs to be assumed of its pieces.  Whether a type is one that the daemon knows is not
part of the format: `Segment.call` says what any type means, and an unknown one counts.

`processStatsPacket_decodes` says what `process_stats_packet` makes of such a packet: one call per
segment, which depends on that segment and the key alone, and a single count of one when there is
no segment.  That the segments do not influence each other is the point of it, since the code
keeps `charvalue` and its flags from one segment to the next; in the format every segment assigns
them anew (`decodeSegment_segment`).

A gauge value that starts with a sign changes the gauge, and one without a sign sets it
(`gaugeCall`).  A rate is read from behind the `@` and only for a count
(`Segment.sampleRate`).  The numbers are whatever `strtod` makes of the sanitized texts.
`segmentless_packet_counts` shows the one case in which there is a call without a segment.
-/

namespace StatsdC
open CString

/-- A field of the wire format: a nonempty text without the two delimiters.  What else is in it does
not matter to the tokenisers. -/
structure PacketField where
  text : CString
  ne_nil : text ≠ []
  colon_notMem : ':' ∉ text
  pipe_notMem : '|' ∉ text

/-- A segment of the wire format, with its value, its type and an optional sample rate.  Any text is
a type. -/
structure Segment where
  value : PacketField
  type : PacketField
  rate : Option PacketField

/-- A segment as it stands in a packet. -/
def Segment.text (s : Segment) : CString :=
  match s.rate with
  | none => s.value.text ++ '|' :: s.type.text
  | some rate => s.value.text ++ '|' :: (s.type.text ++ '|' :: rate.text)

/-- `key(:segment)*`, the text of a packet from its parts. -/
def packetText (key : CString) (segs : List Segment) : CString :=
  key ++ segs.flatMap fun s => ':' :: s.text

section Meaning
variable {α : Type} [One α] (strtod : CString → α)

/-- The number that a value field stands for: what `strtod` makes of the sanitized text. -/
def num (value : CString) : α := strtod (sanitizeValue value)

/-- The sample rate of a counter segment.  A third field that does not begin with `@` is no rate,
and then the rate is one. -/
def Segment.sampleRate (s : Segment) : α :=
  match s.rate.map PacketField.text with
  | some ('@' :: rate) => strtod rate
  | _ => 1

/-- The gauge update of a value field: a value with a sign is subtracted or added, one without a
sign is set. -/
def gaugeCall (key value : CString) : MetricCall α :=
  match sanitizeGaugevalue value with
  | '-' :: text => .updateGaugePlusminus (some key) (num strtod text) 1
  | '+' :: text => .updateGaugePlusminus (some key) (num strtod text) 2
  | text => .updateGaugePlusminus (some key) (num strtod text) 0

/-- The call that a segment stands for, by its type alone: a timer, a gauge, or a count for any
other type. -/
def Segment.call (key : CString) (s : Segment) : MetricCall α :=
  if s.type.text.take 2 = ['m', 's'] then
    .updateTimer (some key) (num strtod s.value.text)
  else if s.type.text = ['g'] then
    gaugeCall strtod key s.value.text
  else
    .updateCounter (some key) (num strtod s.value.text) (s.sampleRate strtod)

end Meaning

/-! ## Tokens of a packet in the format -/

theorem Segment.colon_notMem (s : Segment) : ':' ∉ s.text := by
  obtain ⟨v, t, r⟩ := s
  have hpipe : ':' ≠ '|' := by decide
  cases r with
  | none => simp [Segment.text, v.colon_notMem, t.colon_notMem, hpipe]
  | some r => simp [Segment.text, v.colon_notMem, t.colon_notMem, r.colon_notMem, hpipe]

theorem Segment.text_ne_nil (s : Segment) : s.text ≠ [] := by
  obtain ⟨v, t, r⟩ := s
  cases r <;> simp [Segment.text]

theorem Segment.fieldsOf_text (s : Segment) :
    fieldsOf s.text = s.value.text :: s.type.text :: s.rate.toList.map PacketField.text := by
  obtain ⟨v, t, r⟩ := s
  cases r with
  | none =>
    have hmem : '|' ∈ v.text ++ '|' :: t.text := by simp
    rw [Segment.text, fieldsOf, if_pos hmem, tokens_cons v.ne_nil v.pipe_notMem,
      tokens_single t.ne_nil t.pipe_notMem]
    rfl
  | some r =>
    have hmem : '|' ∈ v.text ++ '|' :: (t.text ++ '|' :: r.text) := by simp
    rw [Segment.text, fieldsOf, if_pos hmem, tokens_cons v.ne_nil v.pipe_notMem,
      tokens_cons t.ne_nil t.pipe_notMem, tokens_single r.ne_nil r.pipe_notMem]
    rfl

theorem tokens_flatMap_segments {t : CString} (hne : t ≠ []) (ht : ':' ∉ t) (segs : List Segment) :
    tokens ':' (t ++ segs.flatMap fun s => ':' :: s.text) = t :: segs.map Segment.text := by
  induction segs generalizing t with
  | nil => rw [List.flatMap_nil, List.append_nil, tokens_single hne ht, List.map_nil]
  | cons s segs ih =>
    rw [List.flatMap_cons, List.cons_append, tokens_cons hne ht, ih s.text_ne_nil s.colon_notMem,
      List.map_cons]

/-! ## What a segment does -/

/-- The type field alone decides the kind of a segment whose flags are fresh. -/
theorem setType_fresh (charvalue : Charvalue) {t : CString} (ht : t ≠ []) :
    (Decoded.mk charvalue false false none).setType t =
      ⟨charvalue, decide (t.take 2 = ['m', 's']), decide (t = ['g']), none⟩ := by
  match t, ht with
  | [c], _ => by_cases hc : c = 'g' <;> simp [Decoded.setType, hc]
  | c :: d :: t, _ =>
    by_cases hms : c = 'm' ∧ d = 's'
    · simp [Decoded.setType, hms.1, hms.2]
    · have hlen : ¬ t.length + 1 + 1 < 2 := by omega
      simp [Decoded.setType, hms, hlen]

/-- The variables after the fields of a segment in the format. -/
theorem decodeFields_segment (i : Nat) (charvalue : Charvalue) (s : Segment) :
    decodeFields i 1 ⟨charvalue, false, false, none⟩ (fieldsOf s.text) =
      ⟨.block (sanitizeGaugevalue s.value.text) i, decide (s.type.text.take 2 = ['m', 's']),
        decide (s.type.text = ['g']), s.rate.map PacketField.text⟩ := by
  rw [s.fieldsOf_text]
  cases hrate : s.rate <;>
    simp [decodeFields, Decoded.field, setType_fresh _ s.type.ne_nil]

variable {α : Type} [One α] (strtod : CString → α)

/-- A segment makes its call, whatever the segments before it left in `charvalue`, because its first
field assigns the pointer anew. -/
theorem decodeSegment_segment (i : Nat) (key : CString) (charvalue : Charvalue) (s : Segment) :
    ∃ charvalue' value call, decodeSegment strtod i (some key) charvalue s.text =
        .ok (charvalue', value, call) ∧ call.call = s.call strtod key := by
  rw [decodeSegment, decodeFields_segment]
  unfold dispatch Segment.call
  simp only [Charvalue.read, decide_eq_true_eq]
  by_cases hms : s.type.text.take 2 = ['m', 's']
  · simp only [if_pos hms]
    exact ⟨_, _, _, rfl, by rw [sanitizeValue_sanitizeGaugevalue, num]⟩
  · simp only [if_neg hms]
    by_cases hg : s.type.text = ['g']
    · simp only [if_pos hg, gaugeCall, num]
      generalize sanitizeGaugevalue s.value.text = text
      rcases text with _ | ⟨c, text⟩
      · exact ⟨_, _, _, rfl, rfl⟩
      · by_cases hminus : c = '-'
        · subst hminus
          exact ⟨_, _, _, rfl, rfl⟩
        · by_cases hplus : c = '+'
          · subst hplus
            exact ⟨_, _, _, rfl, rfl⟩
          · refine ⟨.freed, num strtod (c :: text),
              ⟨.updateGaugePlusminus (some key) (num strtod (c :: text)) 0, i, some i⟩, ?_, ?_⟩
            · simp [hminus, hplus, num]
            · simp [hminus, hplus, num]
    · simp only [if_neg hg]
      exact ⟨_, _, _, rfl, by rw [sanitizeValue_sanitizeGaugevalue, num]; rfl⟩

theorem decodeSegments_segments (key : CString) (segs : List Segment) (i : Nat)
    (charvalue : Charvalue) :
    ∃ calls, decodeSegments strtod (some key) i charvalue (segs.map Segment.text) = .ok calls ∧
      calls.map TracedCall.call = segs.map (Segment.call strtod key) := by
  induction segs generalizing i charvalue with
  | nil => exact ⟨[], rfl, rfl⟩
  | cons s segs ih =>
    obtain ⟨charvalue', value, call, hseg, hcall⟩ := decodeSegment_segment strtod i key charvalue s
    obtain ⟨calls, hsegs, hcalls⟩ := ih (i + 1) charvalue'
    refine ⟨call :: calls, ?_, by rw [List.map_cons, hcall, hcalls, List.map_cons]⟩
    simp only [List.map_cons, decodeSegments, hseg, hsegs, Except.map]

/-- What the decoder makes of a packet in the format. -/
theorem decodePacket_packetText (key : CString) (segs : List Segment) (hkey : key ≠ [])
    (hcolon : ':' ∉ key) (hlen : 2 ≤ (packetText key segs).length) :
    ∃ calls, decodePacket strtod (packetText key segs) = .ok calls ∧
      calls.map TracedCall.call =
        if segs.isEmpty then [.updateCounter (some (sanitizeKey key)) 1 1]
        else segs.map (Segment.call strtod (sanitizeKey key)) := by
  rw [decodePacket, if_neg (by omega), packetText, tokens_flatMap_segments hkey hcolon]
  cases segs with
  | nil => exact ⟨_, rfl, rfl⟩
  | cons s segs =>
    obtain ⟨calls, hok, hcalls⟩ :=
      decodeSegments_segments strtod (sanitizeKey key) (s :: segs) 2 .unset
    exact ⟨calls, hok, hcalls⟩

variable {buf : Buffer} {rest : CString}

/-- **The wire format.**  A packet `key(:segment)*` makes one call per segment, in
order and each decoded on its own; a packet without a segment counts one. -/
theorem processStatsPacket_decodes (key : CString) (segs : List Segment) (hkey : key ≠ [])
    (hcolon : ':' ∉ key) (hlen : 2 ≤ (packetText key segs).length)
    (hbuf : StringAt buf 0 (packetText key segs) rest) :
    ∃ calls, processStatsPacket strtod buf = .ok calls ∧
      calls.map TracedCall.call =
        if segs.isEmpty then [.updateCounter (some (sanitizeKey key)) 1 1]
        else segs.map (Segment.call strtod (sanitizeKey key)) := by
  rw [processStatsPacket_eq strtod hbuf]
  exact decodePacket_packetText strtod key segs hkey hcolon hlen

/-- The theorem at the gauge decrement `a:-5|g`, with `strtod` standing for the
number of characters it is given. -/
theorem processStatsPacket_decodes_gauge :
    ∃ calls, processStatsPacket (fun t => (t.length : Int)) ("a:-5|g".toList ++ [nul]) = .ok calls ∧
      calls.map TracedCall.call = [.updateGaugePlusminus (some ['a']) 1 1] :=
  have hbuf : StringAt ("a:-5|g".toList ++ [nul]) 0 "a:-5|g".toList [] := ⟨by decide, by decide⟩
  processStatsPacket_decodes _ ['a']
    [⟨⟨['-', '5'], by decide, by decide, by decide⟩,
      ⟨['g'], by decide, by decide, by decide⟩, none⟩]
    (by decide) (by decide) (by decide) hbuf

/-- The packet makes one call for each segment, and no other.  This is what the format promises, and
what a packet without a segment does not keep to. -/
def DecodesPerSegment (buf : Buffer) (key : CString) (segs : List Segment) : Prop :=
  ∃ calls, processStatsPacket strtod buf = .ok calls ∧
    calls.map TracedCall.call = segs.map (Segment.call strtod (sanitizeKey key))

/-- The packet `ab` has no segment, and still counts one. -/
theorem segmentless_packet_counts :
    ∃ key segs buf rest, key ≠ [] ∧ ':' ∉ key ∧ 2 ≤ (packetText key segs).length ∧
      StringAt buf 0 (packetText key segs) rest ∧
      ¬ DecodesPerSegment (fun _ => (0 : Int)) buf key segs := by
  have hbuf : StringAt ("ab".toList ++ [nul]) 0 (packetText "ab".toList []) [] :=
    ⟨by decide, by decide⟩
  refine ⟨"ab".toList, [], _, [], by decide, by decide, by decide, hbuf, ?_⟩
  rintro ⟨calls, hok, hcalls⟩
  rw [processStatsPacket_eq _ hbuf] at hok
  obtain rfl : [⟨.updateCounter (some ['a', 'b']) 1 1, 1, none⟩] = calls := Except.ok.inj hok
  cases hcalls

end StatsdC
