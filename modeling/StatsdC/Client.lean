import StatsdC.Numerals
import StatsdC.PacketFormat

/-!
# `statsd_client`

The message that the bundled client sends, and what `process_stats_packet` makes of it.  The client
has options for a counter and for a timer, with a name, a value and a sample rate, and formats them
into a buffer with `sprintf`; a message that does not fit is a fault of the model
(`formatMessage`).

A counter's message is in the wire format.  A timer's is `"%s:%ld||%d"`: its two pipes are one
delimiter to `strtok_r`, so that the sample rate stands where the type should be, and the server
counts.  `ClientAgrees` says that the server makes exactly the update that the user asked for, and
`clientAgrees_iff` that it does so for a counter and never for a timer, whatever name, value and
rate are given: the value is any integer that a double holds, up to `2 ^ 53` in size, and the name
is any nonempty text that the packet format can carry and that fits the client's buffer.

The two sides meet in the text of the message.  On the client's side it is computed from the
options, and on the server's side it is decoded by the rules of `StatsdC.PacketDecode`; that the
counter's message is a packet of the format, and the timer's is one with another type, is read off
its text.
-/

namespace StatsdC
open CString

/-- The size of the client's `buf`, which is on the stack of its `main`. -/
def clientBufLen : Nat := 1024

/-- The options of the client that its message depends on.  The address and the port of the server
are left out. -/
structure ClientOptions where
  counter : Option CString
  timer : Option CString
  value : Int
  sampleRate : Int

/-- Why there is no message: the usage text, or a write past the buffer. -/
inductive ClientFault where
  /-- The sanity check fails. -/
  | usage
  /-- `sprintf` leaves the buffer. -/
  | overflow
  deriving DecidableEq

/-- `sprintf(buf, ..)`: the string in `buf`, as long as it fits with its NUL. -/
def sprintfBuf (s : CString) : Except ClientFault CString :=
  if s.length < clientBufLen then .ok s else .error .overflow

/-- The message of `main`, which has exactly one of a counter and a timer to send. -/
def formatMessage (o : ClientOptions) : Except ClientFault CString :=
  if (o.timer.isSome && o.counter.isSome) || (o.counter.isNone && o.timer.isNone) then
    .error .usage
  else
    match o.timer, o.counter with
    | some timer, _ =>
      sprintfBuf (timer ++ ':' :: (printD o.value ++ "||".toList ++ printD o.sampleRate))
    | none, some counter => sprintfBuf (counter ++ ':' :: (printD o.value ++ "|c".toList))
    | none, none => .error .usage

/-- The two kinds of metric the client knows. -/
inductive ClientMetric where
  | counter
  | timer
  deriving DecidableEq

/-- The options `-c name -v value -s rate`, or `-t name` in the place of the first. -/
def ClientMetric.options (m : ClientMetric) (name : CString) (value rate : Int) : ClientOptions :=
  match m with
  | .counter => ⟨some name, none, value, rate⟩
  | .timer => ⟨none, some name, value, rate⟩

/-- The update that the user asked for: the server's call on the name as it would sanitize it, at
rate 1. -/
def ClientMetric.update (m : ClientMetric) (name : CString) (value : Int) : MetricCall Num :=
  match m with
  | .counter => .updateCounter (some (sanitizeKey name)) (.fin value) 1
  | .timer => .updateTimer (some (sanitizeKey name)) (.fin value)

/-- The server makes exactly that update from the message, and no other. -/
def ClientAgrees (m : ClientMetric) (name : CString) (value : Int) (msg : CString) : Prop :=
  ∃ calls, processStatsPacket strtod (queueBuffer msg) = .ok calls ∧
    calls.map TracedCall.call = [m.update name value]

/-! ## The messages as packets -/

/-- A written integer as a field: its text has no byte that delimits anything. -/
def intField (z : Int) : PacketField where
  text := printD z
  ne_nil := Numeral.printD_ne_nil z
  colon_notMem := Numeral.notMem_printD z rfl (by decide) (by decide)
  pipe_notMem := Numeral.notMem_printD z rfl (by decide) (by decide)

/-- The segment of a counter's message. -/
def counterSegment (value : Int) : Segment :=
  ⟨intField value, ⟨['c'], by decide, by decide, by decide⟩, none⟩

/-- What the server takes a timer's message for: a segment whose type is the rate. -/
def rateSegment (value rate : Int) : Segment := ⟨intField value, intField rate, none⟩

variable {name msg : CString} {value rate : Int}

theorem formatMessage_eq_ok {m : ClientMetric}
    (h : formatMessage (m.options name value rate) = .ok msg) :
    msg.length < clientBufLen ∧
      msg = name ++ ':' :: match m with
        | .counter => printD value ++ "|c".toList
        | .timer => printD value ++ "||".toList ++ printD rate := by
  cases m with
  | counter =>
    have h : sprintfBuf (name ++ ':' :: (printD value ++ "|c".toList)) = .ok msg := h
    unfold sprintfBuf at h
    split at h
    · obtain rfl := Except.ok.inj h
      exact ⟨by assumption, rfl⟩
    · cases h
  | timer =>
    have h : sprintfBuf (name ++ ':' :: (printD value ++ "||".toList ++ printD rate)) = .ok msg := h
    unfold sprintfBuf at h
    split at h
    · obtain rfl := Except.ok.inj h
      exact ⟨by assumption, rfl⟩
    · cases h

/-- The two pipes of a timer's message delimit as one, since `strtok_r` skips empty fields. -/
theorem fieldsOf_timer (value rate : Int) :
    fieldsOf (printD value ++ "||".toList ++ printD rate) =
      fieldsOf (rateSegment value rate).text := by
  have hv : '|' ∉ printD value := (intField value).pipe_notMem
  have hr : '|' ∉ printD rate := (intField rate).pipe_notMem
  have htext : printD value ++ "||".toList ++ printD rate =
      printD value ++ '|' :: (['|'] ++ printD rate) := by
    simp
  have hpipe : '|' ∈ printD value ++ '|' :: (['|'] ++ printD rate) := by simp
  have hdelimiters : ∀ c ∈ ['|'], c = '|' := fun c hc => List.mem_singleton.mp hc
  rw [Segment.fieldsOf_text, htext, fieldsOf, if_pos hpipe,
    tokens_cons (Numeral.printD_ne_nil value) hv,
    tokens_delimiters hdelimiters, tokens_single (Numeral.printD_ne_nil rate) hr]
  rfl

/-- A name and one text behind a colon: one segment. -/
theorem decodePacket_segment {seg : CString} (hname : name ≠ []) (hcolon : ':' ∉ name)
    (hseg : seg ≠ []) (hseg' : ':' ∉ seg) :
    decodePacket strtod (name ++ ':' :: seg) =
      decodeSegments strtod (some (sanitizeKey name)) 2 .unset [seg] := by
  have hlen : ¬ (name ++ ':' :: seg).length < 2 := by
    have := List.length_pos_iff.mpr hname
    simp only [List.length_append, List.length_cons]
    omega
  rw [decodePacket, if_neg hlen, tokens_cons hname hcolon, tokens_single hseg hseg']

theorem decodeSegments_congr {seg seg' : CString} {key : Option CString} {i : Nat}
    (h : fieldsOf seg = fieldsOf seg') :
    decodeSegments strtod key i .unset [seg] = decodeSegments strtod key i .unset [seg'] := by
  simp only [decodeSegments, decodeSegment, h]

/-- The call that the server makes from a message. -/
theorem processStatsPacket_message {m : ClientMetric} (hname : name ≠ []) (hcolon : ':' ∉ name)
    (hnul : nul ∉ name) (hmsg : formatMessage (m.options name value rate) = .ok msg) :
    ∃ calls, processStatsPacket strtod (queueBuffer msg) = .ok calls ∧
      calls.map TracedCall.call = [Segment.call strtod (sanitizeKey name)
        (match m with
          | .counter => counterSegment value
          | .timer => rateSegment value rate)] := by
  obtain ⟨hlen, htext⟩ := formatMessage_eq_ok hmsg
  have hbufLen : msg.length ≤ bufLen - 1 := by
    have : clientBufLen ≤ bufLen - 1 := by decide
    omega
  have hcolon' : nul ≠ ':' := by decide
  have hpipe' : nul ≠ '|' := by decide
  have hc' : nul ≠ 'c' := by decide
  have hprint : ∀ z, nul ∉ printD z := fun z =>
    Numeral.notMem_printD z rfl (by decide) (by decide)
  cases m with
  | counter =>
    -- the message is in the wire format
    have hseg : printD value ++ "|c".toList = (counterSegment value).text := rfl
    have hmsgNul : nul ∉ msg := by
      rw [htext]
      simp [hnul, hcolon', hpipe', hc', hprint]
    obtain ⟨calls, hok, hcalls⟩ := decodeSegments_segments strtod (sanitizeKey name)
      [counterSegment value] 2 .unset
    refine ⟨calls, ?_, hcalls⟩
    rw [processStatsPacket_eq strtod (queueBuffer_stringAt hmsgNul hbufLen), htext,
      decodePacket_segment hname hcolon (hseg ▸ (counterSegment value).text_ne_nil)
        (hseg ▸ (counterSegment value).colon_notMem)]
    exact hok
  | timer =>
    have hmsgNul : nul ∉ msg := by
      rw [htext]
      simp [hnul, hcolon', hpipe', hprint]
    -- `strtok_r` takes the two pipes for one: the fields are a value and a bare rate
    have hsegColon : ':' ∉ printD value ++ "||".toList ++ printD rate := by
      have hv : ':' ∉ printD value := (intField value).colon_notMem
      have hr : ':' ∉ printD rate := (intField rate).colon_notMem
      simp [hv, hr]
    obtain ⟨calls, hok, hcalls⟩ := decodeSegments_segments strtod (sanitizeKey name)
      [rateSegment value rate] 2 .unset
    refine ⟨calls, ?_, hcalls⟩
    rw [processStatsPacket_eq strtod (queueBuffer_stringAt hmsgNul hbufLen), htext,
      decodePacket_segment hname hcolon (by simp) hsegColon,
      decodeSegments_congr (fieldsOf_timer value rate)]
    exact hok

/-! ## Agreement -/

/-- A number is neither the type of a timer nor that of a gauge, so that the segment is taken for a
counter. -/
theorem call_rateSegment (key : CString) (value rate : Int) :
    Segment.call strtod key (rateSegment value rate) =
      .updateCounter (some key) (num strtod (printD value)) 1 := by
  have hm : 'm' ∉ printD rate := Numeral.notMem_printD rate rfl (by decide) (by decide)
  have hg : 'g' ∉ printD rate := Numeral.notMem_printD rate rfl (by decide) (by decide)
  have hms : (printD rate).take 2 ≠ ['m', 's'] := fun h =>
    hm (List.mem_of_mem_take (by rw [h]; exact List.mem_cons_self ..))
  have hgauge : printD rate ≠ ['g'] := fun h => hg (by rw [h]; exact List.mem_cons_self ..)
  have htype : (rateSegment value rate).type.text = printD rate := rfl
  rw [Segment.call, htype, if_neg hms, if_neg hgauge]
  rfl

theorem num_printD (h : |value| ≤ 2 ^ 53) : num strtod (printD value) = Num.fin value := by
  rw [num, ← Numeral.text_ofInt, Numeral.sanitizeValue_text, Numeral.text_ofInt,
    Numeral.strtod_printD h]

/-- **The client and the server agree on counters, and on nothing else.**  For every
name, value and rate, the server makes the update that was asked for exactly if it
was that of a counter. -/
theorem clientAgrees_iff {m : ClientMetric} (hname : name ≠ []) (hcolon : ':' ∉ name)
    (hnul : nul ∉ name) (hvalue : |value| ≤ 2 ^ 53)
    (hmsg : formatMessage (m.options name value rate) = .ok msg) :
    ClientAgrees m name value msg ↔ m = .counter := by
  obtain ⟨calls, hok, hcalls⟩ := processStatsPacket_message hname hcolon hnul hmsg
  have hagrees : ClientAgrees m name value msg ↔
      calls.map TracedCall.call = [m.update name value] := by
    constructor
    · rintro ⟨calls', hok', hcalls'⟩
      obtain rfl := Except.ok.inj (hok.symm.trans hok')
      exact hcalls'
    · exact fun h => ⟨calls, hok, h⟩
  rw [hagrees, hcalls]
  cases m with
  | counter =>
    refine iff_of_true ?_ rfl
    have hcall : Segment.call strtod (sanitizeKey name) (counterSegment value) =
        .updateCounter (some (sanitizeKey name)) (num strtod (printD value)) 1 := rfl
    simp only [hcall, num_printD hvalue, ClientMetric.update]
  | timer =>
    refine iff_of_false ?_ (by decide)
    simp only [call_rateSegment, ClientMetric.update]
    intro h
    cases h

/-- The theorem at `-c a.b -v -5`. -/
theorem clientAgrees_counter :
    ClientAgrees .counter "a.b".toList (-5) "a.b:-5|c".toList := by
  have hmsg : formatMessage (ClientMetric.counter.options "a.b".toList (-5) 1) =
      .ok "a.b:-5|c".toList := rfl
  exact (clientAgrees_iff (by decide) (by decide) (by decide) (by decide) hmsg).mpr rfl

/-- The message of `-t a -v 5` is counted. -/
theorem timer_message_counted :
    formatMessage (ClientMetric.timer.options ['a'] 5 1) = .ok "a:5||1".toList ∧
      ¬ ClientAgrees .timer ['a'] 5 "a:5||1".toList := by
  have hmsg : formatMessage (ClientMetric.timer.options ['a'] 5 1) = .ok "a:5||1".toList := rfl
  refine ⟨hmsg, ?_⟩
  obtain ⟨calls, hok, hcalls⟩ :=
    processStatsPacket_message (by decide) (by decide) (by decide) hmsg
  rintro ⟨calls', hok', hcalls'⟩
  obtain rfl := Except.ok.inj (hok.symm.trans hok')
  rw [hcalls] at hcalls'
  simp only [call_rateSegment, ClientMetric.update] at hcalls'
  cases hcalls'

end StatsdC
