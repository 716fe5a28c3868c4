import StatsdC.Strings

/-!
# `process_stats_packet`

The plain-text front end, on the buffer it is given.  Two tokenisers run over that one buffer: the
outer cuts it at `':'`, the inner cuts a segment at `'|'`, and the sanitizers rewrite fields in
place.  `charvalue` points to a copy of the value field; it is declared once for the whole packet
and never initialised, so a segment that does not assign it works on whatever the segments before
it left: nothing, a freed block, or their value.

The model keeps what the C code leaves implicit.  `Charvalue` says what the pointer points to and
in which iteration of the outer loop that was assigned; using it unset or freed is a fault; and
every call made is recorded with the iteration that made it and the one its text is from
(`TracedCall`).  So it can be asked afterwards whether a call has a value of its own.  Number
conversion is the parameter `strtod`, and the number type is whatever that gives.

The definitions follow the loops of the code: `fieldStep` is the `switch` over the number of the
field, `fieldLoop` and `tokenLoop` the inner and the outer `while`, `dispatch` what is done once
the fields of a segment are known.  The loops take fuel, of which the length of the buffer is
enough.  Log lines are left out, and so is the release of the copies at the end of a segment,
except for the one of `charvalue`, which is what makes it a freed block.
-/

namespace StatsdC
open CString

/-- `BUFLEN`, the size of the buffers that a packet is read into and copied to. -/
def bufLen : Nat := 65536

/-- What `charvalue` points to.  The pointer is declared outside the loop over the segments, so its
state is carried from each to the next. -/
inductive Charvalue where
  /-- Not assigned yet. -/
  | unset
  /-- A block holding `text`, assigned in iteration `assigned` of the outer loop. -/
  | block (text : CString) (assigned : Nat)
  /-- A block that has been freed. -/
  | freed

/-- A use of `charvalue` that has no defined meaning, or a loop of the model that was cut short. -/
inductive PacketFault where
  | charvalueUnset
  | charvalueFreed
  | outOfFuel
  deriving DecidableEq

/-- A call that changes a metric table, with the arguments as they are passed.  A key is `none`
where the code passes `NULL`. -/
inductive MetricCall (α : Type) where
  | updateCounter (key : Option CString) (value sampleRate : α)
  | updateTimer (key : Option CString) (value : α)
  | updateGaugePlusminus (key : Option CString) (value : α) (plusminus : Int)
  deriving DecidableEq

/-- The key a call is made with. -/
def MetricCall.key {α : Type} : MetricCall α → Option CString
  | .updateCounter key _ _ | .updateTimer key _ | .updateGaugePlusminus key _ _ => key

/-- A call with its provenance: the iteration `i` of the outer loop that made it, and the iteration
that assigned the text its value was read from (`none`: the value is not from a text). -/
structure TracedCall (α : Type) where
  call : MetricCall α
  iteration : Nat
  assigned : Option Nat
  deriving DecidableEq

/-- The variables that the fields of a segment set.  The two flags and the rate are fresh for each
segment, `charvalue` is not. -/
structure Decoded where
  charvalue : Charvalue
  isTimer : Bool
  isGauge : Bool
  sSampleRate : Option CString

/-- The variables that live across the outer loop, with the buffer that both tokenisers and the
sanitizers write to. -/
structure Locals (α : Type) where
  buf : Buffer
  save : Nat
  keyName : Option CString
  charvalue : Charvalue
  value : α

/-- The text that `charvalue` points to, and the iteration that assigned it.  Reading through it
unset or freed is a fault. -/
def Charvalue.read : Charvalue → Except PacketFault (CString × Nat)
  | .unset => .error .charvalueUnset
  | .freed => .error .charvalueFreed
  | .block text assigned => .ok (text, assigned)

/-- `case 2`: the type field.  A field of one byte is a gauge or nothing known, a longer one a timer
if it begins with `ms`; a flag that no branch sets is left as it was. -/
def Decoded.setType (d : Decoded) (subtoken : CString) : Decoded :=
  if subtoken.length < 2 then
    { d with isTimer := false, isGauge := if subtoken.head? = some 'g' then true else d.isGauge }
  else if subtoken.take 2 = ['m', 's'] then
    { d with isTimer := true, isGauge := false }
  else
    d

/-- `switch (j)`: field `j` of the segment of iteration `i`, at offset `subtoken`.  Fields behind
the third are passed over. -/
def fieldStep (i j subtoken : Nat) (buf : Buffer) (d : Decoded) : Buffer × Decoded :=
  match j with
  | 1 =>
    let buf := rewriteInPlace sanitizeGaugevalue buf subtoken
    (buf, { d with charvalue := .block (cstr buf subtoken) i })
  | 2 => (buf, d.setType (cstr buf subtoken))
  | 3 => (buf, { d with sSampleRate := some (cstr buf subtoken) })
  | _ => (buf, d)

/-- The loop over the fields of a segment.  `fields` is the token in the first round and the save
pointer in the later ones, as `strtok_r` is called. -/
def fieldLoop (i : Nat) : Nat → Nat → Nat → Buffer → Decoded → Except PacketFault (Buffer × Decoded)
  | 0, _, _, _, _ => .error .outOfFuel
  | fuel + 1, j, fields, buf, d =>
    let r := strtokR buf fields '|'
    match r.token with
    | none => .ok (r.buf, d)
    | some subtoken =>
      let (buf, d) := fieldStep i j subtoken r.buf d
      fieldLoop i fuel (j + 1) r.save buf d

section Process
variable {α : Type} [One α] (strtod : CString → α)

/-- The dispatch after the fields of a segment: what becomes of `charvalue`, the number read from
it, and the call made.  A timer and a count keep the block, a gauge frees it. -/
def dispatch (i : Nat) (keyName : Option CString) (d : Decoded) :
    Except PacketFault (Charvalue × α × TracedCall α) :=
  match d.charvalue.read with
  | .error e => .error e
  | .ok (text, a) =>
    if d.isTimer then
      let text := sanitizeValue text
      let value := strtod text
      .ok (.block text a, value, ⟨.updateTimer keyName value, i, some a⟩)
    else if d.isGauge then
      match text with
      | '-' :: text =>
        let value := strtod (sanitizeValue text)
        .ok (.freed, value, ⟨.updateGaugePlusminus keyName value 1, i, some a⟩)
      | '+' :: text =>
        let value := strtod (sanitizeValue text)
        .ok (.freed, value, ⟨.updateGaugePlusminus keyName value 2, i, some a⟩)
      | text =>
        let value := strtod (sanitizeValue text)
        .ok (.freed, value, ⟨.updateGaugePlusminus keyName value 0, i, some a⟩)
    else
      let sampleRate := match d.sSampleRate with
        | some ('@' :: rate) => strtod rate
        | _ => 1
      let text := sanitizeValue text
      let value := strtod text
      .ok (.block text a, value, ⟨.updateCounter keyName value sampleRate, i, some a⟩)

/-- One segment, at offset `token`.  Without a pipe its text is sanitized where it stands and then
not used, and `charvalue` is whatever it was. -/
def segmentStep (i token : Nat) (l : Locals α) : Except PacketFault (Locals α × TracedCall α) :=
  let fresh : Decoded := ⟨l.charvalue, false, false, none⟩
  let fields : Except PacketFault (Buffer × Decoded) :=
    if '|' ∈ cstr l.buf token then
      fieldLoop i (l.buf.length + 1) 1 token l.buf fresh
    else
      -- basic logic: the value is read into a variable that is overwritten below
      .ok (rewriteInPlace sanitizeValue l.buf token, fresh)
  match fields with
  | .error e => .error e
  | .ok (buf, d) =>
    match dispatch strtod i l.keyName d with
    | .error e => .error e
    | .ok (charvalue, value, call) => .ok ({ l with buf, charvalue, value }, call)

/-- The loop over the tokens of the packet: the value of `i` at its end, the variables, and the
calls made.  The first token is the key, and each later one a segment. -/
def tokenLoop : Nat → Nat → Nat → Locals α →
    Except PacketFault (Nat × Locals α × List (TracedCall α))
  | 0, _, _, _ => .error .outOfFuel
  | fuel + 1, i, bits, l =>
    let r := strtokR l.buf bits ':'
    let l := { l with buf := r.buf, save := r.save }
    match r.token with
    | none => .ok (i, l, [])
    | some token =>
      if i = 1 then
        tokenLoop fuel (i + 1) r.save { l with keyName := some (sanitizeKey (cstr l.buf token)) }
      else
        match segmentStep strtod i token l with
        | .error e => .error e
        | .ok (l, call) =>
          match tokenLoop fuel (i + 1) l.save l with
          | .error e => .error e
          | .ok (i, l, calls) => .ok (i, l, call :: calls)

/-- `process_stats_packet` on the buffer `bufIn`: the calls it makes, in order.
Every return also makes the liveness update `UPDATE_LAST_MSG_SEEN`, which is not
among them. -/
def processStatsPacket (bufIn : Buffer) : Except PacketFault (List (TracedCall α)) :=
  if (cstr bufIn 0).length < 2 then
    .ok []
  else
    match tokenLoop strtod (bufIn.length + 1) 1 0 ⟨bufIn, 0, none, .unset, 1⟩ with
    | .error e => .error e
    | .ok (i, l, calls) =>
      let i := i - 1
      if i ≤ 1 then .ok (calls ++ [⟨.updateCounter l.keyName l.value 1, i, none⟩]) else .ok calls

end Process

/-- The buffer that `p_thread_queue` copies a packet into.  It is cleared before, so that the packet
has a NUL behind it. -/
def queueBuffer (packet : CString) : Buffer :=
  packet ++ List.replicate (bufLen - packet.length) nul

theorem queueBuffer_stringAt {packet : CString} (hnul : nul ∉ packet)
    (hlen : packet.length ≤ bufLen - 1) :
    StringAt (queueBuffer packet) 0 packet (List.replicate (bufLen - packet.length - 1) nul) := by
  refine ⟨?_, hnul⟩
  have hpos : 0 < bufLen := by decide
  rw [List.drop_zero, queueBuffer, ← List.replicate_succ]
  congr 2
  omega

end StatsdC
