import StatsdC.Packet

/-!
# What a plain packet means

`decodePacket` reads a packet as a list of tokens, with no buffer and no pointers: the key, then
the segments, each a list of fields.  A segment without a pipe has no fields, a packet of less
than two bytes has no calls, and a packet without a segment counts one.  What is kept of the code
is the state of `charvalue` from one segment to the next, because a segment may use what it has
not assigned.

`processStatsPacket_eq` is the refinement: on a buffer holding the packet, the two nested
tokenisers and the in-place sanitizers make exactly the calls of the decoder, and fault exactly
where it does.  It rests on one frame fact, that nothing done to a segment reaches behind its NUL,
where the outer tokeniser goes on.  Each of the lemmas on the way carries it along: for a field
(`fieldStep_spec`), for the loop over the fields (`fieldLoop_spec`), for a segment
(`segmentStep_spec`) and for the loop over the segments (`tokenLoop_spec`), where it lets the
induction go on with the rest of the packet unchanged.

Results about `process_stats_packet` are read off the decoder, and no other module opens the
buffer again: `StatsdC.PacketFormat` is about packets in the wire format, `StatsdC.PacketSafety`
about arbitrary bytes, and `StatsdC.TrailingNewline` about a newline at the end.
-/

namespace StatsdC
open CString

/-! ## The decoder -/

/-- Field `j` of a segment, as a text that has been cut out of the packet: what `fieldStep` does to
the variables, without the buffer. -/
def Decoded.field (d : Decoded) (i j : Nat) (t : CString) : Decoded :=
  match j with
  | 1 => { d with charvalue := .block (sanitizeGaugevalue t) i }
  | 2 => d.setType t
  | 3 => { d with sSampleRate := some t }
  | _ => d

/-- The fields from number `j` on. -/
def decodeFields (i : Nat) : Nat → Decoded → List CString → Decoded
  | _, d, [] => d
  | j, d, t :: ts => decodeFields i (j + 1) (d.field i j t) ts

/-- The fields of a segment, which are its nonempty pieces between pipes.  Without a pipe it has
none, not even the segment as a whole. -/
def fieldsOf (seg : CString) : List CString := if '|' ∈ seg then tokens '|' seg else []

section Decode
variable {α : Type} [One α] (strtod : CString → α)

/-- The segment of iteration `i`: the variables after its fields, and the dispatch.  `charvalue`
comes from the segments before. -/
def decodeSegment (i : Nat) (keyName : Option CString) (charvalue : Charvalue) (seg : CString) :
    Except PacketFault (Charvalue × α × TracedCall α) :=
  dispatch strtod i keyName (decodeFields i 1 ⟨charvalue, false, false, none⟩ (fieldsOf seg))

/-- The segments from iteration `i` on, each with the `charvalue` that the one before it has left.
The first fault ends the packet. -/
def decodeSegments (keyName : Option CString) :
    Nat → Charvalue → List CString → Except PacketFault (List (TracedCall α))
  | _, _, [] => .ok []
  | i, charvalue, seg :: segs =>
    match decodeSegment strtod i keyName charvalue seg with
    | .error e => .error e
    | .ok (charvalue, _, call) =>
      (decodeSegments keyName (i + 1) charvalue segs).map (call :: ·)

/-- What a whole packet means: nothing if it is shorter than two bytes, one count if there is no
segment, and else what the segments mean under the key. -/
def decodePacket (packet : CString) : Except PacketFault (List (TracedCall α)) :=
  if packet.length < 2 then
    .ok []
  else
    match tokens ':' packet with
    | [] => .ok [⟨.updateCounter none 1 1, 0, none⟩]
    | [key] => .ok [⟨.updateCounter (some (sanitizeKey key)) 1 1, 1, none⟩]
    | key :: segs => decodeSegments strtod (some (sanitizeKey key)) 2 .unset segs

end Decode

/-! ## The refinement -/

variable {buf buf' : Buffer} {p q e : Nat} {s w rest : CString}

/-- What stands behind an offset that was not written to. -/
theorem StringAt.of_drop_eq (h : StringAt buf q s rest) (he : buf'.drop e = buf.drop e)
    (hle : e ≤ q) : StringAt buf' q s rest := by
  refine ⟨?_, h.nul_notMem⟩
  obtain ⟨k, rfl⟩ := Nat.exists_eq_add_of_le hle
  rw [← List.drop_drop, he, List.drop_drop, h.drop_eq]

theorem drop_eq_of_le (he : buf'.drop e = buf.drop e) (hle : e ≤ q) :
    buf'.drop q = buf.drop q := by
  obtain ⟨k, rfl⟩ := Nat.exists_eq_add_of_le hle
  rw [← List.drop_drop, he, List.drop_drop]

theorem StringAt.drop_end (h : StringAt buf p s rest) : buf.drop (p + s.length) = nul :: rest := by
  rw [← List.drop_drop, h.drop_eq, List.drop_left]

/-- One field: its meaning, and nothing behind it changes. -/
theorem fieldStep_spec (i j : Nat) (d : Decoded) (h : StringAt buf p s rest) :
    ∃ buf', fieldStep i j p buf d = (buf', d.field i j s) ∧
      buf'.drop (p + s.length) = buf.drop (p + s.length) := by
  rcases j with _ | _ | _ | _ | j
  · exact ⟨buf, rfl, rfl⟩
  · refine ⟨_, ?_, drop_rewriteInPlace h (length_sanitizeGaugevalue_le s) (Nat.le_refl _)⟩
    have hnul : nul ∉ sanitizeGaugevalue s := fun hm =>
      h.nul_notMem (mem_of_mem_sanitizeGaugevalue hm)
    simp only [fieldStep, Decoded.field, rewriteInPlace_cstr h hnul]
  · exact ⟨buf, by simp only [fieldStep, Decoded.field, h.cstr_eq], rfl⟩
  · exact ⟨buf, by simp only [fieldStep, Decoded.field, h.cstr_eq], rfl⟩
  · exact ⟨buf, rfl, rfl⟩

/-- The loop over the fields: their meaning, and nothing behind the segment changes.  The induction
is on the fields that are left. -/
theorem fieldLoop_spec (i : Nat) {fuel j : Nat} {d : Decoded} (h : StringAt buf p w rest)
    (hfuel : w.length < fuel) :
    ∃ buf', fieldLoop i fuel j p buf d = .ok (buf', decodeFields i j d (tokens '|' w)) ∧
      buf'.drop (p + w.length) = buf.drop (p + w.length) := by
  induction fuel generalizing j p buf d w with
  | zero => omega
  | succ fuel ih =>
    rw [tokens_eq]
    cases hnext : nextToken '|' w with
    | none =>
      refine ⟨buf, ?_, rfl⟩
      simp only [fieldLoop, strtokR_none (by decide) h hnext, decodeFields]
    | some tr =>
      obtain ⟨t, r⟩ := tr
      obtain ⟨tok, save, buf₁, hstrtok, ⟨mid, htok⟩, hsave, hle, hend⟩ :=
        strtokR_some (by decide) h hnext
      obtain ⟨buf₂, hstep, hframe⟩ := fieldStep_spec i j d htok
      have hlen := nextToken_length hnext
      obtain ⟨buf₃, hloop, hdrop⟩ :=
        ih (j := j + 1) (d := d.field i j t) (StringAt.of_drop_eq hsave hframe hle) (by omega)
      refine ⟨buf₃, ?_, ?_⟩
      · simp only [fieldLoop, hstrtok, hstep, hloop, decodeFields]
      · rw [hend] at hdrop
        rw [hdrop, drop_eq_of_le hframe (by omega), ← hend, StringAt.drop_end hsave, hend,
          StringAt.drop_end h]

section Process
variable {α : Type} [One α] (strtod : CString → α)

/-- One segment: the call of the decoder, and nothing behind the segment changes, so that the outer
tokeniser finds the rest as it was. -/
theorem segmentStep_spec (i : Nat) (l : Locals α) {token : Nat} (h : StringAt l.buf token s rest) :
    match decodeSegment strtod i l.keyName l.charvalue s with
    | .error e => segmentStep strtod i token l = .error e
    | .ok (charvalue, value, call) =>
      ∃ buf', segmentStep strtod i token l = .ok ({ l with buf := buf', charvalue, value }, call) ∧
        buf'.drop (token + s.length) = l.buf.drop (token + s.length) := by
  have hlt := h.lt_length
  have hfields : ∃ buf', (if '|' ∈ s then
        fieldLoop i (l.buf.length + 1) 1 token l.buf ⟨l.charvalue, false, false, none⟩
      else .ok (rewriteInPlace sanitizeValue l.buf token, ⟨l.charvalue, false, false, none⟩)) =
        .ok (buf', decodeFields i 1 ⟨l.charvalue, false, false, none⟩ (fieldsOf s)) ∧
      buf'.drop (token + s.length) = l.buf.drop (token + s.length) := by
    by_cases hpipe : '|' ∈ s
    · rw [if_pos hpipe, fieldsOf, if_pos hpipe]
      exact fieldLoop_spec i h (by omega)
    · rw [if_neg hpipe, fieldsOf, if_neg hpipe]
      exact ⟨_, rfl, drop_rewriteInPlace h (length_sanitizeValue_le s) (Nat.le_refl _)⟩
  obtain ⟨buf', hok, hframe⟩ := hfields
  unfold decodeSegment segmentStep
  simp only [h.cstr_eq, hok]
  cases dispatch strtod i l.keyName
      (decodeFields i 1 ⟨l.charvalue, false, false, none⟩ (fieldsOf s)) with
  | error e => rfl
  | ok r => exact ⟨buf', rfl, hframe⟩

/-- The loop over the segments, from its second iteration on, where the key is known.  The fuel is
more than the bytes that are left. -/
theorem tokenLoop_spec {fuel i : Nat} {l : Locals α} (hi : 2 ≤ i) (h : StringAt l.buf p w rest)
    (hfuel : w.length < fuel) :
    (tokenLoop strtod fuel i p l).map (fun r => (r.1, r.2.2)) =
      (decodeSegments strtod l.keyName i l.charvalue (tokens ':' w)).map
        (fun calls => (i + (tokens ':' w).length, calls)) := by
  induction fuel generalizing i p w l with
  | zero => omega
  | succ fuel ih =>
    rw [tokens_eq]
    cases hnext : nextToken ':' w with
    | none => simp only [tokenLoop, strtokR_none (by decide) h hnext, decodeSegments]; rfl
    | some tr =>
      obtain ⟨t, r⟩ := tr
      obtain ⟨tok, save, buf₁, hstrtok, ⟨mid, htok⟩, hsave, hle, -⟩ :=
        strtokR_some (by decide) h hnext
      have hseg := segmentStep_spec strtod i { l with buf := buf₁, save } htok
      have hlen := nextToken_length hnext
      simp only [tokenLoop, hstrtok, show ¬ i = 1 by omega, if_false, decodeSegments]
      cases hdec : decodeSegment strtod i l.keyName l.charvalue t with
      | error e =>
        simp only [hdec] at hseg
        simp only [hseg, Except.map]
      | ok out =>
        obtain ⟨charvalue, value, call⟩ := out
        simp only [hdec] at hseg
        obtain ⟨buf₂, hstep, hframe⟩ := hseg
        have hrec := ih (i := i + 1) (l := { l with buf := buf₂, save, charvalue, value })
          (by omega) (StringAt.of_drop_eq hsave hframe hle) (by omega)
        simp only at hrec
        simp only [hstep]
        cases hloop : tokenLoop strtod fuel (i + 1) save
            { l with buf := buf₂, save, charvalue, value } with
        | error e =>
          rw [hloop] at hrec
          cases hrest : decodeSegments strtod l.keyName (i + 1) charvalue (tokens ':' r) with
          | error e' => rw [hrest] at hrec; simpa [Except.map] using hrec
          | ok calls => rw [hrest] at hrec; simp [Except.map] at hrec
        | ok out =>
          rw [hloop] at hrec
          cases hrest : decodeSegments strtod l.keyName (i + 1) charvalue (tokens ':' r) with
          | error e' => rw [hrest] at hrec; simp [Except.map] at hrec
          | ok calls =>
            rw [hrest] at hrec
            simp only [Except.map, Except.ok.injEq, Prod.mk.injEq] at hrec
            simp only [Except.map, Except.ok.injEq, Prod.mk.injEq, List.length_cons, hrec.1, hrec.2,
              and_true]
            omega

/-- **The refinement.**  On a buffer holding `packet`, `process_stats_packet` makes
exactly the calls of the decoder, and faults exactly where it does. -/
theorem processStatsPacket_eq {packet : CString} (h : StringAt buf 0 packet rest) :
    processStatsPacket strtod buf = decodePacket strtod packet := by
  have hlt := h.lt_length
  unfold processStatsPacket decodePacket
  rw [h.cstr_eq]
  split
  · rfl
  · rw [tokens_eq]
    cases hnext : nextToken ':' packet with
    | none => simp only [tokenLoop, strtokR_none (by decide) h hnext]; rfl
    | some tr =>
      obtain ⟨key, r⟩ := tr
      obtain ⟨tok, save, buf₁, hstrtok, ⟨mid, htok⟩, hsave, hle, -⟩ :=
        strtokR_some (by decide) h hnext
      have hlen := nextToken_length hnext
      have hfuel : r.length < buf.length := by omega
      have hrest := tokenLoop_spec strtod
        (l := ⟨buf₁, save, some (sanitizeKey key), .unset, 1⟩) (Nat.le_refl 2) hsave hfuel
      simp only [tokenLoop, hstrtok, if_true, htok.cstr_eq]
      cases hsegs : tokens ':' r with
      | nil =>
        cases hnext' : nextToken ':' r with
        | none =>
          -- the second call of the tokeniser finds nothing
          have hbuf : buf.length = (buf.length - 1) + 1 := by omega
          rw [hbuf]
          simp only [tokenLoop, strtokR_none (by decide) hsave hnext']
          rfl
        | some tr' =>
          rw [tokens_eq, hnext'] at hsegs
          cases hsegs
      | cons seg segs =>
        rw [hsegs] at hrest
        simp only
        cases hloop : tokenLoop strtod buf.length (1 + 1) save
            ⟨buf₁, save, some (sanitizeKey key), .unset, 1⟩ with
        | error e =>
          rw [show (2 : Nat) = 1 + 1 from rfl, hloop] at hrest
          cases hdec : decodeSegments strtod (some (sanitizeKey key)) 2 .unset (seg :: segs) with
          | error e' => rw [hdec] at hrest; simpa [Except.map] using hrest
          | ok calls => rw [hdec] at hrest; simp [Except.map] at hrest
        | ok out =>
          rw [show (2 : Nat) = 1 + 1 from rfl, hloop] at hrest
          cases hdec : decodeSegments strtod (some (sanitizeKey key)) 2 .unset (seg :: segs) with
          | error e' => rw [hdec] at hrest; simp [Except.map] at hrest
          | ok calls =>
            rw [hdec] at hrest
            simp only [Except.map, Except.ok.injEq, Prod.mk.injEq, List.length_cons] at hrest
            simp only [hrest.1, hrest.2]
            rw [if_neg (by omega)]

end Process
end StatsdC
