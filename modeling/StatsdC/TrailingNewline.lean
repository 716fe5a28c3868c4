import StatsdC.Numerals
import StatsdC.PacketFormat

/-!
# A newline at the end of a packet

A newline behind a packet becomes part of its last field, since the tokenisers cut at `':'` and
`'|'` only.  What that does depends on the field.

A sample rate is handed to `strtod`, which stops in front of the newline (`strtod_newline`), and
so is a value.  For this lemma it has to be known that no text without a newline becomes a longer
numeral by one, in any of the notations that `strtod` knows: decimal with an exponent,
hexadecimal, `inf` and `nan`.

For a timer only the first two bytes of the type count.  A gauge, though, is a type of one byte:
with a newline behind it it is none, and the segment counts instead.  So a packet whose last
segment is a gauge without a rate is another packet with a newline (`Segment.EndsWithGauge`), and
any other packet is the same.  `Segment.call_newline_iff` says this of the call of a segment, and
`sameCall_newline_iff` of the packet: both buffers are processed, with one call, the same for both,
exactly if the packet does not end with the type of a gauge.

The packets are those of `StatsdC.PacketFormat` with one segment.  Programs like `netcat` and
`echo` end what they send with a newline.
-/

namespace StatsdC
open CString Decimal

/-! ## Numbers before a newline -/

theorem sign_newline (s : CString) : sign (s ++ ['\n']) = ((sign s).1, (sign s).2 ++ ['\n']) := by
  cases s with
  | nil => rfl
  | cons c s =>
    by_cases hminus : c = '-'
    · subst hminus
      rfl
    · by_cases hplus : c = '+'
      · subst hplus
        rfl
      · simp [sign, hminus, hplus]

theorem exponent_newline {marker : Char} (hmarker : marker ≠ '\n') (s : CString) :
    exponent marker (s ++ ['\n']) = exponent marker s := by
  have hlower : '\n'.toLower = '\n' := by decide
  cases s with
  | nil => simp [exponent, hlower, hmarker.symm]
  | cons c s =>
    have hdigit : '\n'.isDigit = false := by decide
    simp only [List.cons_append, exponent, sign_newline, takeWhile_concat hdigit]

/-- A word without a newline is not completed by one. -/
theorem take_newline {f : Char → Char} (hf : f '\n' = '\n') {s w : CString} {k : Nat}
    (hw : '\n' ∉ w) (hlen : w.length = k) :
    ((s ++ ['\n']).take k).map f = w ↔ (s.take k).map f = w := by
  by_cases hk : k ≤ s.length
  · rw [List.take_append_of_le_length hk]
  · have hshort : s.length < k := not_le.mp hk
    refine iff_of_false (fun h => hw ?_) (fun h => ?_)
    · rw [← h, List.take_of_length_le (by rw [List.length_append]; exact hshort)]
      simp [hf]
    · have hlength := congrArg List.length h
      rw [List.length_map, List.length_take] at hlength
      omega

theorem strtodUnsigned_newline (s : CString) :
    strtodUnsigned (s ++ ['\n']) = strtodUnsigned s := by
  have hdecimal := mantissa_concat Char.isDigit (c := '\n') (by decide) (by decide)
  have hhex := mantissa_concat isxdigit (c := '\n') (by decide) (by decide)
  have hinf : ((s ++ ['\n']).take 3).map Char.toLower = ['i', 'n', 'f'] ↔ _ :=
    take_newline (by decide) (by decide) rfl
  have hnan : ((s ++ ['\n']).take 3).map Char.toLower = ['n', 'a', 'n'] ↔ _ :=
    take_newline (by decide) (by decide) rfl
  have htwo : ∀ t : CString,
      ((t.take 3).map Char.toLower).take 2 = (t.take 2).map Char.toLower := by
    intro t
    rw [← List.map_take, List.take_take]
    rfl
  have hzero : ((s ++ ['\n']).take 2).map Char.toLower = ['0', 'x'] ↔ _ :=
    take_newline (by decide) (by decide) rfl
  unfold strtodUnsigned
  simp only [hinf, hnan, htwo, hzero, hdecimal, @exponent_newline 'e' (by decide)]
  by_cases hlen : 2 ≤ s.length
  · simp only [List.drop_append_of_le_length hlen, hhex,
      @exponent_newline 'p' (by decide)]
  · -- too short for `0x`
    have hshort : (s.take 2).map Char.toLower ≠ ['0', 'x'] := by
      intro h
      have hlength := congrArg List.length h
      simp only [List.length_map, List.length_take, List.length_cons, List.length_nil] at hlength
      omega
    simp only [hshort, false_and, if_false]

/-- **A newline behind a number** is not read, in none of the notations, and it makes a number of no
text that was none. -/
theorem strtod_newline (t : CString) : strtod (t ++ ['\n']) = strtod t := by
  have hspace : isspace '\n' = true := by decide
  have hread : scanLf (t ++ ['\n']) = scanLf t := by
    unfold scanLf
    by_cases hnil : (t.dropWhile isspace).isEmpty = true
    · rw [List.dropWhile_append, if_pos hnil, List.isEmpty_iff.mp hnil,
        List.dropWhile_cons_of_pos hspace, List.dropWhile_nil]
    · rw [List.dropWhile_append, if_neg hnil, sign_newline]
      simp only [strtodUnsigned_newline]
  rw [strtod, strtod, hread]

/-! ## Packets before a newline -/

/-- A field that a newline has become part of.  It is a field like any other. -/
def PacketField.newline (f : PacketField) : PacketField where
  text := f.text ++ ['\n']
  ne_nil := by simp
  colon_notMem := by simp [f.colon_notMem]
  pipe_notMem := by simp [f.pipe_notMem]

/-- A segment at the end of a packet, with a newline in its last field. -/
def Segment.newline (s : Segment) : Segment :=
  match s.rate with
  | none => { s with type := s.type.newline }
  | some rate => { s with rate := some rate.newline }

theorem Segment.text_newline (s : Segment) : s.newline.text = s.text ++ ['\n'] := by
  obtain ⟨value, type, rate⟩ := s
  cases rate with
  | none => simp [newline, text, PacketField.newline]
  | some rate => simp [newline, text, PacketField.newline]

theorem packetText_newline (key : CString) (s : Segment) :
    packetText key [s.newline] = packetText key [s] ++ ['\n'] := by
  simp [packetText, s.text_newline]

/-- A gauge without a sample rate, which is the one segment whose last field is compared as a whole.
The newline is behind its type. -/
def Segment.EndsWithGauge (s : Segment) : Prop := s.type.text = ['g'] ∧ s.rate = none

/-- The sample rate is read up to the newline. -/
theorem Segment.sampleRate_newline (s : Segment) :
    s.newline.sampleRate strtod = s.sampleRate strtod := by
  obtain ⟨value, type, rate⟩ := s
  cases rate with
  | none => rfl
  | some rate =>
    obtain ⟨text, hne, hcolon, hpipe⟩ := rate
    obtain ⟨c, text, rfl⟩ := List.exists_cons_of_ne_nil hne
    by_cases hat : c = '@'
    · subst hat
      exact strtod_newline text
    · simp [newline, sampleRate, PacketField.newline, hat]

theorem gaugeCall_ne_updateCounter (key value : CString) (x rate : Num) :
    gaugeCall strtod key value ≠ .updateCounter (some key) x rate := by
  unfold gaugeCall
  split <;> nofun

/-- **The call of a segment** is the same before a newline, but for a gauge at the end, which then
is a count. -/
theorem Segment.call_newline_iff (s : Segment) (key : CString) :
    s.newline.call strtod key = s.call strtod key ↔ ¬ s.EndsWithGauge := by
  have hrate := s.sampleRate_newline
  obtain ⟨value, type, rate⟩ := s
  cases rate with
  | none =>
    have htimer : (type.text ++ ['\n']).take 2 = ['m', 's'] ↔ type.text.take 2 = ['m', 's'] := by
      simpa using take_newline (f := id) rfl (s := type.text) (w := ['m', 's']) (by decide) rfl
    have hgauge : type.text ++ ['\n'] ≠ ['g'] := by
      intro h
      have hlast := congrArg List.getLast? h
      simp at hlast
    simp only [newline, PacketField.newline] at hrate ⊢
    simp only [call, htimer, hgauge, if_false, hrate, EndsWithGauge, and_true]
    by_cases hms : type.text.take 2 = ['m', 's']
    · have hg : type.text ≠ ['g'] := by
        intro h
        rw [h] at hms
        cases hms
      simp only [if_pos hms, hg, not_false_eq_true]
    · simp only [if_neg hms]
      by_cases hg : type.text = ['g']
      · simp only [hg, if_true, not_true_eq_false, iff_false]
        exact (gaugeCall_ne_updateCounter _ _ _ _).symm
      · simp only [hg, if_false, not_false_eq_true]
  | some rate =>
    simp only [newline, PacketField.newline] at hrate ⊢
    simp only [call, hrate, EndsWithGauge, reduceCtorEq, and_false, not_false_eq_true]

/-- **Exactly the same update call**: both buffers are processed, with one call, the same
for both. -/
def SameCall (buf buf' : Buffer) : Prop :=
  ∃ calls calls' call, processStatsPacket strtod buf = .ok calls ∧
    processStatsPacket strtod buf' = .ok calls' ∧ calls.map TracedCall.call = [call] ∧
    calls'.map TracedCall.call = [call]

/-- **A trailing newline is harmless** exactly if the packet does not end with the type of a gauge.
The two buffers hold the packet and the packet with a newline. -/
theorem sameCall_newline_iff {key : CString} {s : Segment} {buf buf' : Buffer}
    {rest rest' : CString} (hkey : key ≠ []) (hcolon : ':' ∉ key)
    (hbuf : StringAt buf 0 (packetText key [s]) rest)
    (hbuf' : StringAt buf' 0 (packetText key [s] ++ ['\n']) rest') :
    SameCall buf buf' ↔ ¬ (s.type.text = ['g'] ∧ s.rate = none) := by
  have hlength : ∀ s : Segment, 2 ≤ (packetText key [s]).length := by
    intro s
    have hpos := List.length_pos_iff.mpr hkey
    simp only [packetText, List.flatMap_cons, List.flatMap_nil, List.append_nil,
      List.length_append, List.length_cons]
    omega
  rw [← packetText_newline] at hbuf'
  obtain ⟨calls, hok, hcalls⟩ :=
    processStatsPacket_decodes strtod key [s] hkey hcolon (hlength s) hbuf
  obtain ⟨calls', hok', hcalls'⟩ :=
    processStatsPacket_decodes strtod key [s.newline] hkey hcolon (hlength _) hbuf'
  have hone : calls.map TracedCall.call = [s.call strtod (sanitizeKey key)] := hcalls
  have hone' : calls'.map TracedCall.call = [s.newline.call strtod (sanitizeKey key)] := hcalls'
  rw [← Segment.EndsWithGauge, ← s.call_newline_iff (sanitizeKey key)]
  constructor
  · intro hsame
    obtain ⟨made, made', call, hmade, hmade', hcall, hcall'⟩ := hsame
    obtain rfl := Except.ok.inj (hok.symm.trans hmade)
    obtain rfl := Except.ok.inj (hok'.symm.trans hmade')
    rw [hone] at hcall
    rw [hone'] at hcall'
    exact (List.cons.inj (hcall'.trans hcall.symm)).1
  · intro heq
    exact ⟨calls, calls', _, hok, hok', hone, heq ▸ hone'⟩

/-- The theorem for the counter `a:1|c|@0.5`. -/
theorem sameCall_newline_rated :
    SameCall (queueBuffer "a:1|c|@0.5".toList) (queueBuffer "a:1|c|@0.5\n".toList) :=
  (@sameCall_newline_iff ['a']
    ⟨⟨['1'], by decide, by decide, by decide⟩, ⟨['c'], by decide, by decide, by decide⟩,
      some ⟨"@0.5".toList, by decide, by decide, by decide⟩⟩
    _ _ _ _ (by decide) (by decide)
    (@queueBuffer_stringAt "a:1|c|@0.5".toList (by decide) (by decide))
    (@queueBuffer_stringAt "a:1|c|@0.5\n".toList (by decide) (by decide))).mpr nofun

/-- **The gauge `a:1|g`** becomes a counter when a newline is behind it. -/
theorem gauge_newline_counts :
    (∃ calls calls', processStatsPacket strtod (queueBuffer "a:1|g".toList) = .ok calls ∧
      processStatsPacket strtod (queueBuffer "a:1|g\n".toList) = .ok calls' ∧
      calls.map TracedCall.call = [.updateGaugePlusminus (some ['a']) (.fin 1) 0] ∧
      calls'.map TracedCall.call = [.updateCounter (some ['a']) (.fin 1) 1]) ∧
    ¬ SameCall (queueBuffer "a:1|g".toList) (queueBuffer "a:1|g\n".toList) := by
  have hone : num strtod ['1'] = .fin 1 := Numeral.strtod_printD (z := 1) (by norm_num)
  obtain ⟨calls, hok, hcalls⟩ :=
    processStatsPacket_decodes strtod ['a']
      [⟨⟨['1'], by decide, by decide, by decide⟩, ⟨['g'], by decide, by decide, by decide⟩, none⟩]
      (by decide) (by decide) (by decide)
      (@queueBuffer_stringAt "a:1|g".toList (by decide) (by decide))
  obtain ⟨calls', hok', hcalls'⟩ :=
    processStatsPacket_decodes strtod ['a']
      [⟨⟨['1'], by decide, by decide, by decide⟩,
        ⟨['g', '\n'], by decide, by decide, by decide⟩, none⟩]
      (by decide) (by decide) (by decide)
      (@queueBuffer_stringAt "a:1|g\n".toList (by decide) (by decide))
  have hgauge : calls.map TracedCall.call = [.updateGaugePlusminus (some ['a']) (.fin 1) 0] :=
    hone ▸ hcalls
  have hcounter : calls'.map TracedCall.call = [.updateCounter (some ['a']) (.fin 1) 1] :=
    hone ▸ hcalls'
  refine ⟨⟨calls, calls', hok, hok', hgauge, hcounter⟩, ?_⟩
  intro hmadeSame
  obtain ⟨made, made', call, hmade, hmade', hcall, hcall'⟩ := hmadeSame
  obtain rfl := Except.ok.inj (hok.symm.trans hmade)
  obtain rfl := Except.ok.inj (hok'.symm.trans hmade')
  have hsame := (hgauge.symm.trans hcall).trans (hcall'.symm.trans hcounter)
  cases hsame

end StatsdC
