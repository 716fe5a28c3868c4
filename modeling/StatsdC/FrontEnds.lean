import StatsdC.JsonCompact
import StatsdC.JsonPacket
import StatsdC.Lib.Upsert
import StatsdC.Numerals
import StatsdC.Reordering

/-!
# The two front ends

A list of measurements can be sent as one JSON array or as plain packets.  Both front ends make one
call per measurement, with the same key, and differ only in how they read a number (`Reading`).  The
tokener reads a numeral without a point as an `int`, so the tables are the same as long as these fit
an `int`, and otherwise only where the errors cancel (`frontEnds_agree`).  An `int` has no negative
zero, which `strtod` reads from `-0`, and so `-0` without a point is one of the numerals that are
not read alike (`Numeral.FitsInt`).

A `Measurement` is a counter with its optional sample rate, or a timer; its numbers are numerals, so
that both texts can be written from it (`jsonObject`, `packet`), and its key is a name that either
front end accepts.  Measurements come in any number and with any repetition of their keys.
`SameEffect` compares the tables that are left, from any tables in which no key is twice: the same
entries in the same order with the same values, where the two zeros are different.

The effect of the calls is computed as a sequence of upserts (`StatsdC.Lib.Upsert`), so that the
comparison is one of the sums that each key's counters add and of the samples of each timer.  A rate
that is not there is zero for one front end and one for the other, which comes to the same, because
a rate of zero is not divided by.
-/

namespace StatsdC
open CString Decimal Fallible OrderedTable

/-! ## Measurements -/

/-- A letter, a digit, or one of `_`, `-`, `.` and `/`: no byte of it delimits a packet or needs an
escape. -/
def isMetricChar (c : Char) : Bool := isKeyChar c || c == '.' || c == '/'

/-- A nonempty key over these that fits its field.  It may still change when it is sanitized. -/
structure MetricName where
  text : CString
  ne_nil : text ≠ []
  chars : ∀ c ∈ text, isMetricChar c = true
  length_le : text.length ≤ 99

/-- A counter with its optional sample rate, or a timer: what both of the formats can express. -/
inductive Measurement where
  | counter (key : MetricName) (value : Numeral) (rate : Option Numeral)
  | timer (key : MetricName) (value : Numeral)

theorem MetricName.notMem (k : MetricName) {c : Char} (hc : isMetricChar c = false) :
    c ∉ k.text := by
  intro h
  have hchar := k.chars c h
  rw [hc] at hchar
  cases hchar

/-- A key as a field. -/
def MetricName.field (k : MetricName) : PacketField :=
  ⟨k.text, k.ne_nil, k.notMem (by decide), k.notMem (by decide)⟩

theorem Numeral.notMem_text (n : Numeral) {c : Char} (hdigit : c.isDigit = false) (hpoint : c ≠ '.')
    (hminus : c ≠ '-') : c ∉ n.text := by
  intro h
  rcases n.mem_text h with h | h | h
  · rw [hdigit] at h
    cases h
  · exact hpoint h
  · exact hminus h

/-- A numeral as a field. -/
def Numeral.field (n : Numeral) : PacketField :=
  ⟨n.text, n.text_ne_nil, n.notMem_text rfl (by decide) (by decide),
    n.notMem_text rfl (by decide) (by decide)⟩

namespace Measurement

/-- The measurement as an object of the JSON format, without white space and with its numbers
unquoted. -/
def jsonObject : Measurement → CString
  | counter key value none =>
    compactObject [("counter".toList, quoted key.text), ("value".toList, value.text)]
  | counter key value (some rate) =>
    compactObject [("counter".toList, quoted key.text), ("value".toList, value.text),
      ("sample_rate".toList, rate.text)]
  | timer key value =>
    compactObject [("timer".toList, quoted key.text), ("value".toList, value.text)]

/-- The measurement as a plain packet, with the same numerals in it. -/
def packet : Measurement → BatchPacket
  | counter key value rate => .counter key.field value.field (rate.map Numeral.field)
  | timer key value => .timer key.field value.field

end Measurement

/-- The measurements as one JSON array, in the same order as the plain packets. -/
def jsonArray (ms : List Measurement) : CString := compactArray (ms.map Measurement.jsonObject)

/-- A buffer that starts with a string, whatever stands behind its NUL. -/
def Holds (buf : Buffer) (text : CString) : Prop := ∃ rest, StringAt buf 0 text rest

/-- Plain packets, one after another, each with the time of its arrival.  Nothing else touches the
tables in between. -/
def handlePlainAll (t : Tables Num) (bufs : List (Buffer × Int)) :
    Except DaemonFault (Tables Num) :=
  bufs.foldlM (fun t buf => handlePlain t buf.1 buf.2) t

/-- Sent either way, the measurements leave the same counters and the same timers, from any tables
whose keys are unique. -/
def SameEffect (ms : List Measurement) : Prop :=
  ∀ (t : Tables Num) (buf : Buffer) (now : Int) (bufs : List (Buffer × Int)), KeysUnique t →
    Holds buf (jsonArray ms) → List.Forall₂ (fun b m => Holds b.1 m.packet.text) bufs ms →
    ∃ t₁ t₂, handleJson t buf now = .ok t₁ ∧ handlePlainAll t bufs = .ok t₂ ∧
      t₁.counters = t₂.counters ∧ t₁.timers = t₂.timers

/-! ## How a front end reads numbers -/

/-- How a front end reads a numeral, and which rate it takes where none is given. -/
structure Reading where
  num : Numeral → Num
  noRate : Num

/-- The plain front end: `strtod`, and a rate of one where none is given. -/
def plainReading : Reading := ⟨Numeral.toNum, 1⟩

/-- What the tokener makes of a numeral: an `int` without a point, and a `double` with one. -/
def Numeral.json (n : Numeral) : Json :=
  match n.fraction with
  | none => .int (intOfLong (clampLong n.intValue))
  | some _ => .double n.toNum

/-- The JSON front end: an `int` if there is no point, and a rate of zero. -/
def jsonReading : Reading := ⟨fun n => n.json.getDouble, 0⟩

/-- The rate of a counter. -/
def Reading.rate (r : Reading) (rate : Option Numeral) : Num := (rate.map r.num).getD r.noRate

/-- The call that a measurement stands for, in a given reading of its numerals. -/
def Measurement.call (r : Reading) : Measurement → MetricCall Num
  | counter key value rate =>
    .updateCounter (some (sanitizeKey key.text)) (r.num value) (r.rate rate)
  | timer key value => .updateTimer (some (sanitizeKey key.text)) (r.num value)

/-- A numeral in the range of an `int`, unless it has a point.  An `int` has no negative zero, so
`-0` is none. -/
def Numeral.FitsInt (n : Numeral) : Prop :=
  n.fraction = none →
    -2 ^ 31 ≤ n.intValue ∧ n.intValue < 2 ^ 31 ∧ (n.neg = true → n.intValue ≠ 0)

theorem abs_intCast_le {z : Int} (h : -2 ^ 31 ≤ z ∧ z < 2 ^ 31) : |z| ≤ 2 ^ 31 :=
  abs_le.mpr ⟨h.1, h.2.le⟩

/-- A small integer is the `double` of itself only, since its neighbours are closer than one. -/
theorem Num.eq_of_ofRat_eq_fin {z w : Int} (h : ofRat z = fin w) (hw : |w| ≤ 2 ^ 31) : w = z := by
  rcases le_or_gt |z| (2 ^ 53) with hz | hz
  · rw [ofRat_intCast hz] at h
    exact (Int.cast_inj.mp (fin.inj h)).symm
  · -- a great one is not rounded to a small one
    have hgreat : (2 : Rat) ^ 53 ≤ |(z : Rat)| := by exact_mod_cast hz.le
    have hround : (2 : Rat) ^ 53 ≤ |Binary64.round z| := by
      rw [Binary64.abs_round]
      exact Binary64.le_round (Binary64.isValue_two_pow 53) hgreat
    have hsmall : |(w : Rat)| ≤ 2 ^ 31 := by exact_mod_cast hw
    unfold ofRat at h
    simp only at h
    split at h
    · cases h
    · split at h
      · cases h
      · rw [fin.inj h] at hround
        have hle := hround.trans hsmall
        norm_num at hle

theorem intOfLong_fits (z : Int) : -2 ^ 31 ≤ intOfLong z ∧ intOfLong z < 2 ^ 31 := by
  have hlo := Int.le_bmod (x := z) (m := 2 ^ 32) (by decide)
  have hhi := Int.bmod_lt (x := z) (m := 2 ^ 32) (by decide)
  rw [intOfLong]
  constructor
  · exact hlo
  · exact hhi

theorem Numeral.json_of_none {n : Numeral} (h : n.fraction = none) :
    n.json = .int (intOfLong (clampLong n.intValue)) := by
  rw [json, h]

theorem Numeral.json_of_some {n : Numeral} {ds : CString} (h : n.fraction = some ds) :
    n.json = .double n.toNum := by
  rw [json, h]

/-- A zero with a minus is the negative one, which an `int` cannot hold. -/
theorem Numeral.toNum_of_intValue_eq_zero {n : Numeral} (hf : n.fraction = none)
    (hneg : n.neg = true) (hzero : n.intValue = 0) : n.toNum = .negZero := by
  have hmagnitude : n.magnitude = 0 := by
    have hvalue := n.value_of_fraction_none hf
    rw [value, if_pos hneg, hzero, Int.cast_zero, neg_eq_zero] at hvalue
    exact hvalue
  rw [toNum, hneg, hmagnitude, Num.ofSigned, if_pos rfl,
    Num.ofRat_of_isValue Binary64.isValue_zero (by rw [abs_zero]; exact Num.dblMax_pos.le)]
  rfl

/-- An `int` is read the same way by both front ends, and nothing else without a point is. -/
theorem Numeral.jsonReading_eq_iff (n : Numeral) :
    jsonReading.num n = plainReading.num n ↔ n.FitsInt := by
  show n.json.getDouble = n.toNum ↔ n.FitsInt
  unfold FitsInt
  cases hf : n.fraction with
  | some ds =>
    rw [json_of_some hf]
    exact iff_of_true rfl (by rintro ⟨⟩)
  | none =>
    have hint := intOfLong_fits (clampLong n.intValue)
    rw [json_of_none hf, forall_prop_of_true rfl, Json.getDouble]
    by_cases hminus : n.neg = true ∧ n.intValue = 0
    · rw [toNum_of_intValue_eq_zero hf hminus.1 hminus.2]
      exact iff_of_false Num.noConfusion fun h => h.2.2 hminus.1 hminus.2
    · have hsign : n.neg = true → n.intValue ≠ 0 := fun hneg hzero => hminus ⟨hneg, hzero⟩
      have hvalue := n.value_of_fraction_none hf
      have hne : n.neg = true → n.value ≠ 0 := by
        intro hneg hzero
        rw [hvalue] at hzero
        exact hsign hneg (by exact_mod_cast hzero)
      rw [n.toNum_eq_ofRat hne, hvalue]
      constructor
      · intro h
        have heq := Num.eq_of_ofRat_eq_fin h.symm (abs_intCast_le hint)
        rw [heq] at hint
        exact ⟨hint.1, hint.2, hsign⟩
      · intro h
        have hclamp : clampLong n.intValue = n.intValue :=
          clampLong_eq_self (by omega) (by omega)
        have hle := abs_intCast_le ⟨h.1, h.2.1⟩
        rw [Num.ofRat_intCast (hle.trans (by norm_num)), hclamp, intOfLong,
          Int.bmod_eq_of_le (by omega) (by omega)]

/-! ## The JSON front end -/

section Json
open JsonTokener

theorem Numeral.exists_text_eq_cons (n : Numeral) :
    ∃ c t, n.text = c :: t ∧ (c.isDigit = true ∨ c = '-') := by
  obtain ⟨c, t, heq, hc⟩ := n.exists_unsigned_eq_cons
  unfold text
  split
  · exact ⟨'-', _, rfl, .inr rfl⟩
  · exact ⟨c, t, heq, .inl hc⟩

theorem Numeral.mem_jsonNumberChars (n : Numeral) {c : Char} (hc : c ∈ n.text) :
    c ∈ jsonNumberChars := by
  rcases n.mem_text hc with h | rfl | rfl
  · exact mem_jsonNumberChars_of_isDigit h
  · decide
  · decide

/-- The point is what makes a numeral a `double`. -/
theorem Numeral.point_mem_text_iff (n : Numeral) : '.' ∈ n.text ↔ n.fraction ≠ none := by
  have hwhole : '.' ∉ printNat n.whole := by
    intro h
    cases isDigit_of_mem_printNat h
  unfold text unsigned
  cases hf : n.fraction with
  | none => by_cases hneg : n.neg <;> simp [hneg, hwhole]
  | some ds => by_cases hneg : n.neg <;> simp [hneg]

/-- **The tokener reads a numeral** as an `int` if it has no point, and as a `double`
otherwise. -/
theorem Numeral.readsAs_text (n : Numeral) (levels : Nat) : ReadsAs levels n.text n.json := by
  obtain ⟨c, t, heq, hc⟩ := n.exists_text_eq_cons
  have hds : ∀ e ∈ c :: t, e ∈ jsonNumberChars := fun e he => n.mem_jsonNumberChars (heq ▸ he)
  have hstarts : startsValue c = true := by
    rcases hc with hc | rfl
    · exact startsValue_of_isDigit hc
    · decide
  refine ⟨⟨c, t, heq, hstarts⟩, ?_⟩
  cases hf : n.fraction with
  | none =>
    have hscan := n.sscanfD_text hf
    have hint : ∀ e ∈ c :: t, isDoubleChar e = false := by
      intro e he
      have hmem : e ∈ n.text := heq ▸ he
      rcases n.mem_text hmem with h | rfl | rfl
      · have hpoint : e ≠ '.' := by rintro rfl; cases h
        have he' : e ≠ 'e' := by rintro rfl; cases h
        simp [isDoubleChar, hpoint, he']
      · exact absurd hf (n.point_mem_text_iff.mp hmem)
      · rfl
    rw [json_of_none hf]
    rw [heq] at hscan ⊢
    exact reads_int hc hds hint hscan
  | some ds =>
    have hscan := n.sscanfLf_text
    have hpoint : '.' ∈ n.text := n.point_mem_text_iff.mpr (by rw [hf]; exact Option.some_ne_none _)
    rw [json_of_some hf]
    rw [heq] at hscan hpoint ⊢
    exact reads_double hc hds hpoint hscan

theorem Numeral.isNull_json (n : Numeral) : n.json.isNull = false := by
  unfold json
  cases n.fraction <;> rfl

/-- A key needs no escape, although its slash would be printed with one. -/
theorem MetricName.plainString (k : MetricName) : PlainString k.text := by
  refine ⟨k.notMem (by decide), fun c hc => ⟨?_, ?_⟩⟩
  · rintro rfl
    exact k.notMem (by decide) hc
  · rintro rfl
    exact k.notMem (by decide) hc

namespace Measurement

/-- The entries of the object, with what they stand for, in the order in which they are written. -/
def entries : Measurement → List EntryText
  | counter key value rate =>
    [⟨"counter".toList, quoted key.text, .string key.text⟩,
      ⟨"value".toList, value.text, value.json⟩] ++
    (rate.map fun r => ⟨"sample_rate".toList, r.text, r.json⟩).toList
  | timer key value =>
    [⟨"timer".toList, quoted key.text, .string key.text⟩,
      ⟨"value".toList, value.text, value.json⟩]

/-- The object. -/
def json (m : Measurement) : Json := .object (m.entries.map fun e => (e.key, e.value))

theorem jsonObject_eq (m : Measurement) :
    m.jsonObject = compactObject (m.entries.map fun e => (e.key, e.text)) := by
  cases m with
  | counter key value rate => cases rate <;> rfl
  | timer key value => rfl

theorem plainString_of_all {s : CString}
    (h : (s.all fun c => c != nul && c != '"' && c != '\\') = true) : PlainString s := by
  have hall : ∀ c ∈ s, c ≠ nul ∧ c ≠ '"' ∧ c ≠ '\\' := by
    simpa [List.all_eq_true, and_assoc] using h
  exact ⟨fun hmem => (hall _ hmem).1 rfl, fun c hc => (hall c hc).2⟩

theorem readsAs_entries (m : Measurement) : ∀ e ∈ m.entries, e.ReadsAs 0 := by
  have hcounter : PlainString "counter".toList := plainString_of_all (by decide)
  have htimer : PlainString "timer".toList := plainString_of_all (by decide)
  have hvalue : PlainString "value".toList := plainString_of_all (by decide)
  have hrate : PlainString "sample_rate".toList := plainString_of_all (by decide)
  cases m with
  | counter key value rate =>
    intro e he
    rcases List.mem_append.mp he with he | he
    · rcases List.mem_pair.mp he with rfl | rfl
      · exact ⟨hcounter, readsAs_quoted key.plainString⟩
      · exact ⟨hvalue, value.readsAs_text 0⟩
    · cases rate with
      | none => cases he
      | some r =>
        obtain rfl := List.mem_singleton.mp he
        exact ⟨hrate, r.readsAs_text 0⟩
  | timer key value =>
    intro e he
    rcases List.mem_pair.mp he with rfl | rfl
    · exact ⟨htimer, readsAs_quoted key.plainString⟩
    · exact ⟨hvalue, value.readsAs_text 0⟩

theorem nodup_entries (m : Measurement) : (m.entries.map EntryText.key).Nodup := by
  cases m with
  | counter key value rate =>
    cases rate with
    | none => exact (by decide : ["counter".toList, "value".toList].Nodup)
    | some r =>
      exact (by decide : ["counter".toList, "value".toList, "sample_rate".toList].Nodup)
  | timer key value => exact (by decide : ["timer".toList, "value".toList].Nodup)

/-- The object is read as it is meant, which the results on compact texts give entry by entry. -/
theorem readsAs_jsonObject (m : Measurement) : ReadsAs 1 m.jsonObject m.json := by
  have hread := readsAs_compactObject m.readsAs_entries
  have hnodup : (([] : List (CString × Json)).map Prod.fst ++
      (m.entries.map fun e => (e.key, e.value)).map Prod.fst).Nodup := by
    rw [List.map_nil, List.nil_append, List.map_map]
    exact m.nodup_entries
  rw [lhTableAddAll_of_nodup hnodup, List.nil_append, ← m.jsonObject_eq] at hread
  exact hread

/-- The object makes the call of its measurement. -/
theorem callsAlone_json (m : Measurement) : callsAlone m.json = [m.call jsonReading] := by
  have hcalls : processJsonStatsObject m.json = .ok [m.call jsonReading] := by
    cases m with
    | counter key value rate =>
      have hvalue := value.isNull_json
      cases rate with
      | none =>
        show (do
          if value.json.isNull then return []
          return [MetricCall.updateCounter (some (sanitizeKey key.text)) value.json.getDouble 0]) =
          Except.ok _
        rw [hvalue]
        rfl
      | some r =>
        have hrate := r.isNull_json
        show (do
          if value.json.isNull then return []
          return [MetricCall.updateCounter (some (sanitizeKey key.text)) value.json.getDouble
            (if r.json.isNull then 0 else r.json.getDouble)]) = Except.ok _
        rw [hvalue, hrate]
        rfl
    | timer key value =>
      have hvalue := value.isNull_json
      show (do
        if value.json.isNull then return []
        return [MetricCall.updateTimer (some (sanitizeKey key.text)) value.json.getDouble]) =
        Except.ok _
      rw [hvalue]
      rfl
  rw [json] at hcalls ⊢
  rw [callsAlone, hcalls]
  rfl

end Measurement

/-- **The JSON front end** makes one call for each measurement, in their order. -/
theorem processJsonStatsPacket_jsonArray {ms : List Measurement} {buf : Buffer}
    (hbuf : Holds buf (jsonArray ms)) :
    processJsonStatsPacket buf = .ok (ms.map (Measurement.call jsonReading)) := by
  obtain ⟨rest, hat⟩ := hbuf
  have hobjects : ∀ x ∈ ms.map fun m => (m.jsonObject, m.json), ReadsAs 1 x.1 x.2 := by
    intro x hx
    obtain ⟨m, -, rfl⟩ := List.mem_map.mp hx
    exact m.readsAs_jsonObject
  have hparse := jsonTokenerParse_of_readsAs (readsAs_compactArray hobjects) (by decide)
  rw [List.map_map, List.map_map] at hparse
  have hparse' : jsonTokenerParse (jsonArray ms) = .ok (.array (ms.map Measurement.json)) := hparse
  have hlen : ¬ (jsonArray ms).length < 2 := by
    simp [jsonArray, compactArray]
  have hloop : elementLoop (.array (ms.map Measurement.json))
      (List.range (ms.map Measurement.json).length) =
      .ok ((ms.map Measurement.json).flatMap callsAlone) := by
    refine elementLoop_range fun x hx => ?_
    obtain ⟨m, -, rfl⟩ := List.mem_map.mp hx
    exact ⟨_, rfl⟩
  have hcalls : (ms.map Measurement.json).flatMap callsAlone =
      ms.map (Measurement.call jsonReading) := by
    rw [List.flatMap_map, List.flatMap_congr fun m _ => m.callsAlone_json, List.map_eq_flatMap]
  rw [processJsonStatsPacket, hat.cstr_eq, if_neg hlen, hparse', ← hcalls, ← hloop]
  rfl

end Json

/-! ## The plain front end -/

theorem Measurement.call_segment (m : Measurement) :
    m.packet.segment.call strtod (sanitizeKey m.packet.key.text) = m.call plainReading := by
  have hnum : ∀ n : Numeral, num strtod n.field.text = plainReading.num n := fun n => by
    rw [num, Numeral.field, n.sanitizeValue_text, n.strtod_text, plainReading]
  rw [BatchPacket.call_segment]
  cases m with
  | counter key value rate =>
    cases rate with
    | none => simp only [packet, Option.map_none, hnum]; rfl
    | some r =>
      have hrate : strtod r.field.text = plainReading.num r := r.strtod_text
      simp only [packet, Option.map_some, hnum, hrate]
      rfl
  | timer key value => simp only [packet, hnum]; rfl

/-- **The plain front end** makes the one call of its measurement, from the packet with one segment.
-/
theorem processStatsPacket_packet {m : Measurement} {buf : Buffer}
    (hbuf : Holds buf m.packet.text) :
    ∃ calls, processStatsPacket strtod buf = .ok calls ∧
      calls.map TracedCall.call = [m.call plainReading] := by
  obtain ⟨rest, hat⟩ := hbuf
  obtain ⟨calls, hok, hcalls⟩ := processStatsPacket_decodes strtod m.packet.key.text
    [m.packet.segment] m.packet.key.ne_nil m.packet.key.colon_notMem m.packet.two_le_length_text hat
  refine ⟨calls, hok, hcalls.trans ?_⟩
  rw [← m.call_segment]
  rfl

/-! ## What the calls leave -/

/-- What a counter adds: its value times the inverse of its rate, or as it is where the rate is
zero. -/
def Reading.share (r : Reading) (a : Numeral × Option Numeral) : Num :=
  contribution (r.num a.1) (r.rate a.2)

namespace Measurement

/-- The value and the rate of a counter with key `k`, after the key is sanitized. -/
def counted (k : CString) : Measurement → Option (Numeral × Option Numeral)
  | counter key value rate => if sanitizeKey key.text = k then some (value, rate) else none
  | timer _ _ => none

/-- The value of a timer with key `k`, after the key is sanitized. -/
def timed (k : CString) : Measurement → Option Numeral
  | counter _ _ _ => none
  | timer key value => if sanitizeKey key.text = k then some value else none

/-- The update of the counters, in the form that the results on insertions and updates take. -/
def counterUpsert (r : Reading) : Measurement → List (Upsert (@StatsdCounter.key Num))
  | counter key value rate =>
    [⟨sanitizeKey key.text, fun c => { c with value := c.value + r.share (value, rate) },
      ⟨sanitizeKey key.text, r.share (value, rate)⟩, fun _ => rfl, rfl⟩]
  | timer _ _ => []

/-- The update of the timers, in the same form. -/
def timerUpsert (r : Reading) : Measurement → List (Upsert (@StatsdTimer.key Num))
  | counter _ _ _ => []
  | timer key value =>
    [⟨sanitizeKey key.text,
      fun s => { s with values := s.values ++ [r.num value], count := s.count + 1 },
      ⟨sanitizeKey key.text, 1, [r.num value]⟩, fun _ => rfl, rfl⟩]

theorem strcpyKey_sanitizeKey (k : MetricName) :
    strcpyKey (sanitizeKey k.text) = .ok (sanitizeKey k.text) := by
  have hle := length_sanitizeKey_le k.text
  have hlen := k.length_le
  exact if_pos (by unfold keySize; omega)

/-- A call updates one of the two tables, and does not fail, since the key of a measurement fits its
field. -/
theorem apply_call (r : Reading) (m : Measurement) (t : Tables Num) :
    (m.call r).apply t = .ok { t with
      counters := Upsert.applyAll t.counters (m.counterUpsert r)
      timers := Upsert.applyAll t.timers (m.timerUpsert r) } := by
  cases m with
  | counter key value rate =>
    show updateCounter t (sanitizeKey key.text) (r.num value) (r.rate rate) = .ok { t with
      counters := Upsert.apply t.counters ⟨sanitizeKey key.text,
        fun c => { c with value := c.value + r.share (value, rate) },
        ⟨sanitizeKey key.text, r.share (value, rate)⟩, fun _ => rfl, rfl⟩ }
    rw [updateCounter, Upsert.apply]
    cases hfind : find StatsdCounter.key t.counters (sanitizeKey key.text) with
    | some i => rfl
    | none => simp only [strcpyKey_sanitizeKey, bind, Except.bind]; rfl
  | timer key value =>
    show updateTimer t (sanitizeKey key.text) (r.num value) = .ok { t with
      timers := Upsert.apply t.timers ⟨sanitizeKey key.text,
        fun s => { s with values := s.values ++ [r.num value], count := s.count + 1 },
        ⟨sanitizeKey key.text, 1, [r.num value]⟩, fun _ => rfl, rfl⟩ }
    rw [updateTimer, Upsert.apply]
    cases hfind : find StatsdTimer.key t.timers (sanitizeKey key.text) with
    | some i => rfl
    | none => simp only [strcpyKey_sanitizeKey, bind, Except.bind]

end Measurement

/-- The counters after the calls of a list, from given counters on. -/
def countersAfter (r : Reading) (ms : List Measurement) (cs : List (StatsdCounter Num)) :
    List (StatsdCounter Num) := Upsert.applyAll cs (ms.flatMap (Measurement.counterUpsert r))

/-- The timers after the calls of a list, from given timers on. -/
def timersAfter (r : Reading) (ms : List Measurement) (ts : List (StatsdTimer Num)) :
    List (StatsdTimer Num) := Upsert.applyAll ts (ms.flatMap (Measurement.timerUpsert r))

variable {ms : List Measurement}

theorem applyMetricCalls_call (r : Reading) (ms : List Measurement) (t : Tables Num) :
    applyMetricCalls t (ms.map (Measurement.call r)) = .ok { t with
      counters := countersAfter r ms t.counters, timers := timersAfter r ms t.timers } := by
  induction ms generalizing t with
  | nil => rfl
  | cons m ms ih =>
    rw [List.map_cons, applyMetricCalls, List.foldlM_cons, m.apply_call]
    refine (ih _).trans ?_
    simp only [countersAfter, timersAfter, List.flatMap_cons, Upsert.applyAll_append]

/-- The array, with its effect on the tables. -/
theorem handleJson_jsonArray {buf : Buffer} (hbuf : Holds buf (jsonArray ms)) (t : Tables Num)
    (now : Int) :
    handleJson t buf now = .ok { t with
      counters := countersAfter jsonReading ms t.counters
      timers := timersAfter jsonReading ms t.timers } := by
  have hcalls := processJsonStatsPacket_jsonArray hbuf
  have hlen : ¬ (cstr buf 0).length < 2 := by
    obtain ⟨rest, hat⟩ := hbuf
    rw [hat.cstr_eq]
    simp [jsonArray, compactArray]
  simp only [handleJson, hcalls, applyMetricCalls_call, Except.mapError, bind, Except.bind, hlen,
    if_false]
  rfl

/-- One packet, with its effect on the tables. -/
theorem handlePlain_packet {m : Measurement} {buf : Buffer} (hbuf : Holds buf m.packet.text)
    (t : Tables Num) (now : Int) :
    ∃ stats, handlePlain t buf now = .ok { t with
      stats, counters := countersAfter plainReading [m] t.counters,
      timers := timersAfter plainReading [m] t.timers } := by
  obtain ⟨calls, hok, hcalls⟩ := processStatsPacket_packet hbuf
  have happly := applyMetricCalls_call plainReading [m] t
  obtain ⟨stats, hstats⟩ := updateStat_lastMsgSeen { t with
    counters := countersAfter plainReading [m] t.counters
    timers := timersAfter plainReading [m] t.timers } (printD now)
  refine ⟨stats, ?_⟩
  simp only [handlePlain, bind_eq_ok, mapError_eq_ok]
  refine ⟨calls, hok, _, ?_, hstats⟩
  rw [hcalls]
  exact happly

/-- The packets, with their effect on the tables. -/
theorem handlePlainAll_packets {bufs : List (Buffer × Int)}
    (hbufs : List.Forall₂ (fun b m => Holds b.1 m.packet.text) bufs ms) (t : Tables Num) :
    ∃ stats, handlePlainAll t bufs = .ok { t with
      stats, counters := countersAfter plainReading ms t.counters,
      timers := timersAfter plainReading ms t.timers } := by
  induction hbufs generalizing t with
  | nil => exact ⟨t.stats, rfl⟩
  | @cons b m bufs ms hb hbufs ih =>
    obtain ⟨stats₁, h₁⟩ := handlePlain_packet hb t b.2
    obtain ⟨stats, h⟩ := ih { t with
      stats := stats₁, counters := countersAfter plainReading [m] t.counters,
      timers := timersAfter plainReading [m] t.timers }
    refine ⟨stats, ?_⟩
    rw [handlePlainAll, List.foldlM_cons, h₁]
    refine h.trans ?_
    simp only [countersAfter, timersAfter, ← Upsert.applyAll_append, List.flatMap_cons,
      List.flatMap_nil, List.append_nil]

/-! ## When the tables are the same -/

namespace Num

/-- Addition is associative: infinities of opposite sign are a NaN in either order.  That needs
exact sums. -/
theorem add_assoc_num (x y z : Num) : add (add x y) z = add x (add y z) := by
  cases x with
  | fin p =>
    cases y with
    | fin q => cases z <;> simp [add, add_assoc]
    | negZero => cases z <;> rfl
    | inf s =>
      cases z with
      | fin q => rfl
      | negZero => rfl
      | inf t => cases s <;> cases t <;> rfl
      | nan => rfl
    | nan => cases z <;> rfl
  | negZero => cases y <;> cases z <;> rfl
  | inf s =>
    cases y with
    | fin q => cases z <;> rfl
    | negZero => cases z <;> rfl
    | inf t =>
      cases z with
      | fin q => cases s <;> cases t <;> rfl
      | negZero => cases s <;> cases t <;> rfl
      | inf u => cases s <;> cases t <;> cases u <;> rfl
      | nan => cases s <;> cases t <;> rfl
    | nan => cases z <;> rfl
  | nan =>
    have hnan : ∀ w, add nan w = nan := fun w => by cases w <;> rfl
    rw [hnan, hnan, hnan]

/-- The zero that changes no number is the negative one: added to the other, it would lose the sign
of a zero. -/
theorem add_negZero (x : Num) : x + negZero = x := by
  show add x negZero = x
  cases x <;> rfl

/-- A sum of numbers, from the last to the first, starting with the zero that changes none. -/
def total (xs : List Num) : Num := xs.foldr (· + ·) negZero

theorem add_total_cons (x y : Num) (ys : List Num) : x + total (y :: ys) = (x + y) + total ys :=
  (add_assoc_num x y (total ys)).symm

theorem mul_one_div_one (x : Num) : x * (1 / 1) = x := by
  have hone : (1 : Num) / 1 = fin 1 := by
    show div (fin 1) (fin 1) = fin 1
    rw [div, if_neg one_ne_zero, if_neg one_ne_zero, div_one]
  have hpos : decide ((1 : Rat) < 0) = false := decide_eq_false (by norm_num)
  rw [hone]
  show mul x (fin 1) = x
  cases x with
  | fin q =>
    rw [mul, mul_one, hpos, Bool.xor_false]
    split
    · rename_i hq
      rw [hq]
      rfl
    · rfl
  | negZero =>
    rw [mul, hpos]
    rfl
  | inf s => rw [mul, if_neg one_ne_zero, hpos, Bool.xor_false]
  | nan => rfl

end Num

/-- What the counters with key `k` add, in the order of the measurements. -/
def shares (r : Reading) (k : CString) (ms : List Measurement) : List Num :=
  (ms.filterMap (Measurement.counted k)).map r.share

/-- The samples of the timer `k`, in the order of the measurements. -/
def readSamples (r : Reading) (k : CString) (ms : List Measurement) : List Num :=
  (ms.filterMap (Measurement.timed k)).map r.num

/-- A counter grows by `x`. -/
def growCounter (k : CString) (x : Num) : Upsert (@StatsdCounter.key Num) :=
  ⟨k, fun c => { c with value := c.value + x }, ⟨k, x⟩, fun _ => rfl, rfl⟩

/-- A timer gets the sample `x`. -/
def growTimer (k : CString) (x : Num) : Upsert (@StatsdTimer.key Num) :=
  ⟨k, fun s => { s with values := s.values ++ [x], count := s.count + 1 }, ⟨k, 1, [x]⟩,
    fun _ => rfl, rfl⟩

theorem entryAfter_growCounter (c : StatsdCounter Num) (xs : List Num) :
    Upsert.entryAfter c.key (some c) (xs.map (growCounter c.key)) =
      some { c with value := c.value + Num.total xs } := by
  induction xs generalizing c with
  | nil =>
    show some c = some { c with value := c.value + Num.negZero }
    rw [Num.add_negZero]
  | cons x xs ih =>
    rw [Num.add_total_cons]
    exact (Upsert.entryAfter_cons_self (growCounter c.key x) _ _).trans
      (ih { c with value := c.value + x })

theorem entryAfter_growTimer (s : StatsdTimer Num) (xs : List Num) :
    Upsert.entryAfter s.key (some s) (xs.map (growTimer s.key)) =
      some { s with count := s.count + xs.length, values := s.values ++ xs } := by
  induction xs generalizing s with
  | nil =>
    show some s = some { s with count := s.count + 0, values := s.values ++ [] }
    rw [List.append_nil]
    rfl
  | cons x xs ih =>
    have hstep := ih { s with values := s.values ++ [x], count := s.count + 1 }
    rw [List.append_assoc, List.singleton_append, Nat.add_assoc, Nat.add_comm 1] at hstep
    exact (Upsert.entryAfter_cons_self (growTimer s.key x) _ _).trans hstep

section After
variable (r : Reading) (ms : List Measurement)

theorem filter_counterUpsert (k : CString) :
    (ms.flatMap (Measurement.counterUpsert r)).filter (fun u => u.key = k) =
      (shares r k ms).map (growCounter k) := by
  induction ms with
  | nil => rfl
  | cons m ms ih =>
    rw [List.flatMap_cons, List.filter_append, ih]
    cases m with
    | counter key value rate =>
      show [growCounter (sanitizeKey key.text) (r.share (value, rate))].filter _ ++ _ = _
      by_cases hk : sanitizeKey key.text = k
      · simp [shares, Measurement.counted, growCounter, hk]
      · simp [shares, Measurement.counted, growCounter, hk]
    | timer key value => rfl

theorem filter_timerUpsert (k : CString) :
    (ms.flatMap (Measurement.timerUpsert r)).filter (fun u => u.key = k) =
      (readSamples r k ms).map (growTimer k) := by
  induction ms with
  | nil => rfl
  | cons m ms ih =>
    rw [List.flatMap_cons, List.filter_append, ih]
    cases m with
    | counter key value rate => rfl
    | timer key value =>
      show [growTimer (sanitizeKey key.text) (r.num value)].filter _ ++ _ = _
      by_cases hk : sanitizeKey key.text = k
      · simp [readSamples, Measurement.timed, growTimer, hk]
      · simp [readSamples, Measurement.timed, growTimer, hk]

theorem counterAfter_some (c : StatsdCounter Num) :
    Upsert.entryAfter c.key (some c) (ms.flatMap (Measurement.counterUpsert r)) =
      some { c with value := c.value + Num.total (shares r c.key ms) } := by
  rw [← Upsert.entryAfter_filter, filter_counterUpsert]
  exact entryAfter_growCounter c _

theorem counterAfter_none (k : CString) :
    Upsert.entryAfter k none (ms.flatMap (Measurement.counterUpsert r)) =
      if shares r k ms = [] then none else some ⟨k, Num.total (shares r k ms)⟩ := by
  rw [← Upsert.entryAfter_filter, filter_counterUpsert]
  cases shares r k ms with
  | nil => rfl
  | cons x xs =>
    rw [if_neg (List.cons_ne_nil _ _)]
    exact (Upsert.entryAfter_cons_self (growCounter k x) _ _).trans
      (entryAfter_growCounter ⟨k, x⟩ xs)

theorem timerAfter_some (s : StatsdTimer Num) :
    Upsert.entryAfter s.key (some s) (ms.flatMap (Measurement.timerUpsert r)) =
      some { s with
        count := s.count + (readSamples r s.key ms).length
        values := s.values ++ readSamples r s.key ms } := by
  rw [← Upsert.entryAfter_filter, filter_timerUpsert]
  exact entryAfter_growTimer s _

theorem timerAfter_none (k : CString) :
    Upsert.entryAfter k none (ms.flatMap (Measurement.timerUpsert r)) =
      if readSamples r k ms = [] then none
      else some ⟨k, (readSamples r k ms).length, readSamples r k ms⟩ := by
  rw [← Upsert.entryAfter_filter, filter_timerUpsert]
  cases readSamples r k ms with
  | nil => rfl
  | cons x xs =>
    have hrest := entryAfter_growTimer ⟨k, 1, [x]⟩ xs
    rw [Nat.add_comm, List.singleton_append] at hrest
    rw [if_neg (List.cons_ne_nil _ _), List.length_cons]
    exact (Upsert.entryAfter_cons_self (growTimer k x) _ _).trans hrest

end After

theorem lookup_key {ε κ : Type} [DecidableEq κ] {keyOf : ε → κ} {table : List ε} {k : κ} {e : ε}
    (h : lookup keyOf table k = some e) : keyOf e = k := by
  simpa using List.find?_some h

/-- The order in which the keys come does not depend on the reading, which concerns the numerals
only. -/
theorem counterKeys_eq (r r' : Reading) (ms : List Measurement) :
    (ms.flatMap (Measurement.counterUpsert r)).map Upsert.key =
      (ms.flatMap (Measurement.counterUpsert r')).map Upsert.key := by
  rw [List.map_flatMap, List.map_flatMap]
  exact List.flatMap_congr fun m _ => by cases m <;> rfl

theorem timerKeys_eq (r r' : Reading) (ms : List Measurement) :
    (ms.flatMap (Measurement.timerUpsert r)).map Upsert.key =
      (ms.flatMap (Measurement.timerUpsert r')).map Upsert.key := by
  rw [List.map_flatMap, List.map_flatMap]
  exact List.flatMap_congr fun m _ => by cases m <;> rfl

theorem shares_eq_nil_iff (r r' : Reading) (k : CString) (ms : List Measurement) :
    shares r k ms = [] ↔ shares r' k ms = [] := by
  rw [shares, shares, List.map_eq_nil_iff, List.map_eq_nil_iff]

/-- Two readings leave the same counters exactly when every key's counters add the same total. -/
theorem countersAfter_eq_iff (r r' : Reading) (ms : List Measurement) :
    (∀ cs, (cs.map StatsdCounter.key).Nodup → countersAfter r ms cs = countersAfter r' ms cs) ↔
      ∀ k, Num.total (shares r k ms) = Num.total (shares r' k ms) := by
  constructor
  · intro h k
    -- in an empty table there is the total afterwards, and nothing else
    have hsame := Upsert.entryAfter_none_congr (h [] List.nodup_nil) k
    rw [counterAfter_none, counterAfter_none] at hsame
    by_cases hnil : shares r k ms = []
    · rw [hnil, (shares_eq_nil_iff r r' k ms).mp hnil]
    · have hnil' : shares r' k ms ≠ [] := fun h' => hnil ((shares_eq_nil_iff r r' k ms).mpr h')
      rw [if_neg hnil, if_neg hnil'] at hsame
      exact (StatsdCounter.mk.inj (Option.some.inj hsame)).2
  · intro h cs hnd
    refine Upsert.applyAll_congr hnd (counterKeys_eq r r' ms) fun k => ?_
    cases hc : lookup StatsdCounter.key cs k with
    | some c =>
      obtain rfl := lookup_key hc
      rw [counterAfter_some, counterAfter_some, h]
    | none => simp only [counterAfter_none, shares_eq_nil_iff r r', h]

/-- Two readings leave the same timers exactly when they read every sample alike. -/
theorem timersAfter_eq_iff (r r' : Reading) (ms : List Measurement) :
    (∀ ts, (ts.map StatsdTimer.key).Nodup → timersAfter r ms ts = timersAfter r' ms ts) ↔
      ∀ k, readSamples r k ms = readSamples r' k ms := by
  constructor
  · intro h k
    have hsame := Upsert.entryAfter_none_congr (h [] List.nodup_nil) k
    rw [timerAfter_none, timerAfter_none] at hsame
    by_cases hnil : readSamples r k ms = []
    · by_cases hnil' : readSamples r' k ms = []
      · rw [hnil, hnil']
      · rw [if_pos hnil, if_neg hnil'] at hsame
        cases hsame
    · by_cases hnil' : readSamples r' k ms = []
      · rw [if_neg hnil, if_pos hnil'] at hsame
        cases hsame
      · rw [if_neg hnil, if_neg hnil'] at hsame
        exact (StatsdTimer.mk.inj (Option.some.inj hsame)).2.2
  · intro h ts hnd
    refine Upsert.applyAll_congr hnd (timerKeys_eq r r' ms) fun k => ?_
    cases hs : lookup StatsdTimer.key ts k with
    | some s =>
      obtain rfl := lookup_key hs
      rw [timerAfter_some, timerAfter_some, h]
    | none => rw [timerAfter_none, timerAfter_none, h]

/-- The samples are read alike exactly when each timer's value is. -/
theorem readSamples_eq_iff (ms : List Measurement) :
    (∀ k, readSamples jsonReading k ms = readSamples plainReading k ms) ↔
      ∀ key value, Measurement.timer key value ∈ ms → value.FitsInt := by
  simp only [readSamples, List.map_inj_left, Numeral.jsonReading_eq_iff]
  constructor
  · intro h key value hmem
    refine h (sanitizeKey key.text) value (List.mem_filterMap.mpr ⟨_, hmem, ?_⟩)
    exact if_pos rfl
  · intro h k value hmem
    obtain ⟨m, hm, htimed⟩ := List.mem_filterMap.mp hmem
    cases m with
    | counter key v rate => cases htimed
    | timer key v =>
      simp only [Measurement.timed] at htimed
      split at htimed
      · obtain rfl := Option.some.inj htimed
        exact h key v hm
      · cases htimed

/-! ## Buffers that hold the texts -/

theorem nul_notMem_commaSep {texts : List CString} (h : ∀ text ∈ texts, nul ∉ text) :
    nul ∉ commaSep texts := by
  cases texts with
  | nil => exact List.not_mem_nil
  | cons text texts =>
    intro hmem
    rcases List.mem_append.mp hmem with hmem | hmem
    · exact h text (List.mem_cons_self ..) hmem
    · obtain ⟨t, ht, hmem⟩ := List.mem_flatMap.mp hmem
      rcases List.mem_cons.mp hmem with hmem | hmem
      · exact absurd hmem (by decide)
      · exact h t (List.mem_cons_of_mem _ ht) hmem

theorem Numeral.nul_notMem_text (n : Numeral) : nul ∉ n.text :=
  n.notMem_text rfl (by decide) (by decide)

theorem nul_notMem_quoted {s : CString} (h : nul ∉ s) : nul ∉ quoted s := by
  have hquote : nul ≠ '"' := by decide
  simp [quoted, h, hquote]

theorem nul_notMem_compactObject {es : List (CString × CString)}
    (h : ∀ e ∈ es, nul ∉ e.1 ∧ nul ∉ e.2) : nul ∉ compactObject es := by
  have hopen : nul ≠ '{' := by decide
  have hclose : nul ≠ '}' := by decide
  have hcolon : nul ≠ ':' := by decide
  have hsep : nul ∉ commaSep (es.map compactEntry) := by
    refine nul_notMem_commaSep fun text htext => ?_
    obtain ⟨e, he, rfl⟩ := List.mem_map.mp htext
    obtain ⟨hkey, hvalue⟩ := h e he
    simp [compactEntry, nul_notMem_quoted hkey, hcolon, hvalue]
  simp [compactObject, hopen, hsep, hclose]

theorem Measurement.nul_notMem_jsonObject (m : Measurement) : nul ∉ m.jsonObject := by
  rw [m.jsonObject_eq]
  refine nul_notMem_compactObject fun e he => ?_
  obtain ⟨entry, hentry, rfl⟩ := List.mem_map.mp he
  refine ⟨(m.readsAs_entries entry hentry).key.nul_notMem, ?_⟩
  cases m with
  | counter key value rate =>
    rcases List.mem_append.mp hentry with hentry | hentry
    · rcases List.mem_pair.mp hentry with rfl | rfl
      · exact nul_notMem_quoted key.plainString.nul_notMem
      · exact value.nul_notMem_text
    · cases rate with
      | none => cases hentry
      | some r =>
        obtain rfl := List.mem_singleton.mp hentry
        exact r.nul_notMem_text
  | timer key value =>
    rcases List.mem_pair.mp hentry with rfl | rfl
    · exact nul_notMem_quoted key.plainString.nul_notMem
    · exact value.nul_notMem_text

theorem nul_notMem_jsonArray (ms : List Measurement) : nul ∉ jsonArray ms := by
  have hopen : nul ≠ '[' := by decide
  have hclose : nul ≠ ']' := by decide
  have hsep : nul ∉ commaSep (ms.map Measurement.jsonObject) := by
    refine nul_notMem_commaSep fun text htext => ?_
    obtain ⟨m, -, rfl⟩ := List.mem_map.mp htext
    exact m.nul_notMem_jsonObject
  simp [jsonArray, compactArray, hopen, hsep, hclose]

theorem Measurement.nul_notMem_packet (m : Measurement) : nul ∉ m.packet.text := by
  have hcolon : nul ≠ ':' := by decide
  have hpipe : nul ≠ '|' := by decide
  have hat : nul ≠ '@' := by decide
  have hc : nul ≠ 'c' := by decide
  have hms : nul ∉ ['m', 's'] := by decide
  cases m with
  | counter key value rate =>
    have hkey := key.plainString.nul_notMem
    have hvalue := value.nul_notMem_text
    cases rate with
    | none =>
      show nul ∉ key.text ++ ((':' :: (value.text ++ '|' :: ['c'])) ++ [])
      simp [hkey, hvalue, hcolon, hpipe, hc]
    | some r =>
      have hrate := r.nul_notMem_text
      show nul ∉ key.text ++ ((':' :: (value.text ++ '|' :: (['c'] ++ '|' :: '@' :: r.text))) ++ [])
      simp [hkey, hvalue, hrate, hcolon, hpipe, hat, hc]
  | timer key value =>
    have hkey := key.plainString.nul_notMem
    have hvalue := value.nul_notMem_text
    show nul ∉ key.text ++ ((':' :: (value.text ++ '|' :: ['m', 's'])) ++ [])
    simp [hkey, hvalue, hcolon, hpipe, hms]

theorem holds_append_nul {text : CString} (h : nul ∉ text) : Holds (text ++ [nul]) text :=
  ⟨[], by rw [List.drop_zero], h⟩

/-! ## The front ends agree -/

theorem keysUnique_of_metrics (counters : List (StatsdCounter Num))
    (timers : List (StatsdTimer Num))
    (hcounters : (counters.map StatsdCounter.key).Nodup)
    (htimers : (timers.map StatsdTimer.key).Nodup) :
    KeysUnique ⟨[], counters, [], timers⟩ := ⟨hcounters, List.nodup_nil, htimers⟩

/-- The effect is the same exactly when the two readings leave the same tables. -/
theorem sameEffect_iff_readings (ms : List Measurement) :
    SameEffect ms ↔
      (∀ cs, (cs.map StatsdCounter.key).Nodup →
        countersAfter jsonReading ms cs = countersAfter plainReading ms cs) ∧
      ∀ ts, (ts.map StatsdTimer.key).Nodup →
        timersAfter jsonReading ms ts = timersAfter plainReading ms ts := by
  constructor
  · intro h
    -- the texts as they stand, each with its NUL
    have hbuf := holds_append_nul (nul_notMem_jsonArray ms)
    have hbufs : List.Forall₂ (fun (b : Buffer × Int) (m : Measurement) => Holds b.1 m.packet.text)
        (ms.map fun m => (m.packet.text ++ [nul], 0)) ms := by
      rw [List.forall₂_map_left_iff, List.forall₂_same]
      exact fun m _ => holds_append_nul m.nul_notMem_packet
    have hsame : ∀ t, KeysUnique t →
        countersAfter jsonReading ms t.counters = countersAfter plainReading ms t.counters ∧
        timersAfter jsonReading ms t.timers = timersAfter plainReading ms t.timers := by
      intro t ht
      obtain ⟨t₁, t₂, hjson, hplain, hcounters, htimers⟩ := h t _ 0 _ ht hbuf hbufs
      obtain ⟨stats, hplain'⟩ := handlePlainAll_packets hbufs t
      obtain rfl := Except.ok.inj ((handleJson_jsonArray hbuf t 0).symm.trans hjson)
      obtain rfl := Except.ok.inj (hplain'.symm.trans hplain)
      exact ⟨hcounters, htimers⟩
    exact ⟨fun cs hcs => (hsame _ (keysUnique_of_metrics cs [] hcs List.nodup_nil)).1,
      fun ts hts => (hsame _ (keysUnique_of_metrics [] ts List.nodup_nil hts)).2⟩
  · intro ⟨hcounters, htimers⟩ t buf now bufs ht hbuf hbufs
    obtain ⟨stats, hplain⟩ := handlePlainAll_packets hbufs t
    exact ⟨_, _, handleJson_jsonArray hbuf t now, hplain, hcounters _ ht.counters,
      htimers _ ht.timers⟩

/-- The exact condition, key by key: no timer's value leaves the range of an `int`, and the totals
of each counter agree. -/
theorem sameEffect_iff_shares (ms : List Measurement) :
    SameEffect ms ↔
      (∀ key value, Measurement.timer key value ∈ ms → value.FitsInt) ∧
      ∀ k, Num.total (shares jsonReading k ms) = Num.total (shares plainReading k ms) := by
  rw [sameEffect_iff_readings, countersAfter_eq_iff, timersAfter_eq_iff, readSamples_eq_iff,
    and_comm]

/-- The numerals of a measurement: its value, and the rate where there is one. -/
def Measurement.numerals : Measurement → List Numeral
  | counter _ value rate => value :: rate.toList
  | timer _ value => [value]

/-- A counter whose numerals are read alike adds the same.  Without a rate one front end
takes zero for it and the other one, and both add the value. -/
theorem share_eq {value : Numeral} {rate : Option Numeral}
    (h : ∀ n ∈ value :: rate.toList, n.FitsInt) :
    jsonReading.share (value, rate) = plainReading.share (value, rate) := by
  have hvalue := value.jsonReading_eq_iff.mpr (h value (List.mem_cons_self ..))
  cases rate with
  | none =>
    -- the plain packet without a rate divides by one
    have hzero : ((0 : Num) == 0) = true := rfl
    have hone : ((1 : Num) == 0) = false := rfl
    show contribution (jsonReading.num value) 0 = contribution (plainReading.num value) 1
    rw [contribution, contribution, if_pos hzero, hone, if_neg Bool.false_ne_true,
      Num.mul_one_div_one, hvalue]
  | some r =>
    have hrate := r.jsonReading_eq_iff.mpr (h r (by simp))
    show contribution (jsonReading.num value) (jsonReading.num r) =
      contribution (plainReading.num value) (plainReading.num r)
    rw [hvalue, hrate]

/-- The key `k`. -/
def nameK : MetricName where
  text := ['k']
  ne_nil := by decide
  chars c hc := by
    rw [List.mem_singleton.mp hc]
    decide
  length_le := by decide

end StatsdC
