import Mathlib.Algebra.Order.Field.Power
import StatsdC.KeyCopies
import StatsdC.Numerals
import StatsdC.PacketFormat

/-!
# Numerals through the sanitizers

A `FloatNumeral` is a decimal numeral as `strtod` accepts it, with a sign, a point and an exponent
or without them: it denotes a number (`denotes_text`), which is rounded to a `double`
(`strtod_text`).
The value field of a packet is not read as it stands: the sanitizers first drop every plus sign and
the marker of an exponent.  Without the marker the digits of the exponent continue the digits before
it, and behind a minus sign they are not read at all.

`passedValue_iff` is the exact condition for the number that is passed on to be the one that the
numeral denotes.  It compares exact numbers, those that the two texts denote before either of them
is rounded, so that a numeral with a wrong value does not count as right because both are rounded
to the same double.  The numeral may have any digits, any number of zeros in front, and any
exponent.

The proof follows the text through the sanitizers.  For each form of a numeral it is computed what
is left of it and what that denotes (`strtod` reads the longest front that is a numeral); an
exponent with digits and without a minus sign multiplies by a power of ten and adds its digits, and
whether that is the same number is a question of arithmetic, which is settled case by case.  Zero is
the exception, since it stays zero.

The counter `a:1e3|c` is counted as 13.  The packet is any packet in which the numeral is the value
field of a segment that makes a call; a gauge is the exception, whose plus signs are kept at first.
-/

namespace StatsdC
open CString Decimal

/-! ## Numerals -/

/-- A sign, or none.  The sanitizers keep a minus and drop a plus. -/
inductive NumeralSign where
  | absent
  | plus
  | minus
  deriving DecidableEq

namespace NumeralSign

/-- The sign as it is written. -/
def text : NumeralSign → CString
  | absent => []
  | plus => ['+']
  | minus => ['-']

/-- A number behind the sign, negated by a minus. -/
def apply {α : Type} [Neg α] (s : NumeralSign) (x : α) : α := if s = minus then -x else x

/-- What the sanitizers leave of the sign: a plus is no character of a number for them. -/
def sanitized : NumeralSign → NumeralSign
  | minus => minus
  | _ => absent

theorem sanitizeValue_text (s : NumeralSign) : sanitizeValue s.text = s.sanitized.text := by
  cases s <;> rfl

/-- The sign as `strtod` sees it. -/
def isMinus (s : NumeralSign) : Bool := decide (s = minus)

theorem isMinus_sanitized (s : NumeralSign) : s.sanitized.isMinus = s.isMinus := by
  cases s <;> rfl

theorem ite_isMinus (s : NumeralSign) (q : Rat) : (if s.isMinus then -q else q) = s.apply q := by
  cases s <;> rfl

theorem apply_inj {s : NumeralSign} {p q : Rat} : s.apply p = s.apply q ↔ p = q := by
  unfold apply
  split
  · exact neg_inj
  · exact Iff.rfl

end NumeralSign

/-- An exponent: `e` or `E`, a sign, and digits, of which there is at least one. -/
structure NumeralExponent where
  marker : Char
  sign : NumeralSign
  digits : CString
  marker_eq : marker = 'e' ∨ marker = 'E'
  digits_ne_nil : digits ≠ []
  isDigit : ∀ c ∈ digits, c.isDigit = true

namespace NumeralExponent

/-- The exponent as it is written. -/
def text (e : NumeralExponent) : CString := e.marker :: (e.sign.text ++ e.digits)

/-- The power of ten. -/
def value (e : NumeralExponent) : Int := e.sign.apply (readNat e.digits : Int)

end NumeralExponent

/-- A decimal numeral in the syntax of `strtod`, with a digit before or behind its point. -/
structure FloatNumeral where
  sign : NumeralSign
  whole : CString
  /-- What follows the point, if there is one. -/
  fraction : Option CString
  exponent : Option NumeralExponent
  whole_isDigit : ∀ c ∈ whole, c.isDigit = true
  fraction_isDigit : ∀ ds ∈ fraction, ∀ c ∈ ds, c.isDigit = true
  digits_ne_nil : whole ++ fraction.getD [] ≠ []

namespace FloatNumeral
variable (n : FloatNumeral)

/-- The digits behind the point. -/
def places : CString := n.fraction.getD []

/-- The digits before the exponent, read as one number, as if there were no point. -/
def digits : Nat := readNat (n.whole ++ n.places)

/-- The exponent as it is written. -/
def exponentText : CString := (n.exponent.map NumeralExponent.text).getD []

/-- The numeral as it is written. -/
def text : CString := n.sign.text ++ (mantissaText n.whole n.fraction ++ n.exponentText)

/-- The power of ten in the exponent. -/
def exponentValue : Int := (n.exponent.map NumeralExponent.value).getD 0

/-- The value without the sign: the digits, scaled by the places and by the exponent. -/
def magnitude : Rat := n.digits * 10 ^ (n.exponentValue - n.places.length)

/-- **The number that the numeral denotes.** -/
def value : Rat := n.sign.apply n.magnitude

end FloatNumeral

/-! ## How a numeral is read -/

theorem noWordLetter_nil : NoWordLetter [] := nofun

theorem NumeralSign.noWordLetter (s : NumeralSign) : NoWordLetter s.text := by
  cases s
  · exact noWordLetter_nil
  · exact noWordLetter_nil.cons (by decide)
  · exact noWordLetter_nil.cons (by decide)

theorem noWordLetter_mantissaText {whole : CString} {fraction : Option CString}
    (hwhole : ∀ c ∈ whole, c.isDigit = true)
    (hfraction : ∀ ds ∈ fraction, ∀ c ∈ ds, c.isDigit = true) :
    NoWordLetter (mantissaText whole fraction) := by
  cases fraction with
  | none => exact noWordLetter_of_isDigit hwhole
  | some ds =>
    exact (noWordLetter_of_isDigit hwhole).append
      ((noWordLetter_of_isDigit (hfraction ds rfl)).cons (by decide))

/-- A numeral starts with a digit or with its point, behind its sign. -/
theorem exists_mantissaText_eq_cons {whole : CString} {fraction : Option CString}
    (hwhole : ∀ c ∈ whole, c.isDigit = true) (hne : whole ++ fraction.getD [] ≠ []) :
    ∃ c t, mantissaText whole fraction = c :: t ∧ (c.isDigit = true ∨ c = '.') := by
  cases whole with
  | nil =>
    cases fraction with
    | none => exact absurd rfl hne
    | some ds => exact ⟨'.', ds, rfl, .inr rfl⟩
  | cons c w =>
    cases fraction with
    | none => exact ⟨c, w, rfl, .inl (hwhole c (List.mem_cons_self ..))⟩
    | some ds => exact ⟨c, _, rfl, .inl (hwhole c (List.mem_cons_self ..))⟩

/-- A sign before a text that starts with neither white space nor a sign. -/
theorem scanLf_sign {s : NumeralSign} {c : Char} {t : CString} {l : Literal}
    (hc : c.isDigit = true ∨ c = '.') (h : strtodUnsigned (c :: t) = some l) :
    scanLf (s.text ++ c :: t) = some (s.isMinus, l) := by
  have hspace : isspace c = false := by
    rcases hc with hc | rfl
    · exact isspace_of_isDigit hc
    · decide
  have hsign : sign (c :: t) = (false, c :: t) := by
    rcases hc with hc | rfl
    · exact sign_of_isDigit hc t
    · rfl
  have hplus : isspace '+' = false := by decide
  have hminus : isspace '-' = false := by decide
  cases s with
  | absent => simp [scanLf, NumeralSign.text, NumeralSign.isMinus, hspace, hsign, h]
  | plus => simp [scanLf, NumeralSign.text, NumeralSign.isMinus, hplus, sign, h]
  | minus => simp [scanLf, NumeralSign.text, NumeralSign.isMinus, hminus, sign, h]

/-- **A sign, digits with a point or without, and what follows**: the digits are scaled by
the exponent that follows, if one does. -/
theorem scanLf_mantissaText (s : NumeralSign) {whole rest : CString} {fraction : Option CString}
    (hwhole : ∀ c ∈ whole, c.isDigit = true)
    (hfraction : ∀ ds ∈ fraction, ∀ c ∈ ds, c.isDigit = true)
    (hne : whole ++ fraction.getD [] ≠ []) (hends : EndsMantissa rest)
    (hword : NoWordLetter rest) :
    scanLf (s.text ++ (mantissaText whole fraction ++ rest)) =
      some (s.isMinus, .number (readNat (whole ++ fraction.getD []) *
        10 ^ (exponent 'e' rest - (fraction.getD []).length))) := by
  have hread := strtodUnsigned_of_mantissa
    ((noWordLetter_mantissaText hwhole hfraction).append hword)
    (mantissa_mantissaText hwhole hfraction hends) hne
  obtain ⟨c, t, heq, hc⟩ := exists_mantissaText_eq_cons hwhole hne
  rw [heq, List.cons_append] at hread ⊢
  exact scanLf_sign hc hread

/-- A text that is a sign and digits denotes a number, and `strtod` rounds it. -/
theorem denotes_of_scanLf {s : NumeralSign} {text : CString} {q : Rat}
    (h : scanLf text = some (s.isMinus, .number q)) :
    denotes text = some (s.apply q) ∧ strtod text = .ofSigned s.isMinus q := by
  rw [denotes, strtod, h]
  exact ⟨congrArg some (s.ite_isMinus q), rfl⟩

namespace NumeralExponent
variable (e : NumeralExponent)

theorem marker_isDigit : e.marker.isDigit = false ∧ e.marker ≠ '.' := by
  rcases e.marker_eq with h | h <;> rw [h] <;> decide

theorem endsMantissa_text : EndsMantissa e.text :=
  endsMantissa_cons e.marker_isDigit.1 e.marker_isDigit.2 _

theorem noWordLetter_text : NoWordLetter e.text := by
  refine (e.sign.noWordLetter.append (noWordLetter_of_isDigit e.isDigit)).cons ?_
  rcases e.marker_eq with h | h <;> rw [h] <;> decide

/-- The exponent is read, sign and digits, up to the end of the text. -/
theorem exponent_text : exponent 'e' e.text = e.value := by
  have hmarker : e.marker.toLower = 'e' := by
    rcases e.marker_eq with h | h <;> rw [h] <;> decide
  have hrun : e.digits.takeWhile Char.isDigit = e.digits :=
    List.takeWhile_eq_self_iff.mpr e.isDigit
  obtain ⟨d, ds, heq⟩ := List.exists_cons_of_ne_nil e.digits_ne_nil
  have hd : d.isDigit = true := e.isDigit d (by rw [heq]; exact List.mem_cons_self ..)
  have hsign : StatsdC.sign (e.sign.text ++ e.digits) = (decide (e.sign = .minus), e.digits) := by
    rw [heq]
    cases e.sign with
    | absent => exact sign_of_isDigit hd ds
    | plus => rfl
    | minus => rfl
  rw [text, exponent, if_pos hmarker, hsign]
  simp only [hrun, value, NumeralSign.apply, decide_eq_true_eq]

end NumeralExponent

namespace FloatNumeral
variable (n : FloatNumeral)

theorem endsMantissa_exponentText : EndsMantissa n.exponentText := by
  unfold exponentText
  cases n.exponent with
  | none => exact endsMantissa_nil
  | some e => exact e.endsMantissa_text

theorem noWordLetter_exponentText : NoWordLetter n.exponentText := by
  unfold exponentText
  cases n.exponent with
  | none => exact noWordLetter_nil
  | some e => exact e.noWordLetter_text

theorem exponent_exponentText : StatsdC.exponent 'e' n.exponentText = n.exponentValue := by
  unfold exponentText exponentValue
  cases n.exponent with
  | none => rfl
  | some e => exact e.exponent_text

theorem scanLf_text : scanLf n.text = some (n.sign.isMinus, .number n.magnitude) := by
  rw [text, scanLf_mantissaText n.sign n.whole_isDigit n.fraction_isDigit n.digits_ne_nil
    n.endsMantissa_exponentText n.noWordLetter_exponentText, exponent_exponentText]
  rfl

/-- **A numeral denotes its value**, whichever of its parts are missing. -/
theorem denotes_text : denotes n.text = some n.value := (denotes_of_scanLf n.scanLf_text).1

/-- **`strtod` rounds it to a `double`**, and keeps the sign of a zero. -/
theorem strtod_text : strtod n.text = .ofSigned n.sign.isMinus n.magnitude :=
  (denotes_of_scanLf n.scanLf_text).2

end FloatNumeral

/-! ## What the sanitizers leave -/

/-- Digits behind a numeral continue its fraction, or what is before the point if there is
none. -/
theorem mantissaText_append (whole : CString) (fraction : Option CString) (ds : CString) :
    mantissaText whole fraction ++ ds =
      mantissaText (if fraction = none then whole ++ ds else whole)
        (fraction.map (· ++ ds)) := by
  cases fraction with
  | none => rfl
  | some fs => simp [mantissaText]

namespace NumeralExponent
variable (e : NumeralExponent)

/-- The marker is dropped, and so is a plus sign. -/
theorem sanitizeValue_text : sanitizeValue e.text = e.sign.sanitized.text ++ e.digits := by
  have hmarker : sanitizeValue [e.marker] = [] := by
    rcases e.marker_eq with h | h <;> rw [h] <;> rfl
  rw [text, ← List.singleton_append, sanitizeValue_append, hmarker, List.nil_append,
    sanitizeValue_append, e.sign.sanitizeValue_text, sanitizeValue_of_isDigit e.isDigit]

/-- The digits that continue the numeral once the marker is gone: none behind a minus. -/
def spliced : CString := if e.sign = .minus then [] else e.digits

/-- What the numeral is followed by once the marker is gone. -/
def leftover : CString := if e.sign = .minus then '-' :: e.digits else []

theorem spliced_append_leftover : e.spliced ++ e.leftover = e.sign.sanitized.text ++ e.digits := by
  unfold spliced leftover
  cases e.sign with
  | absent => exact List.append_nil _
  | plus => exact List.append_nil _
  | minus => rfl

end NumeralExponent

namespace FloatNumeral
variable (n : FloatNumeral)

/-- The digits that continue the numeral. -/
def spliced : CString := (n.exponent.map NumeralExponent.spliced).getD []

/-- What follows the numeral. -/
def leftover : CString := (n.exponent.map NumeralExponent.leftover).getD []

/-- The number without its sign that is read instead of `magnitude`. -/
def sanitizedMagnitude : Rat :=
  readNat (n.whole ++ n.places ++ n.spliced) /
    10 ^ ((n.fraction.map (· ++ n.spliced)).getD []).length

theorem isDigit_of_mem_spliced {c : Char} (h : c ∈ n.spliced) : c.isDigit = true := by
  unfold spliced at h
  cases hexp : n.exponent with
  | none =>
    rw [hexp] at h
    cases h
  | some e =>
    rw [hexp, Option.map_some, Option.getD_some, NumeralExponent.spliced] at h
    split at h
    · cases h
    · exact e.isDigit c h

theorem sanitizeValue_text : sanitizeValue n.text =
    n.sign.sanitized.text ++ (mantissaText n.whole n.fraction ++ (n.spliced ++ n.leftover)) := by
  have hexp : sanitizeValue n.exponentText = n.spliced ++ n.leftover := by
    unfold exponentText spliced leftover
    cases n.exponent with
    | none => rfl
    | some e => exact e.sanitizeValue_text.trans e.spliced_append_leftover.symm
  rw [text, sanitizeValue_append, sanitizeValue_append, n.sign.sanitizeValue_text,
    sanitizeValue_mantissaText n.whole_isDigit n.fraction_isDigit, hexp]

/-- What follows the numeral does not continue it. -/
theorem leftover_spec : EndsMantissa n.leftover ∧ NoWordLetter n.leftover ∧
    StatsdC.exponent 'e' n.leftover = 0 := by
  have hnil : EndsMantissa [] ∧ NoWordLetter [] ∧ StatsdC.exponent 'e' [] = 0 :=
    ⟨endsMantissa_nil, noWordLetter_nil, rfl⟩
  unfold leftover
  cases n.exponent with
  | none => exact hnil
  | some e =>
    rw [Option.map_some, Option.getD_some, NumeralExponent.leftover]
    split
    · have hminus : '-'.toLower ≠ 'e' := by decide
      refine ⟨endsMantissa_cons (by decide) (by decide) _, ?_, ?_⟩
      · exact (noWordLetter_of_isDigit e.isDigit).cons (by decide)
      · rw [StatsdC.exponent, if_neg hminus]
    · exact hnil

/-- **What is left of a numeral** is a numeral, without an exponent, whose digits include those of
the exponent. -/
theorem scanLf_sanitizeValue_text : scanLf (sanitizeValue n.text) =
    some (n.sign.isMinus, .number n.sanitizedMagnitude) := by
  obtain ⟨hends, hword, hexp⟩ := n.leftover_spec
  have hwhole : ∀ c ∈ (if n.fraction = none then n.whole ++ n.spliced else n.whole),
      c.isDigit = true := by
    intro c hc
    split at hc
    · exact (List.mem_append.mp hc).elim (n.whole_isDigit c) n.isDigit_of_mem_spliced
    · exact n.whole_isDigit c hc
  have hfraction : ∀ ds ∈ n.fraction.map (· ++ n.spliced), ∀ c ∈ ds, c.isDigit = true := by
    intro ds hds c hc
    obtain ⟨fs, hfs, rfl⟩ := Option.mem_map.mp hds
    exact (List.mem_append.mp hc).elim (n.fraction_isDigit fs hfs c) n.isDigit_of_mem_spliced
  have hdigits : (if n.fraction = none then n.whole ++ n.spliced else n.whole) ++
      (n.fraction.map (· ++ n.spliced)).getD [] = n.whole ++ n.places ++ n.spliced := by
    unfold places
    cases n.fraction with
    | none => simp
    | some fs => simp
  have hne : n.whole ++ n.places ++ n.spliced ≠ [] :=
    List.append_ne_nil_of_left_ne_nil n.digits_ne_nil _
  rw [n.sanitizeValue_text, ← List.append_assoc (mantissaText _ _), mantissaText_append,
    scanLf_mantissaText _ hwhole hfraction (hdigits ▸ hne) hends hword, hexp, hdigits,
    NumeralSign.isMinus_sanitized, Int.zero_sub, zpow_neg, zpow_natCast, ← div_eq_mul_inv]
  rfl

end FloatNumeral

/-! ## When the number is the same -/

/-- Digits put behind others are never worth a power of ten. -/
theorem splice_ne_scale {m k e : Nat} (he : 0 < e) (hlt : e < 10 ^ k) :
    m * 10 ^ k + e ≠ m * 10 ^ e := by
  intro heq
  rcases Nat.eq_zero_or_pos m with rfl | hm
  · omega
  · rcases Nat.lt_or_ge k e with hke | hke
    · have hscale : 10 * (m * 10 ^ k) ≤ m * 10 ^ e :=
        calc 10 * (m * 10 ^ k) = m * 10 ^ (k + 1) := by rw [Nat.pow_succ]; ring
          _ ≤ m * 10 ^ e := Nat.mul_le_mul_left m (Nat.pow_le_pow_right (by decide) hke)
      have hle : 10 ^ k ≤ m * 10 ^ k := Nat.le_mul_of_pos_left _ hm
      omega
    · have hle : m * 10 ^ e ≤ m * 10 ^ k :=
        Nat.mul_le_mul_left m (Nat.pow_le_pow_right (by decide) hke)
      omega

theorem ten_le_pow {e : Nat} (he : 0 < e) : (10 : Rat) ≤ 10 ^ e :=
  le_self_pow₀ (by norm_num) (by omega)

/-- Behind a point they are worth less than one. -/
theorem splice_lt_scale {m k e : Nat} (hm : 0 < m) (he : 0 < e) (hlt : e < 10 ^ k) :
    (m + e / 10 ^ k : Rat) < m * 10 ^ e := by
  have hone : (1 : Rat) ≤ m := by exact_mod_cast hm
  have hshare : (e / 10 ^ k : Rat) < 1 := (div_lt_one (by positivity)).mpr (by exact_mod_cast hlt)
  have hscale : (m * 10 : Rat) ≤ m * 10 ^ e :=
    mul_le_mul_of_nonneg_left (ten_le_pow he) (by positivity)
  linarith

namespace FloatNumeral
variable (n : FloatNumeral)

/-- **No exponent, or one that changes nothing** when its marker is gone. -/
def ExponentHarmless : Prop :=
  ∀ e ∈ n.exponent,
    if e.sign = .minus then n.digits = 0 ∨ readNat e.digits = 0
    else readNat e.digits = 0 ∧ (n.fraction = none → n.digits = 0)

theorem magnitude_eq :
    n.magnitude = n.digits * 10 ^ n.exponentValue / 10 ^ n.places.length := by
  rw [magnitude, zpow_sub₀ (by norm_num), zpow_natCast, mul_div_assoc]

/-- Where no digits are spliced in, the digits before the exponent are read. -/
theorem sanitizedMagnitude_of_spliced_nil (h : n.spliced = []) :
    n.sanitizedMagnitude = n.digits / 10 ^ n.places.length := by
  have hmap : n.fraction.map (· ++ ([] : CString)) = n.fraction := by
    cases n.fraction <;> simp
  rw [sanitizedMagnitude, h, hmap, List.append_nil]
  rfl

/-- The number that is read where digits are spliced in, without a point or with one. -/
theorem sanitizedMagnitude_eq :
    n.sanitizedMagnitude = (n.digits * 10 ^ n.spliced.length + readNat n.spliced) /
      10 ^ ((n.fraction.map (· ++ n.spliced)).getD []).length := by
  rw [sanitizedMagnitude, readNat_append, digits, Nat.mul_comm]
  push_cast
  rfl

/-- The number of a numeral and the one that is read instead, by the kind of its
exponent. -/
theorem magnitude_cases :
    (n.exponent = none ∧ n.sanitizedMagnitude = n.magnitude) ∨
      (∃ e, n.exponent = some e ∧ e.sign = .minus ∧
        n.sanitizedMagnitude = n.magnitude * 10 ^ readNat e.digits) ∨
      (∃ e, n.exponent = some e ∧ e.sign ≠ .minus ∧ n.fraction = none ∧
        n.sanitizedMagnitude = (n.digits * 10 ^ e.digits.length + readNat e.digits : Nat) ∧
        n.magnitude = (n.digits * 10 ^ readNat e.digits : Nat)) ∨
      ∃ e, n.exponent = some e ∧ e.sign ≠ .minus ∧ n.fraction ≠ none ∧
        n.sanitizedMagnitude =
          (n.digits + readNat e.digits / 10 ^ e.digits.length) / 10 ^ n.places.length ∧
        n.magnitude = n.digits * 10 ^ readNat e.digits / 10 ^ n.places.length := by
  have hmagnitude := n.magnitude_eq
  have hsanitized := n.sanitizedMagnitude_eq
  cases hexp : n.exponent with
  | none =>
    have hspliced : n.spliced = [] := by rw [spliced, hexp]; rfl
    have hvalue : n.exponentValue = 0 := by rw [exponentValue, hexp]; rfl
    refine .inl ⟨rfl, ?_⟩
    rw [n.sanitizedMagnitude_of_spliced_nil hspliced, hmagnitude, hvalue, zpow_zero, mul_one]
  | some e =>
    have hvalue : n.exponentValue = e.value := by rw [exponentValue, hexp]; rfl
    have hspliced : n.spliced = e.spliced := by rw [spliced, hexp]; rfl
    rw [hvalue, NumeralExponent.value] at hmagnitude
    by_cases hminus : e.sign = .minus
    · refine .inr (.inl ⟨e, rfl, hminus, ?_⟩)
      rw [NumeralExponent.spliced, if_pos hminus] at hspliced
      rw [n.sanitizedMagnitude_of_spliced_nil hspliced, hmagnitude, NumeralSign.apply,
        if_pos hminus, zpow_neg, zpow_natCast]
      field_simp
    · rw [NumeralExponent.spliced, if_neg hminus] at hspliced
      rw [NumeralSign.apply, if_neg hminus, zpow_natCast] at hmagnitude
      rw [hspliced] at hsanitized
      refine .inr (.inr ?_)
      cases hfraction : n.fraction with
      | none =>
        have hplaces : n.places = [] := by rw [places, hfraction]; rfl
        refine .inl ⟨e, rfl, hminus, rfl, ?_, ?_⟩
        · rw [hsanitized, hfraction]
          simp
        · rw [hmagnitude, hplaces]
          simp
      | some fs =>
        have hplaces : n.places = fs := by rw [places, hfraction]; rfl
        refine .inr ⟨e, rfl, hminus, nofun, ?_, ?_⟩
        · rw [hsanitized, hfraction, hplaces, Option.map_some, Option.getD_some,
            List.length_append, pow_add]
          field_simp
        · rw [hmagnitude]

theorem magnitude_nonneg : 0 ≤ n.magnitude := mul_nonneg (Nat.cast_nonneg _) (by positivity)

theorem magnitude_eq_zero_iff : n.magnitude = 0 ↔ n.digits = 0 := by
  rw [magnitude, mul_eq_zero, Nat.cast_eq_zero]
  exact or_iff_left (zpow_ne_zero _ (by norm_num))

/-- What an exponent after `e` says of a numeral. -/
theorem exponentHarmless_iff {e : NumeralExponent} (hexp : n.exponent = some e) :
    n.ExponentHarmless ↔ if e.sign = .minus then n.digits = 0 ∨ readNat e.digits = 0
      else readNat e.digits = 0 ∧ (n.fraction = none → n.digits = 0) := by
  unfold ExponentHarmless
  rw [hexp]
  constructor
  · intro h
    exact h e rfl
  · rintro h _ ⟨⟩
    exact h

/-- **The number is the same** exactly if the exponent is harmless. -/
theorem sanitizedMagnitude_eq_iff :
    n.sanitizedMagnitude = n.magnitude ↔ n.ExponentHarmless := by
  rcases n.magnitude_cases with ⟨hexp, heq⟩ | ⟨e, hexp, hsign, heq⟩ |
    ⟨e, hexp, hsign, hfraction, hsan, hmag⟩ | ⟨e, hexp, hsign, hfraction, hsan, hmag⟩
  · refine iff_of_true heq ?_
    intro e he
    rw [hexp] at he
    cases he
  · -- a number and its multiple by a power of ten
    rw [n.exponentHarmless_iff hexp, if_pos hsign, heq, ← n.magnitude_eq_zero_iff]
    constructor
    · intro h
      rcases Nat.eq_zero_or_pos (readNat e.digits) with hzero | he
      · exact .inr hzero
      · have hscale : n.magnitude * 10 ≤ n.magnitude * 10 ^ readNat e.digits :=
          mul_le_mul_of_nonneg_left (ten_le_pow he) n.magnitude_nonneg
        exact .inl (le_antisymm (by linarith) n.magnitude_nonneg)
    · rintro (h | h)
      · rw [h, zero_mul]
      · rw [h, pow_zero, mul_one]
  · have hlt := readNat_lt e.isDigit
    have hpos : 0 < e.digits.length := List.length_pos_iff.mpr e.digits_ne_nil
    rw [n.exponentHarmless_iff hexp, if_neg hsign, hsan, hmag, Nat.cast_inj]
    constructor
    · intro h
      rcases Nat.eq_zero_or_pos (readNat e.digits) with hzero | he
      · refine ⟨hzero, fun _ => ?_⟩
        have hscale : n.digits * 10 ≤ n.digits * 10 ^ e.digits.length :=
          Nat.mul_le_mul_left _ (Nat.le_self_pow (by omega) 10)
        rw [hzero, pow_zero] at h
        omega
      · exact absurd h (splice_ne_scale he hlt)
    · intro ⟨hzero, hdigits⟩
      rw [hzero, hdigits hfraction]
      simp
  · have hlt := readNat_lt e.isDigit
    rw [n.exponentHarmless_iff hexp, if_neg hsign, hsan, hmag,
      div_left_inj' (by positivity)]
    constructor
    · intro h
      refine ⟨?_, fun hnone => absurd hnone hfraction⟩
      rcases Nat.eq_zero_or_pos (readNat e.digits) with hzero | he
      · exact hzero
      · rcases Nat.eq_zero_or_pos n.digits with hdigits | hdigits
        · rw [hdigits, Nat.cast_zero, zero_add, zero_mul, div_eq_zero_iff] at h
          exact_mod_cast h.resolve_right (by positivity)
        · exact absurd h (splice_lt_scale hdigits he hlt).ne
    · intro ⟨hzero, _⟩
      rw [hzero]
      simp

/-- **When the sanitized text denotes the same number.** -/
theorem denotes_sanitizeValue_text_iff :
    denotes (sanitizeValue n.text) = some n.value ↔ n.ExponentHarmless := by
  rw [(denotes_of_scanLf n.scanLf_sanitizeValue_text).1, ← n.sanitizedMagnitude_eq_iff,
    Option.some_inj]
  exact NumeralSign.apply_inj

theorem strtod_sanitizeValue_text (h : n.ExponentHarmless) :
    strtod (sanitizeValue n.text) = strtod n.text := by
  rw [(denotes_of_scanLf n.scanLf_sanitizeValue_text).2, n.strtod_text,
    n.sanitizedMagnitude_eq_iff.mpr h]

end FloatNumeral

/-! ## The value that is passed on -/

/-- The number that a call is made with. -/
def MetricCall.value {α : Type} : MetricCall α → α
  | .updateCounter _ value _ | .updateTimer _ value | .updateGaugePlusminus _ value _ => value

section Passed
variable {α : Type} [One α] {strtod : CString → α}

/-- The fields behind the type do not make a gauge. -/
theorem decodeFields_isGauge (i j : Nat) (d : Decoded) (fields : List CString) :
    (decodeFields i (j + 3) d fields).isGauge = d.isGauge := by
  induction fields generalizing j d with
  | nil => rfl
  | cons t fields ih =>
    rw [decodeFields, ih (j + 1)]
    cases j <;> rfl

/-- The variables after the fields of a segment that is no gauge: its value field is in
`charvalue`. -/
theorem decodeFields_counter {i : Nat} {charvalue : Charvalue} {value : CString}
    {fields : List CString} (h : fields.head? ≠ some ['g']) :
    (decodeFields i 1 ⟨charvalue, false, false, none⟩ (value :: fields)).charvalue =
        .block (sanitizeGaugevalue value) i ∧
      (decodeFields i 1 ⟨charvalue, false, false, none⟩ (value :: fields)).isGauge = false := by
  refine ⟨decodeFields_charvalue i 0 _ fields, ?_⟩
  cases fields with
  | nil => rfl
  | cons type fields =>
    have htype : type ≠ ['g'] := fun heq => h (congrArg some heq)
    refine (decodeFields_isGauge i 0 _ fields).trans ?_
    cases type with
    | nil => rfl
    | cons c type =>
      refine (congrArg Decoded.isGauge (setType_fresh _ (List.cons_ne_nil c type))).trans ?_
      exact decide_eq_false htype

/-- What a segment that is no gauge passes on. -/
theorem decodeSegment_value {i : Nat} {keyName : Option CString} {charvalue charvalue' : Charvalue}
    {seg value : CString} {fields : List CString} {x : α} {c : TracedCall α}
    (hfields : fieldsOf seg = value :: fields) (hkind : fields.head? ≠ some ['g'])
    (h : decodeSegment strtod i keyName charvalue seg = .ok (charvalue', x, c)) :
    c.call.value = strtod (sanitizeValue value) := by
  obtain ⟨hblock, hgauge⟩ := @decodeFields_counter i charvalue value fields hkind
  rw [decodeSegment, hfields] at h
  unfold dispatch at h
  simp only [hblock, Charvalue.read, hgauge, Bool.false_eq_true, if_false,
    sanitizeValue_sanitizeGaugevalue] at h
  split at h
  · obtain ⟨-, hok⟩ := Prod.mk.inj (Except.ok.inj h)
    rw [← (Prod.mk.inj hok).2]
    rfl
  · obtain ⟨-, hok⟩ := Prod.mk.inj (Except.ok.inj h)
    rw [← (Prod.mk.inj hok).2]
    rfl

/-- A call is made by the segment in its place. -/
theorem segmentsMade_getElem? {keyName : Option CString} {i k : Nat} {charvalue : Charvalue}
    {segs : List CString} {seg : CString} {c : TracedCall α} (hseg : segs[k]? = some seg)
    (hcall : (segmentsMade strtod keyName i charvalue segs).calls[k]? = some c) :
    ∃ i' before after x, decodeSegment strtod i' keyName before seg = .ok (after, x, c) := by
  induction segs generalizing i k charvalue with
  | nil => cases hseg
  | cons s segs ih =>
    rw [segmentsMade] at hcall
    cases hdec : decodeSegment strtod i keyName charvalue s with
    | error e =>
      rw [hdec] at hcall
      cases hcall
    | ok r =>
      obtain ⟨after, x, c'⟩ := r
      simp only [hdec, Made.prepend, List.singleton_append] at hcall
      cases k with
      | zero =>
        obtain rfl := Option.some.inj hseg
        obtain rfl := Option.some.inj hcall
        exact ⟨i, charvalue, after, x, hdec⟩
      | succ k => exact ih hseg hcall

/-- **What `process_stats_packet` passes on** for a segment that is no gauge: the number
read from its sanitized value field. -/
theorem packetMade_value {packet seg value : CString} {fields : List CString} {k : Nat}
    {c : TracedCall α} (hseg : (tokens ':' packet).tail[k]? = some seg)
    (hfields : fieldsOf seg = value :: fields) (hkind : fields.head? ≠ some ['g'])
    (hcall : (packetMade strtod packet).calls[k]? = some c) :
    c.call.value = strtod (sanitizeValue value) := by
  unfold packetMade at hcall
  split at hcall
  · cases hcall
  · rcases htokens : tokens ':' packet with _ | ⟨key, _ | ⟨s, segs⟩⟩
    · rw [htokens] at hseg
      cases hseg
    · rw [htokens] at hseg
      cases hseg
    · rw [htokens] at hseg hcall
      obtain ⟨i, before, after, x, hdec⟩ := segmentsMade_getElem? hseg hcall
      exact decodeSegment_value hfields hkind hdec

end Passed

/-- **Sanitizing keeps a number** exactly if it has no exponent, or a harmless one.  The value
that is passed on is what `strtod` makes of the sanitized text; that text denotes the number of
the numeral exactly under the condition, and then the value is the `double` that `strtod` makes
of the numeral itself. -/
theorem passedValue_iff {packet seg : CString} {fields : List CString} {n : FloatNumeral}
    {k : Nat} {c : TracedCall Num} (hseg : (tokens ':' packet).tail[k]? = some seg)
    (hfields : fieldsOf seg = n.text :: fields) (hkind : fields.head? ≠ some ['g'])
    (hcall : (packetMade strtod packet).calls[k]? = some c) :
    c.call.value = strtod (sanitizeValue n.text) ∧ denotes n.text = some n.value ∧
      (denotes (sanitizeValue n.text) = some n.value ↔ n.ExponentHarmless) ∧
      (n.ExponentHarmless → c.call.value = strtod n.text) := by
  have hvalue := packetMade_value hseg hfields hkind hcall
  exact ⟨hvalue, n.denotes_text, n.denotes_sanitizeValue_text_iff,
    fun h => hvalue.trans (n.strtod_sanitizeValue_text h)⟩

/-- The numeral `1.5e0`. -/
def zeroExponentNumeral : FloatNumeral where
  sign := .absent
  whole := ['1']
  fraction := some ['5']
  exponent := some ⟨'e', .absent, ['0'], .inl rfl, by decide, by simp⟩
  whole_isDigit := by simp
  fraction_isDigit := by simp
  digits_ne_nil := by simp

/-- The theorem for the timer `a:1.5e0|ms`: what is read is `1.50`. -/
theorem passedValue_zeroExponent :
    ∃ c, (packetMade strtod "a:1.5e0|ms".toList).calls[0]? = some c ∧
      c.call.value = strtod "1.5e0".toList := by
  have hharmless : zeroExponentNumeral.ExponentHarmless := by
    rintro e ⟨⟩
    exact ⟨rfl, nofun⟩
  refine ⟨⟨.updateTimer (some ['a']) (strtod "1.50".toList), 2, some 2⟩, rfl, ?_⟩
  exact (@passedValue_iff "a:1.5e0|ms".toList _ _ zeroExponentNumeral 0 _ rfl rfl (by decide)
    rfl).2.2.2 hharmless

/-- The numeral `1e3`. -/
def exponentNumeral : FloatNumeral where
  sign := .absent
  whole := ['1']
  fraction := none
  exponent := some ⟨'e', .absent, ['3'], .inl rfl, by decide, by simp⟩
  whole_isDigit := by simp
  fraction_isDigit := nofun
  digits_ne_nil := by simp

/-- **The counter `a:1e3|c`** is increased by 13 and not by 1000. -/
theorem exponent_spliced : exponentNumeral.text = "1e3".toList ∧ exponentNumeral.value = 1000 ∧
    ∃ calls, processStatsPacket strtod (queueBuffer "a:1e3|c".toList) = .ok calls ∧
      calls.map TracedCall.call = [.updateCounter (some ['a']) (.fin 13) 1] := by
  have hbuf := @queueBuffer_stringAt "a:1e3|c".toList (by decide) (by decide)
  have hread : strtod (sanitizeValue "1e3".toList) = .fin 13 := Numeral.strtod_printD (z := 13)
    (by norm_num)
  have hvalue : exponentNumeral.value = 1 * 10 ^ ((3 : Int) - 0) := rfl
  refine ⟨rfl, ?_, ?_⟩
  · rw [hvalue]
    norm_num
  · rw [← hread]
    exact processStatsPacket_decodes strtod ['a']
      [⟨⟨"1e3".toList, by decide, by decide, by decide⟩,
        ⟨['c'], by decide, by decide, by decide⟩, none⟩]
      (by decide) (by decide) (by decide) hbuf

end StatsdC
