import StatsdC.Strings
import StatsdC.Numbers

/-!
# Decimal numerals

The numerals `-?digits` and `-?digits.digits`, without leading zeros, as clients send them and as
the daemon itself writes them.  A `Numeral` has the number before its point as a natural number,
so that each has one text (`Numeral.text`); what it stands for is the exact `Numeral.value`, and
`Numeral.toNum` is the double next to it, where a minus is kept in front of zero.

Three ways lead from the text to a number, and each has a lemma here.

* The sanitizers keep all the characters of a numeral (`sanitizeValue_text`).
* `strtod` and `sscanf` with `%lf` read the double (`strtod_text`, `sscanfLf_text`).
* `sscanf` with `%d` reads a numeral without a point as an `int`: the value clamped to a `long`
  and then taken modulo `2 ^ 32` (`sscanfD_text`).

The last two agree on the integers that an `int` holds and on no other, and that is what the
comparison of the two front ends turns on.  An integer that was written with `%ld` is read back as
the double next to it (`strtod_printD_eq_ofRat`), which is the integer itself up to `2 ^ 53`
(`strtod_printD`).
-/

namespace StatsdC
open CString Decimal

/-! ## The sanitizers on digits -/

theorem sanitizeValue_append (s t : CString) :
    sanitizeValue (s ++ t) = sanitizeValue s ++ sanitizeValue t := List.filter_append ..

theorem sanitizeValue_of_isDigit {ds : CString} (h : ∀ c ∈ ds, c.isDigit = true) :
    sanitizeValue ds = ds := by
  rw [sanitizeValue, List.filter_eq_self]
  intro c hc
  have hrange := Char.isDigit_iff_toNat.mp (h c hc)
  have hlo : '0' ≤ c := hrange.1
  have hhi : c ≤ '9' := hrange.2
  simp [hlo, hhi]

theorem sanitizeValue_mantissaText {whole : CString} {fraction : Option CString}
    (hwhole : ∀ c ∈ whole, c.isDigit = true)
    (hfraction : ∀ ds ∈ fraction, ∀ c ∈ ds, c.isDigit = true) :
    sanitizeValue (mantissaText whole fraction) = mantissaText whole fraction := by
  cases fraction with
  | none => exact sanitizeValue_of_isDigit hwhole
  | some ds =>
    have hpoint : sanitizeValue ('.' :: ds) = '.' :: sanitizeValue ds := rfl
    rw [mantissaText, sanitizeValue_append, sanitizeValue_of_isDigit hwhole, hpoint,
      sanitizeValue_of_isDigit (hfraction ds rfl)]

/-! ## Numerals -/

/-- A numeral `-?digits` or `-?digits.digits`.  The digits before the point are those of a natural
number, so that there is no leading zero; those behind it are any, but at least one. -/
structure Numeral where
  neg : Bool
  whole : Nat
  fraction : Option CString
  fraction_digits : ∀ ds ∈ fraction, ds ≠ [] ∧ ∀ c ∈ ds, c.isDigit = true

namespace Numeral

/-- The numeral without its sign. -/
def unsigned (n : Numeral) : CString :=
  match n.fraction with
  | none => printNat n.whole
  | some ds => printNat n.whole ++ '.' :: ds

/-- The numeral as it stands in a packet, or between two commas of a JSON text. -/
def text (n : Numeral) : CString := if n.neg then '-' :: n.unsigned else n.unsigned

/-- The digits behind the point. -/
def places (n : Numeral) : CString := n.fraction.getD []

/-- The value without the sign, exact: all digits as one number, scaled by the places behind the
point. -/
def magnitude (n : Numeral) : Rat :=
  readNat (printNat n.whole ++ n.places) / 10 ^ n.places.length

/-- The value. -/
def value (n : Numeral) : Rat := if n.neg then -n.magnitude else n.magnitude

/-- The value of a numeral without a point.  Where there is a point this is the part in front of it.
-/
def intValue (n : Numeral) : Int := if n.neg then -n.whole else n.whole

/-- The numeral that `%ld` writes of an integer, which has no point. -/
def ofInt (z : Int) : Numeral := ⟨decide (z < 0), z.natAbs, none, by rintro ds ⟨⟩⟩

variable (n : Numeral)

theorem unsigned_eq_mantissaText : n.unsigned = mantissaText (printNat n.whole) n.fraction := by
  unfold unsigned
  cases n.fraction with
  | none => rfl
  | some ds => rfl

theorem unsigned_eq :
    n.unsigned = printNat n.whole ++ (n.fraction.map fun ds => '.' :: ds).getD [] := by
  unfold unsigned
  cases n.fraction with
  | none => rw [Option.map_none, Option.getD_none, List.append_nil]
  | some ds => rfl

theorem mem_unsigned {c : Char} (h : c ∈ n.unsigned) : c.isDigit = true ∨ c = '.' := by
  unfold unsigned at h
  cases hf : n.fraction with
  | none =>
    rw [hf] at h
    exact .inl (isDigit_of_mem_printNat h)
  | some ds =>
    rw [hf] at h
    rcases List.mem_append.mp h with h | h
    · exact .inl (isDigit_of_mem_printNat h)
    · rcases List.mem_cons.mp h with h | h
      · exact .inr h
      · exact .inl ((n.fraction_digits ds hf).2 c h)

theorem mem_text {c : Char} (h : c ∈ n.text) : c.isDigit = true ∨ c = '.' ∨ c = '-' := by
  unfold text at h
  split at h
  · rcases List.mem_cons.mp h with h | h
    · exact .inr (.inr h)
    · exact (n.mem_unsigned h).imp_right .inl
  · exact (n.mem_unsigned h).imp_right .inl

/-- A numeral starts with a digit, behind its sign. -/
theorem exists_unsigned_eq_cons : ∃ c t, n.unsigned = c :: t ∧ c.isDigit = true := by
  obtain ⟨c, ds, hprint, hc⟩ := printNat_eq_cons n.whole
  exact ⟨c, _, by rw [n.unsigned_eq, hprint, List.cons_append], hc⟩

theorem text_ne_nil : n.text ≠ [] := by
  obtain ⟨c, t, heq, -⟩ := n.exists_unsigned_eq_cons
  unfold text
  rw [heq]
  split <;> exact List.cons_ne_nil _ _

/-! ## The sanitizers -/

/-- The characters of a numeral are kept. -/
theorem sanitizeValue_text : sanitizeValue n.text = n.text := by
  have hkept : sanitizeValue n.unsigned = n.unsigned := by
    rw [unsigned_eq_mantissaText]
    exact sanitizeValue_mantissaText (fun c => isDigit_of_mem_printNat)
      fun ds hds => (n.fraction_digits ds hds).2
  have hminus : sanitizeValue ('-' :: n.unsigned) = '-' :: sanitizeValue n.unsigned := rfl
  unfold text
  split
  · rw [hminus, hkept]
  · exact hkept

/-! ## Reading -/

theorem mantissa_unsigned :
    mantissa Char.isDigit n.unsigned = ⟨printNat n.whole, n.places, []⟩ := by
  have hwhole : ∀ c ∈ printNat n.whole, c.isDigit = true := fun c => isDigit_of_mem_printNat
  have hread := mantissa_mantissaText hwhole (fun ds hds => (n.fraction_digits ds hds).2)
    endsMantissa_nil
  rw [List.append_nil, ← n.unsigned_eq_mantissaText] at hread
  exact hread

/-- The `double` that the numeral is read as, where `-0` is the zero with a minus sign. -/
def toNum (n : Numeral) : Num := .ofSigned n.neg n.magnitude

/-- **The numeral denotes its value**, with its sign apart, and `sscanf` with `%lf` does not give up
on it. -/
theorem scanLf_text : scanLf n.text = some (n.neg, .number n.magnitude) ∧
    scanfRejects (sign (n.text.dropWhile isspace)).2 = false := by
  obtain ⟨c, t, heq, hc⟩ := n.exists_unsigned_eq_cons
  have hread : strtodUnsigned n.unsigned = some (.number n.magnitude) :=
    strtodUnsigned_decimal (fun c hc => n.mem_unsigned hc) n.mantissa_unsigned
      (List.append_ne_nil_of_left_ne_nil (printNat_ne_nil _) _)
  have hrejects : scanfRejects n.unsigned = false :=
    (noWordLetter_decimal fun c hc => n.mem_unsigned hc).scanfRejects_eq
  rw [heq] at hread hrejects
  unfold text
  rw [heq]
  cases hneg : n.neg with
  | true =>
    have hspace : isspace '-' = false := by decide
    simp [scanLf, hspace, sign, hread, hrejects]
  | false => simp [scanLf, isspace_of_isDigit hc, sign_of_isDigit hc, hread, hrejects]

/-- **`%lf` reads the value** of a numeral, rounded, whether there is a point in it or not. -/
theorem sscanfLf_text : sscanfLf n.text = some n.toNum := by
  obtain ⟨hscan, hrejects⟩ := n.scanLf_text
  rw [sscanfLf, hrejects, hscan]
  rfl

/-- **`strtod` reads the value** of a numeral, the same as `sscanf`. -/
theorem strtod_text : strtod n.text = n.toNum := by
  rw [strtod, n.scanLf_text.1]
  rfl

/-- A minus is seen in the value, unless that is zero: then the `double` is the value rounded. -/
theorem toNum_eq_ofRat (h : n.neg = true → n.value ≠ 0) : n.toNum = .ofRat n.value := by
  unfold toNum Num.ofSigned
  unfold value at h ⊢
  split
  · rename_i hneg
    have hne := h hneg
    rw [if_pos hneg] at hne
    exact Num.neg_ofRat (neg_ne_zero.mp hne)
  · rfl

/-- What `%d` reads from a numeral without a point: the integer, forced into a `long` and then into
an `int`. -/
theorem sscanfD_text (h : n.fraction = none) :
    sscanfD n.text = some (intOfLong (clampLong n.intValue)) := by
  have hscan : scanInt n.text = some n.intValue := by
    obtain ⟨c, ds, heq, hc⟩ := printNat_eq_cons n.whole
    have hrun : (c :: ds).takeWhile Char.isDigit = c :: ds :=
      List.takeWhile_eq_self_iff.mpr fun _ hd => isDigit_of_mem_printNat (heq ▸ hd)
    have hread : readNat (c :: ds) = n.whole := by rw [← heq, readNat_printNat]
    have hunsigned : n.unsigned = c :: ds := by rw [unsigned, h, heq]
    unfold text intValue
    rw [hunsigned]
    split
    · have hspace : isspace '-' = false := by decide
      simp [scanInt, hspace, sign, hrun, hread]
    · simp [scanInt, isspace_of_isDigit hc, sign_of_isDigit hc, hrun, hread]
  rw [sscanfD, hscan, Option.map_some]

/-- Without a point the value is the integer. -/
theorem value_of_fraction_none (h : n.fraction = none) : n.value = n.intValue := by
  have hmagnitude : n.magnitude = n.whole := by
    simp [magnitude, places, h]
  unfold value intValue
  rw [hmagnitude]
  split
  · push_cast
    rfl
  · push_cast
    rfl

/-! ## Written integers -/

theorem text_ofInt (z : Int) : (ofInt z).text = printD z := by
  unfold text printD printInt
  by_cases h : z < 0
  · simp [ofInt, h, unsigned]
  · simp [ofInt, h, unsigned]

theorem printD_ne_nil (z : Int) : printD z ≠ [] := by
  rw [← text_ofInt]
  exact (ofInt z).text_ne_nil

/-- A written integer has digits and a sign, and nothing else. -/
theorem notMem_printD (z : Int) {c : Char} (hdigit : c.isDigit = false) (hpoint : c ≠ '.')
    (hminus : c ≠ '-') : c ∉ printD z := by
  intro h
  rw [← text_ofInt] at h
  rcases (ofInt z).mem_text h with h | h | h
  · rw [hdigit] at h
    cases h
  · exact hpoint h
  · exact hminus h

theorem value_ofInt (z : Int) : (ofInt z).value = z := by
  rw [value_of_fraction_none _ rfl]
  have hint : (ofInt z).intValue = z := by
    unfold intValue ofInt
    simp only [decide_eq_true_eq]
    split <;> omega
  rw [hint]

theorem toNum_ofInt (z : Int) : (ofInt z).toNum = .ofRat z := by
  have hvalue := value_ofInt z
  rw [toNum_eq_ofRat, hvalue]
  intro hneg hzero
  rw [hvalue] at hzero
  have hlt : z < 0 := of_decide_eq_true hneg
  have hz : z = 0 := by exact_mod_cast hzero
  omega

/-- **An integer is written and read back** as the `double` next to it. -/
theorem strtod_printD_eq_ofRat (z : Int) : strtod (printD z) = .ofRat z := by
  rw [← text_ofInt, strtod_text, toNum_ofInt]

/-- A `long` that a `double` holds is kept. -/
theorem strtod_printD {z : Int} (h : |z| ≤ 2 ^ 53) : strtod (printD z) = .fin z := by
  rw [strtod_printD_eq_ofRat, Num.ofRat_intCast h]

end Numeral
end StatsdC
