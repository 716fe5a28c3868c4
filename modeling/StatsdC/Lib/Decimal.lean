import Mathlib.Algebra.Order.Floor.Ring
import Mathlib.Data.List.TakeWhile
import Mathlib.Data.Rat.Floor
import Mathlib.Tactic.Linarith

/-!
# Decimal text

Numbers written in decimal and read back: integers, and fixed-point numbers with a given number of
places.  The digits themselves are `Nat.toDigits` and their value is `Nat.ofDigitChars`; what is
added here is where a run of digits ends, so that a numeral can be read from the middle of a text,
and how long a numeral is.

* Writing.  `printNat`, `printInt` and `printFixed` write a number.  Each has a lemma that bounds
  its length by the size of the number and conversely (`length_printInt_le_iff`,
  `length_printFixed_le_iff`), which is what a buffer of a fixed size needs.
* Reading.  `readNat` is the value of a run of digits, and `Mantissa` is a run of digits with a
  point and another run.  A numeral is read back whatever stands behind it, as long as that is no
  digit and no point (`mantissa_mantissaText`, `EndsMantissa`).
* Rounding.  `roundHalfEven` is the nearest integer, and halves go to the even one, as the C
  library rounds when it formats.  The lemmas say where it lies (`roundHalfEven_le`,
  `abs_roundHalfEven_sub_le`) and when it is a given integer (`roundHalfEven_eq_iff`).
-/

namespace Decimal

/-! ## Runs -/

section Runs
variable {α : Type} {p : α → Bool} {x : α} {xs rest : List α}

/-- A run of elements with `p`, up to the first element without. -/
theorem takeWhile_run (hxs : ∀ x ∈ xs, p x) (hrest : ∀ x ∈ rest.head?, p x = false) :
    (xs ++ rest).takeWhile p = xs := by
  rw [List.takeWhile_append_of_pos hxs]
  cases rest with
  | nil => rw [List.takeWhile_nil, List.append_nil]
  | cons x rest => rw [List.takeWhile_cons_of_neg (by simp [hrest x rfl]), List.append_nil]

theorem dropWhile_run (hxs : ∀ x ∈ xs, p x) (hrest : ∀ x ∈ rest.head?, p x = false) :
    (xs ++ rest).dropWhile p = rest := by
  rw [List.dropWhile_append_of_pos hxs]
  cases rest with
  | nil => rfl
  | cons x rest => rw [List.dropWhile_cons_of_neg (by simp [hrest x rfl])]

/-- An element without `p` behind a list adds to no run. -/
theorem takeWhile_concat (hx : p x = false) : (xs ++ [x]).takeWhile p = xs.takeWhile p := by
  rw [List.takeWhile_append]
  split
  · rename_i hlen
    rw [List.takeWhile_cons_of_neg (by simp [hx]), List.append_nil]
    exact ((List.takeWhile_sublist _).eq_of_length hlen).symm
  · rfl

theorem dropWhile_concat (hx : p x = false) :
    (xs ++ [x]).dropWhile p = xs.dropWhile p ++ [x] := by
  rw [List.dropWhile_append]
  split
  · rename_i hnil
    rw [List.isEmpty_iff.mp hnil, List.dropWhile_cons_of_neg (by simp [hx]), List.nil_append]
  · rfl

end Runs

/-! ## Writing -/

/-- A natural number. -/
def printNat (n : Nat) : List Char := Nat.toDigits 10 n

/-- An integer, with a sign if it is negative. -/
def printInt (z : Int) : List Char :=
  if z < 0 then '-' :: printNat z.natAbs else printNat z.natAbs

/-- The number `n / 10 ^ places` with `places` digits behind the point. -/
def printFixed (places n : Nat) : List Char :=
  printNat (n / 10 ^ places) ++ '.' :: (printNat (n % 10 ^ places)).leftpad places '0'

theorem isDigit_of_mem_printNat {n : Nat} {c : Char} (h : c ∈ printNat n) : c.isDigit = true :=
  Nat.isDigit_of_mem_toDigits (by decide) (by decide) h

theorem printNat_ne_nil (n : Nat) : printNat n ≠ [] := Nat.toDigits_ne_nil

theorem isDigit_of_mem_leftpad {places n : Nat} {c : Char}
    (h : c ∈ (printNat n).leftpad places '0') : c.isDigit = true := by
  rcases List.mem_append.mp h with h | h
  · rw [List.eq_of_mem_replicate h]
    rfl
  · exact isDigit_of_mem_printNat h

theorem length_leftpad_printNat {places n : Nat} (hpos : 0 < places) (hn : n < 10 ^ places) :
    ((printNat n).leftpad places '0').length = places := by
  have hle : (printNat n).length ≤ places :=
    (Nat.length_toDigits_le_iff (by decide) hpos).mpr hn
  rw [List.length_leftpad]
  omega

/-! ## How long a numeral is -/

theorem length_printNat_le_iff {n k : Nat} (hk : 0 < k) :
    (printNat n).length ≤ k ↔ n < 10 ^ k :=
  Nat.length_toDigits_le_iff (by decide) hk

/-- An integer with `k + 1` characters at most: one of them is for the sign. -/
theorem length_printInt_le_iff {z : Int} {k : Nat} (hk : 0 < k) :
    (printInt z).length ≤ k + 1 ↔ -(10 : Int) ^ k < z ∧ z < (10 : Int) ^ (k + 1) := by
  have hpow : (0 : Int) < 10 ^ k := by positivity
  have hpow' : (0 : Int) < 10 ^ (k + 1) := by positivity
  unfold printInt
  split
  · rw [List.length_cons, Nat.add_le_add_iff_right, length_printNat_le_iff hk]
    zify
    rw [abs_of_neg ‹_›]
    omega
  · rw [length_printNat_le_iff (Nat.succ_pos k)]
    zify
    rw [abs_of_nonneg (not_lt.mp ‹_›)]
    omega

theorem length_printFixed {places n : Nat} (hpos : 0 < places) :
    (printFixed places n).length = (printNat (n / 10 ^ places)).length + 1 + places := by
  have hlt : n % 10 ^ places < 10 ^ places := Nat.mod_lt _ (Nat.pow_pos (by decide))
  rw [printFixed, List.length_append, List.length_cons, length_leftpad_printNat hpos hlt]
  omega

/-- A fixed-point number with `k` digits at most before its point. -/
theorem length_printFixed_le_iff {places n k : Nat} (hpos : 0 < places) (hk : 0 < k) :
    (printFixed places n).length ≤ k + 1 + places ↔ n < 10 ^ (k + places) := by
  rw [length_printFixed hpos, Nat.add_le_add_iff_right, Nat.add_le_add_iff_right,
    length_printNat_le_iff hk, Nat.div_lt_iff_lt_mul (Nat.pow_pos (by decide)), pow_add]

/-! ## Reading -/

/-- The value of a run of digits. -/
def readNat (ds : List Char) : Nat := Nat.ofDigitChars 10 ds 0

@[simp]
theorem readNat_printNat (n : Nat) : readNat (printNat n) = n := Nat.ofDigitChars_ten_toDigits

theorem readNat_append (ds es : List Char) :
    readNat (ds ++ es) = 10 ^ es.length * readNat ds + readNat es := by
  rw [readNat, Nat.ofDigitChars_append, Nat.ofDigitChars_eq_ofDigitChars_zero]
  rfl

theorem readNat_lt {ds : List Char} (h : ∀ c ∈ ds, c.isDigit = true) :
    readNat ds < 10 ^ ds.length := by
  induction ds with
  | nil => decide
  | cons c ds ih =>
    have hc : c.toNat ≤ 57 := (Char.isDigit_iff_toNat.mp (h c (List.mem_cons_self ..))).2
    have hdigit : readNat [c] = c.toNat - 48 := by
      simp [readNat, Nat.ofDigitChars_cons]
    have hrest := ih fun d hd => h d (List.mem_cons_of_mem _ hd)
    have hle : 10 ^ ds.length * readNat [c] ≤ 10 ^ ds.length * 9 := by
      refine Nat.mul_le_mul_left _ ?_
      omega
    rw [← List.singleton_append, readNat_append, List.length_append, List.length_singleton,
      Nat.add_comm 1, Nat.pow_succ]
    omega

@[simp]
theorem readNat_leftpad (places n : Nat) :
    readNat ((printNat n).leftpad places '0') = n := by
  rw [List.leftpad, readNat, Nat.ofDigitChars_append, Nat.ofDigitChars_replicate_zero,
    Nat.mul_zero]
  exact readNat_printNat n

/-- The digits of a numeral before and behind its point, and the text that follows. -/
structure Mantissa where
  whole : List Char
  fraction : List Char
  rest : List Char

/-- The longest numeral, as far as its exponent, that a text starts with. -/
def mantissa (isDigit : Char → Bool) (s : List Char) : Mantissa :=
  match s.dropWhile isDigit with
  | '.' :: t => ⟨s.takeWhile isDigit, t.takeWhile isDigit, t.dropWhile isDigit⟩
  | t => ⟨s.takeWhile isDigit, [], t⟩

/-- The text of a numeral up to its exponent: digits, and a point with digits behind it
or none. -/
def mantissaText (whole : List Char) : Option (List Char) → List Char
  | none => whole
  | some fraction => whole ++ '.' :: fraction

/-- A text that does not continue a numeral before its exponent. -/
def EndsMantissa (rest : List Char) : Prop := ∀ c ∈ rest.head?, c.isDigit = false ∧ c ≠ '.'

theorem endsMantissa_nil : EndsMantissa [] := by
  rintro c ⟨⟩

theorem endsMantissa_cons {c : Char} (hdigit : c.isDigit = false) (hpoint : c ≠ '.')
    (rest : List Char) : EndsMantissa (c :: rest) := by
  rintro d ⟨⟩
  exact ⟨hdigit, hpoint⟩

/-- **The digits of a numeral are read back**, as far as its exponent. -/
theorem mantissa_mantissaText {whole rest : List Char} {fraction : Option (List Char)}
    (hwhole : ∀ c ∈ whole, c.isDigit = true)
    (hfraction : ∀ ds ∈ fraction, ∀ c ∈ ds, c.isDigit = true) (hrest : EndsMantissa rest) :
    mantissa Char.isDigit (mantissaText whole fraction ++ rest) =
      ⟨whole, fraction.getD [], rest⟩ := by
  have hdigit : ∀ c ∈ rest.head?, c.isDigit = false := fun c hc => (hrest c hc).1
  unfold mantissa
  cases fraction with
  | none =>
    simp only [mantissaText, takeWhile_run hwhole hdigit, dropWhile_run hwhole hdigit]
    cases rest with
    | nil => rfl
    | cons c rest =>
      have hpoint : c ≠ '.' := (hrest c rfl).2
      split
      · rename_i heq
        exact absurd (List.cons.inj heq).1 hpoint
      · rfl
  | some ds =>
    have hds : ∀ c ∈ ds, c.isDigit = true := hfraction ds rfl
    have hpoint : ∀ c ∈ ('.' :: (ds ++ rest)).head?, c.isDigit = false := by
      rintro c ⟨⟩
      rfl
    simp only [mantissaText, List.append_assoc, List.cons_append, takeWhile_run hwhole hpoint,
      dropWhile_run hwhole hpoint, takeWhile_run hds hdigit, dropWhile_run hds hdigit,
      Option.getD_some]

/-- The digits of a fixed-point number, read as one. -/
theorem readNat_printFixed {places n : Nat} (hpos : 0 < places) :
    readNat (printNat (n / 10 ^ places) ++ (printNat (n % 10 ^ places)).leftpad places '0') =
      n := by
  have hlt : n % 10 ^ places < 10 ^ places := Nat.mod_lt _ (Nat.pow_pos (by decide))
  rw [readNat_append, length_leftpad_printNat hpos hlt, readNat_printNat, readNat_leftpad,
    Nat.div_add_mod]

/-- A character behind a text that does not belong to a numeral is left behind it. -/
theorem mantissa_concat (isDigit : Char → Bool) {c : Char} (hdigit : isDigit c = false)
    (hpoint : c ≠ '.') (s : List Char) :
    mantissa isDigit (s ++ [c]) =
      { mantissa isDigit s with rest := (mantissa isDigit s).rest ++ [c] } := by
  unfold mantissa
  rw [takeWhile_concat hdigit, dropWhile_concat hdigit]
  generalize s.dropWhile isDigit = t
  rcases t with _ | ⟨d, t⟩
  · simp only [List.nil_append]
    split
    · rename_i heq
      exact absurd (List.cons.inj heq).1 hpoint
    · rfl
  · by_cases hd : d = '.'
    · subst hd
      simp only [List.cons_append, takeWhile_concat hdigit, dropWhile_concat hdigit]
    · simp only [List.cons_append]
      split
      · rename_i heq
        exact absurd (List.cons.inj heq).1 hd
      · split
        · rename_i heq
          exact absurd (List.cons.inj heq).1 hd
        · rfl

/-! ## Rounding -/

/-- The nearest integer, and between two the even one. -/
def roundHalfEven (x : Rat) : Int :=
  let f := ⌊x⌋
  if x - f < 1 / 2 then f
  else if 1 / 2 < x - f then f + 1
  else if f % 2 = 0 then f else f + 1

/-- Rounding takes one of the two neighbours, and the upper one only if there is
something to round. -/
theorem roundHalfEven_eq (x : Rat) :
    roundHalfEven x = ⌊x⌋ ∨ (roundHalfEven x = ⌊x⌋ + 1 ∧ (⌊x⌋ : Rat) < x) := by
  unfold roundHalfEven
  simp only
  split
  · exact .inl rfl
  · rename_i hlow
    have hlt : (⌊x⌋ : Rat) < x := by linarith
    split
    · exact .inr ⟨rfl, hlt⟩
    · split
      · exact .inl rfl
      · exact .inr ⟨rfl, hlt⟩

/-- Rounding does not pass an integer. -/
theorem roundHalfEven_le {x : Rat} {m : Int} (h : x ≤ m) : roundHalfEven x ≤ m := by
  rcases roundHalfEven_eq x with heq | ⟨heq, hlt⟩
  · rw [heq]
    exact_mod_cast (Int.floor_le x).trans h
  · rw [heq, Int.add_one_le_iff]
    exact_mod_cast hlt.trans_le h

theorem le_roundHalfEven {x : Rat} {m : Int} (h : (m : Rat) ≤ x) : m ≤ roundHalfEven x := by
  have hfloor : m ≤ ⌊x⌋ := Int.le_floor.mpr h
  rcases roundHalfEven_eq x with heq | ⟨heq, -⟩
  · rw [heq]
    exact hfloor
  · rw [heq]
    omega

theorem roundHalfEven_nonneg {x : Rat} (h : 0 ≤ x) : 0 ≤ roundHalfEven x :=
  le_roundHalfEven (by exact_mod_cast h)

/-- Below an even number by more than a half: that much is rounded up to it. -/
theorem roundHalfEven_lt_iff {x : Rat} {m : Int} (hm : m % 2 = 0) :
    roundHalfEven x < m ↔ x < m - 1 / 2 := by
  have hlow : ⌊x⌋ ≤ roundHalfEven x := by
    rcases roundHalfEven_eq x with heq | ⟨heq, -⟩ <;> omega
  have hhigh : roundHalfEven x ≤ ⌊x⌋ + 1 := by
    rcases roundHalfEven_eq x with heq | ⟨heq, -⟩ <;> omega
  rcases lt_trichotomy ⌊x⌋ (m - 1) with hlt | heq | hgt
  · have hx : x < (m - 1 : Int) := Int.floor_lt.mp hlt
    push_cast at hx
    exact iff_of_true (by omega) (by linarith)
  · -- the floor is odd: the middle is rounded up
    have hfloor : (⌊x⌋ : Rat) = m - 1 := by exact_mod_cast heq
    unfold roundHalfEven
    simp only
    split
    · exact iff_of_true (by omega) (by linarith)
    · split
      · exact iff_of_false (by omega) (by linarith)
      · rw [if_neg (by omega)]
        exact iff_of_false (by omega) (by linarith)
  · have hx : ((m - 1 + 1 : Int) : Rat) ≤ x := Int.le_floor.mp (by omega)
    push_cast at hx
    exact iff_of_false (by omega) (by linarith)

/-- Rounding moves a number by a half at most. -/
theorem abs_roundHalfEven_sub_le (x : Rat) : |(roundHalfEven x : Rat) - x| ≤ 1 / 2 := by
  have hfloor := Int.floor_le x
  have hlt := Int.lt_floor_add_one x
  unfold roundHalfEven
  simp only
  rw [abs_le]
  split
  · constructor <;> linarith
  · rename_i hlow
    split
    · push_cast
      constructor <;> linarith
    · -- in the middle both neighbours are a half away
      rename_i hhigh
      split
      · constructor <;> linarith
      · push_cast
        constructor <;> linarith

/-- No integer is nearer. -/
theorem abs_roundHalfEven_sub_le_int (x : Rat) (m : Int) :
    |(roundHalfEven x : Rat) - x| ≤ |(m : Rat) - x| := by
  by_cases heq : m = roundHalfEven x
  · rw [heq]
  · have hone : (1 : Rat) ≤ |(m : Rat) - roundHalfEven x| := by
      have hint : 1 ≤ |m - roundHalfEven x| := Int.one_le_abs (sub_ne_zero.mpr heq)
      exact_mod_cast hint
    have hhalf := abs_roundHalfEven_sub_le x
    have htriangle := abs_sub_le (m : Rat) x (roundHalfEven x)
    rw [abs_sub_comm x] at htriangle
    linarith

/-- **The integer a number is rounded to**: it is nearer than all others, or one of two and
even. -/
theorem roundHalfEven_eq_iff {x : Rat} {m : Int} :
    roundHalfEven x = m ↔ |(m : Rat) - x| < 1 / 2 ∨ (|(m : Rat) - x| = 1 / 2 ∧ m % 2 = 0) := by
  have hself : |(roundHalfEven x : Rat) - x| < 1 / 2 ∨
      (|(roundHalfEven x : Rat) - x| = 1 / 2 ∧ roundHalfEven x % 2 = 0) := by
    rcases (abs_roundHalfEven_sub_le x).lt_or_eq with hlt | heq
    · exact .inl hlt
    · refine .inr ⟨heq, ?_⟩
      have hfloor := Int.floor_le x
      have hlt := Int.lt_floor_add_one x
      unfold roundHalfEven at heq ⊢
      simp only at heq ⊢
      split_ifs at heq ⊢ with hlow hhigh heven
      · rw [abs_of_nonpos (by linarith)] at heq
        linarith
      · push_cast at heq
        rw [abs_of_nonneg (by linarith)] at heq
        linarith
      · exact heven
      · omega
  constructor
  · rintro rfl
    exact hself
  · intro hm
    by_contra hne
    -- two integers, both a half away at most, are next to each other
    have hone : (1 : Rat) ≤ |(m : Rat) - roundHalfEven x| := by
      have hint : 1 ≤ |m - roundHalfEven x| := Int.one_le_abs (sub_ne_zero.mpr (Ne.symm hne))
      exact_mod_cast hint
    have htriangle := abs_sub_le (m : Rat) x (roundHalfEven x)
    rw [abs_sub_comm x] at htriangle
    rcases hself with hlt | ⟨heq, heven⟩
    · rcases hm with hm | ⟨hm, -⟩ <;> linarith
    · rcases hm with hm | ⟨hm, hmeven⟩
      · linarith
      · have hle : |(m : Rat) - roundHalfEven x| ≤ 1 := by linarith
        have hint : |m - roundHalfEven x| ≤ 1 := by exact_mod_cast hle
        have hbounds := abs_le.mp hint
        omega

/-- What is at least as near to the result is rounded to it too. -/
theorem roundHalfEven_eq_of_abs_le {x y : Rat} {m : Int} (h : roundHalfEven x = m)
    (hy : |(m : Rat) - y| ≤ |(m : Rat) - x|) : roundHalfEven y = m := by
  rw [roundHalfEven_eq_iff] at h ⊢
  rcases h with hlt | ⟨heq, heven⟩
  · exact .inl (hy.trans_lt hlt)
  · rcases (hy.trans_eq heq).lt_or_eq with hlt | heq'
    · exact .inl hlt
    · exact .inr ⟨heq', heven⟩

theorem roundHalfEven_neg (x : Rat) : roundHalfEven (-x) = -roundHalfEven x := by
  have habs : |((-roundHalfEven x : Int) : Rat) - -x| = |(roundHalfEven x : Rat) - x| := by
    rw [Int.cast_neg, ← neg_sub', abs_neg]
  rw [roundHalfEven_eq_iff, habs]
  refine (roundHalfEven_eq_iff.mp rfl).imp_right (And.imp_right fun heven => ?_)
  omega

theorem roundHalfEven_intCast (z : Int) : roundHalfEven (z : Rat) = z := by
  rw [roundHalfEven_eq_iff, sub_self, abs_zero]
  exact .inl (by norm_num)

end Decimal
