import Mathlib.Algebra.Order.Field.Basic
import Mathlib.Tactic.NormNum
import Mathlib.Tactic.Positivity
import StatsdC.Lib.Binary64
import StatsdC.Lib.CString

/-!
# Numbers

The floating-point numbers of the daemon.  A number is an exact rational value, a zero with
a minus sign, one of the two infinities or a NaN.  What the daemon reads as a `double` is
rounded to the format once, where it is read (`Num.ofRat`); so is a `long double` where it is
converted (`Num.toDouble`).  Both may overflow to an infinity or vanish to a zero with the
sign of the value.  Arithmetic is exact on finite values: the `long double` of the tables has
eleven more bits than a `double`, and how often it is rounded in a sum is not modelled.

Below are the conversions of the C library between these numbers, integers and text, as far
as the daemon uses them.  A text denotes an exact number first (`scanLf`), and `strtod` rounds
it.  `sscanf` gives up on a few texts of which `strtod` takes the front.

Six decimals are enough to print a `double` once more as it was printed (`printLf_toSix`):
what is read back may be another value, but it has the same six decimals, and so reading and
printing have no further effect (`toSix_toSix`).
-/

namespace StatsdC
open Decimal

/-- A `double` or `long double`: a finite value, where a zero with a minus sign is kept apart,
or an infinity, or a NaN. -/
inductive Num where
  | fin (q : Rat)
  | negZero
  | inf (neg : Bool)
  | nan
  deriving DecidableEq

namespace Num

/-- A zero with a sign.  Zeros come out of sums, products and quotients with the sign that the
processor gives them. -/
def zero (neg : Bool) : Num := if neg then negZero else fin 0

/-- Negation, which changes the sign of a zero and of an infinity as well. -/
def neg : Num → Num
  | fin q => if q = 0 then negZero else fin (-q)
  | negZero => fin 0
  | inf s => inf !s
  | nan => nan

/-- Addition.  A sum that is zero has no sign unless both numbers are a negative zero;
infinities of opposite sign have no sum. -/
def add : Num → Num → Num
  | fin p, fin q => fin (p + q)
  | negZero, x | x, negZero => x
  | inf s, inf t => if s = t then inf s else nan
  | inf s, fin _ | fin _, inf s => inf s
  | nan, _ | _, nan => nan

/-- Multiplication.  A product that is zero has the sign of the factors, and a zero times an
infinity is no number. -/
def mul : Num → Num → Num
  | fin p, fin q => if p * q = 0 then zero (decide (p < 0) ^^ decide (q < 0)) else fin (p * q)
  | fin q, negZero | negZero, fin q => zero !decide (q < 0)
  | negZero, negZero => fin 0
  | inf s, inf t => inf (s ^^ t)
  | inf s, fin q | fin q, inf s => if q = 0 then nan else inf (s ^^ decide (q < 0))
  | inf _, negZero | negZero, inf _ => nan
  | nan, _ | _, nan => nan

/-- Division.  Something divided by a zero is an infinity with both signs, and a zero or an infinity
divided by itself is no number. -/
def div : Num → Num → Num
  | fin p, fin q =>
    if q = 0 then if p = 0 then nan else inf (decide (p < 0))
    else if p = 0 then zero (decide (q < 0)) else fin (p / q)
  | fin p, negZero => if p = 0 then nan else inf !decide (p < 0)
  | negZero, fin q => if q = 0 then nan else zero !decide (q < 0)
  | negZero, negZero => nan
  | fin q, inf s => zero (s ^^ decide (q < 0))
  | negZero, inf s => zero !s
  | inf s, fin q => inf (s ^^ decide (q < 0))
  | inf s, negZero => inf !s
  | inf _, inf _ => nan
  | nan, _ | _, nan => nan

/-- The order of finite values and infinities, in which the two zeros are equal.  A NaN compares
with nothing. -/
def lt : Num → Num → Bool
  | fin p, fin q => decide (p < q)
  | fin p, negZero => decide (p < 0)
  | negZero, fin q => decide (0 < q)
  | negZero, negZero => false
  | inf s, fin _ | inf s, negZero => s
  | fin _, inf t | negZero, inf t => !t
  | inf s, inf t => s && !t
  | nan, _ | _, nan => false

/-- The comparison `==` of C: the two zeros are equal, and a NaN is not equal to itself. -/
def beq : Num → Num → Bool
  | fin p, fin q => decide (p = q)
  | fin q, negZero | negZero, fin q => decide (q = 0)
  | negZero, negZero => true
  | inf s, inf t => s == t
  | inf _, fin _ | fin _, inf _ | inf _, negZero | negZero, inf _ => false
  | nan, _ | _, nan => false

instance : Zero Num := ⟨fin 0⟩
instance : One Num := ⟨fin 1⟩
instance : NatCast Num := ⟨fun n => fin n⟩
instance : IntCast Num := ⟨fun z => fin z⟩
instance : Add Num := ⟨add⟩
instance : Sub Num := ⟨fun x y => add x (neg y)⟩
instance : Mul Num := ⟨mul⟩
instance : Div Num := ⟨div⟩
instance : LT Num := ⟨fun x y => lt x y = true⟩
instance : DecidableLT Num := fun x y => inferInstanceAs (Decidable (lt x y = true))
instance : BEq Num := ⟨beq⟩

theorem beq_zero (x : Num) : (x == 0) = beq x (fin 0) := rfl

/-- A finite number, which may be a zero with a minus sign.  Only these are printed as decimals. -/
def IsFinite : Num → Prop
  | fin _ | negZero => True
  | inf _ | nan => False

/-! ### The range of a double -/

/-- `DBL_MAX`, the greatest finite value of type `double`. -/
def dblMax : Rat := (2 ^ 53 - 1) * 2 ^ 971

theorem dblMax_pos : 0 < dblMax := mul_pos (by norm_num) (by positivity)

theorem dblMax_lt_two_pow : dblMax < 2 ^ 1024 := by
  have hpos : (0 : Rat) < 2 ^ 971 := by positivity
  rw [dblMax, show (1024 : Nat) = 53 + 971 from rfl, pow_add]
  exact mul_lt_mul_of_pos_right (by norm_num) hpos

theorem two_pow_le_dblMax {k : Nat} (hk : k ≤ 1023) : (2 : Rat) ^ k ≤ dblMax :=
  calc (2 : Rat) ^ k ≤ 2 ^ (52 + 971) := pow_le_pow_right₀ (by norm_num) hk
    _ = 2 ^ 52 * 2 ^ 971 := pow_add 2 52 971
    _ ≤ dblMax := mul_le_mul_of_nonneg_right (by norm_num) (by positivity)

theorem isValue_dblMax : Binary64.IsValue dblMax :=
  ⟨2 ^ 53 - 1, 971, by norm_num, by decide, by
    rw [dblMax, ← zpow_natCast (2 : Rat) 971]
    simp only [Int.cast_sub, Int.cast_pow, Int.cast_ofNat, Int.cast_one, Nat.cast_ofNat]⟩

theorem exists_int_dblMax : ∃ m : Int, dblMax = m :=
  ⟨(2 ^ 53 - 1) * 2 ^ 971, by
    simp only [dblMax, Int.cast_mul, Int.cast_sub, Int.cast_pow, Int.cast_ofNat, Int.cast_one]⟩

/-- Rounding does not leave the range. -/
theorem abs_round_le {q : Rat} (h : |q| ≤ dblMax) : |Binary64.round q| ≤ dblMax := by
  rw [Binary64.abs_round]
  exact Binary64.round_le isValue_dblMax h

/-! ### Conversion to a double -/

/-- An exact value as a `double`: the nearest one, or an infinity if that is out of range.  Where it
is zero it keeps the sign of the value. -/
def ofRat (q : Rat) : Num :=
  let r := Binary64.round q
  if dblMax < |r| then inf (decide (q < 0)) else if r = 0 ∧ q < 0 then negZero else fin r

/-- A sign and a magnitude as a `double`.  This is how a text is converted, in which `-0` has a
sign. -/
def ofSigned (neg : Bool) (q : Rat) : Num := if neg then (ofRat q).neg else ofRat q

/-- The conversion of a `long double` to `double`.  What is no finite value, or is a zero with a
minus sign, is kept. -/
def toDouble : Num → Num
  | fin q => ofRat q
  | x => x

/-- A finite value of type `double`: of the format, and not beyond the greatest one. -/
def IsDouble : Num → Prop
  | fin q => Binary64.IsValue q ∧ |q| ≤ dblMax
  | negZero => True
  | inf _ | nan => False

theorem IsDouble.isFinite {x : Num} (h : x.IsDouble) : x.IsFinite := by
  cases x with
  | fin q => trivial
  | negZero => trivial
  | inf s => exact h
  | nan => exact h

theorem IsDouble.neg {x : Num} (h : x.IsDouble) : x.neg.IsDouble := by
  cases x with
  | fin q =>
    by_cases hq : q = 0
    · simp only [Num.neg, if_pos hq, IsDouble]
    · simp only [Num.neg, if_neg hq]
      exact ⟨h.1.neg, by rw [abs_neg]; exact h.2⟩
  | negZero => exact ⟨Binary64.isValue_zero, by rw [abs_zero]; exact dblMax_pos.le⟩
  | inf s => exact h.elim
  | nan => exact h.elim

/-- **What is converted is a double**, or an infinity, which is the case that the hypothesis
excludes. -/
theorem isDouble_ofRat {q : Rat} (h : (ofRat q).IsFinite) : (ofRat q).IsDouble := by
  unfold ofRat at h ⊢
  simp only at h ⊢
  split at h
  · exact h.elim
  · rename_i hle
    rw [if_neg hle]
    split
    · trivial
    · exact ⟨Binary64.isValue_round q, not_lt.mp hle⟩

theorem isDouble_toDouble {x : Num} (h : x.toDouble.IsFinite) : x.toDouble.IsDouble := by
  cases x with
  | fin q => exact isDouble_ofRat h
  | negZero => trivial
  | inf s => exact h.elim
  | nan => exact h.elim

/-- Values of the format are kept. -/
theorem ofRat_of_isValue {q : Rat} (hq : Binary64.IsValue q) (h : |q| ≤ dblMax) :
    ofRat q = fin q := by
  have hround := Binary64.round_of_isValue hq
  simp only [ofRat, hround, if_neg (not_lt.mpr h)]
  refine if_neg ?_
  rintro ⟨rfl, hlt⟩
  exact absurd hlt (lt_irrefl 0)

/-- An integer of at most 53 bits is kept. -/
theorem ofRat_intCast {z : Int} (h : |z| ≤ 2 ^ 53) : ofRat z = fin z := by
  have hle : |(z : Rat)| ≤ 2 ^ 53 := by exact_mod_cast h
  exact ofRat_of_isValue (Binary64.isValue_intCast h) (hle.trans (two_pow_le_dblMax (by decide)))

/-- A value in the range without a sign is rounded. -/
theorem ofRat_of_nonneg {q : Rat} (hq : 0 ≤ q) (h : q ≤ dblMax) :
    ofRat q = fin (Binary64.round q) := by
  have hle := abs_round_le (q := q) (by rwa [abs_of_nonneg hq])
  simp only [ofRat, if_neg (not_lt.mpr hle)]
  exact if_neg fun hneg => absurd hneg.2 (not_lt.mpr hq)

theorem isFinite_ofRat {q : Rat} (h : |q| ≤ dblMax) : (ofRat q).IsFinite := by
  simp only [ofRat, if_neg (not_lt.mpr (abs_round_le h))]
  split
  · trivial
  · trivial

/-- A value from `2 ^ 1024` on overflows, since all values of the format below the infinities are
less. -/
theorem ofRat_of_two_pow_le {q : Rat} (h : 2 ^ 1024 ≤ |q|) : ofRat q = inf (decide (q < 0)) := by
  have hround : (2 : Rat) ^ 1024 ≤ |Binary64.round q| := by
    rw [Binary64.abs_round]
    exact Binary64.le_round (Binary64.isValue_two_pow 1024) h
  simp only [ofRat, if_pos (dblMax_lt_two_pow.trans_le hround)]

theorem toDouble_of_isDouble {x : Num} (h : x.IsDouble) : x.toDouble = x := by
  cases x with
  | fin q => exact ofRat_of_isValue h.1 h.2
  | negZero => rfl
  | inf s => rfl
  | nan => rfl

/-- A value that is not zero is negated before or after. -/
theorem neg_ofRat {q : Rat} (hq : q ≠ 0) : (ofRat q).neg = ofRat (-q) := by
  have hsign : decide (-q < 0) = !decide (q < 0) := by
    rcases lt_or_gt_of_ne hq with hlt | hgt
    · simp [hlt, hlt.le]
    · simp [hgt, hgt.le]
  simp only [ofRat, Binary64.round_neg, abs_neg, neg_eq_zero, hsign]
  split
  · rfl
  · rcases lt_or_gt_of_ne hq with hlt | hgt
    · simp only [hlt, and_true, Left.neg_neg_iff, not_lt.mpr hlt.le, and_false, if_false]
      split
      · rename_i hzero
        rw [hzero, neg_zero]
        rfl
      · rename_i hzero
        exact if_neg hzero
    · simp only [not_lt.mpr hgt.le, and_false, if_false, Left.neg_neg_iff, hgt, and_true]
      rfl

theorem isDouble_ofSigned {neg : Bool} {q : Rat} (h : |q| ≤ dblMax) :
    (ofSigned neg q).IsDouble := by
  have hdouble := isDouble_ofRat (isFinite_ofRat h)
  cases neg with
  | false => exact hdouble
  | true => exact hdouble.neg

end Num

/-! ## Integers -/

/-- `isspace`. -/
def isspace (c : Char) : Bool := c == ' ' || (9 ≤ c.toNat && c.toNat ≤ 13)

/-- An optional sign: whether it is a minus, and the text behind it.  A plus sign is passed over. -/
def sign : CString → Bool × CString
  | '-' :: s => (true, s)
  | '+' :: s => (false, s)
  | s => (false, s)

/-- The integer that a text starts with behind its blanks, if it starts with one.  There is no limit
to its size here. -/
def scanInt (s : CString) : Option Int :=
  let (neg, s) := sign (s.dropWhile isspace)
  let ds := s.takeWhile Char.isDigit
  if ds = [] then none else some (if neg then -readNat ds else readNat ds)

/-- A `long`, as an integer with its bounds. -/
structure Long where
  value : Int
  le : -2 ^ 63 ≤ value
  lt : value < 2 ^ 63

/-- An integer as `strtol` returns it: at most `LONG_MAX` and at least `LONG_MIN`, whatever the text
says. -/
def clampLong (z : Int) : Int := max (-2 ^ 63) (min (2 ^ 63 - 1) z)

/-- The conversion of a `long` to `int`, which keeps the low 32 bits and reads them with a sign. -/
def intOfLong (z : Int) : Int := z.bmod (2 ^ 32)

/-- `atol`, zero for a text that does not start with an integer. -/
def atol (s : CString) : Int :=
  match scanInt s with
  | some z => clampLong z
  | none => 0

/-- `sscanf` with `%d`: the integer is read as a `long` and stored as an `int`.  A text without one
stores nothing. -/
def sscanfD (s : CString) : Option Int := (scanInt s).map fun z => intOfLong (clampLong z)

/-- `sprintf` with `%d` or `%ld`. -/
def printD (z : Int) : CString := printInt z

/-! ## Floating point -/

/-- `isxdigit`. -/
def isxdigit (c : Char) : Bool :=
  c.isDigit || ('a' ≤ c && c ≤ 'f') || ('A' ≤ c && c ≤ 'F')

/-- The value of hexadecimal digits. -/
def readHex (ds : CString) : Nat :=
  ds.foldl (fun n c => 16 * n + if c.isDigit then c.toNat - 48 else c.toNat % 32 + 9) 0

/-- A decimal exponent behind `marker`, zero if there is none.  A marker without a digit behind it
counts as zero too, as it is not read. -/
def exponent (marker : Char) : CString → Int
  | [] => 0
  | c :: s =>
    if c.toLower = marker then
      let (neg, s) := sign s
      let e := readNat (s.takeWhile Char.isDigit)
      if neg then -e else e
    else 0

/-- What a text denotes without its sign, before it is rounded.  A hexadecimal or decimal numeral of
any length denotes a number. -/
inductive Literal where
  | number (q : Rat)
  | inf
  | nan
  deriving DecidableEq

/-- The number with its sign, rounded to a `double` where it is one. -/
def Literal.toNum (neg : Bool) : Literal → Num
  | number q => .ofSigned neg q
  | inf => .inf neg
  | nan => .nan

/-- A numeral without a sign, at the front of a text: `inf`, `nan`, hexadecimal or decimal, in this
order, in capital or small letters. -/
def strtodUnsigned (s : CString) : Option Literal :=
  let word := (s.take 3).map Char.toLower
  if word = ['i', 'n', 'f'] then some .inf
  else if word = ['n', 'a', 'n'] then some .nan
  else
    let h := mantissa isxdigit (s.drop 2)
    if word.take 2 = ['0', 'x'] ∧ h.whole ++ h.fraction ≠ [] then
      some (.number (readHex (h.whole ++ h.fraction) *
        2 ^ (exponent 'p' h.rest - 4 * h.fraction.length)))
    else
      let d := mantissa Char.isDigit s
      if d.whole ++ d.fraction = [] then none
      else some (.number (readNat (d.whole ++ d.fraction) *
        10 ^ (exponent 'e' d.rest - d.fraction.length)))

/-- What a text starts with behind its blanks, if that is a number: whether its sign is a minus, and
what the rest denotes. -/
def scanLf (s : CString) : Option (Bool × Literal) :=
  let (neg, s) := sign (s.dropWhile isspace)
  (strtodUnsigned s).map fun l => (neg, l)

/-- The exact value that a text denotes, if it denotes a finite one.  It is not rounded, so that
texts can be compared by it. -/
def denotes (s : CString) : Option Rat :=
  match scanLf s with
  | some (neg, .number q) => some (if neg then -q else q)
  | some (_, .inf) | some (_, .nan) | none => none

/-- `strtod`, zero for a text that does not start with a number. -/
def strtod (s : CString) : Num :=
  match scanLf s with
  | some (neg, l) => l.toNum neg
  | none => 0

/-- A text without a sign on which `sscanf` gives up although `strtod` takes its front: one
that goes on behind `inf` as if it were `infinity`, and `0x` without a digit or a point. -/
def scanfRejects (s : CString) : Bool :=
  let word := (s.take 3).map Char.toLower
  (word == ['i', 'n', 'f'] && ((s.drop 3).take 1).map Char.toLower == ['i'] &&
      ((s.drop 3).take 5).map Char.toLower != ['i', 'n', 'i', 't', 'y']) ||
    (word.take 2 == ['0', 'x'] && !((s.drop 2).take 1).any fun c => isxdigit c || c == '.')

/-- `sscanf` with `%lf`: the number a text starts with, if it does and `sscanf` does not give up on
the text. -/
def sscanfLf (s : CString) : Option Num :=
  if scanfRejects (sign (s.dropWhile isspace)).2 then none
  else (scanLf s).map fun r => r.2.toNum r.1

/-- `sprintf` with `%f`, `%lf` or `%Lf`: six decimals, the last one rounded to even.  The sign of a
NaN is not modelled. -/
def printLf : Num → CString
  | .fin q =>
    let text := printFixed 6 (roundHalfEven (|q| * 10 ^ 6)).toNat
    if q < 0 then '-' :: text else text
  | .negZero => '-' :: printFixed 6 0
  | .inf neg => if neg then ['-', 'i', 'n', 'f'] else ['i', 'n', 'f']
  | .nan => ['n', 'a', 'n']

/-- A value to six decimals, halves to even, which is what is printed of it. -/
def sixDecimals (q : Rat) : Rat := roundHalfEven (q * 10 ^ 6) / 10 ^ 6

/-- What a printed number is read back as: its value to six decimals, rounded to a `double`, with
its sign where that is zero.  What is not finite is kept. -/
def Num.toSix : Num → Num
  | fin q => ofSigned (decide (q < 0)) (sixDecimals |q|)
  | x => x

/-! ## What is printed is read back -/

theorem toLower_of_isDigit {c : Char} (h : c.isDigit = true) : c.toLower = c := by
  have hdigit := Char.isDigit_iff_toNat.mp h
  have hupper : ¬ ('A' ≤ c ∧ c ≤ 'Z') := by
    rintro ⟨hA, -⟩
    have hA' : 'A'.toNat ≤ c.toNat := hA
    have h9 : '9'.toNat < 'A'.toNat := by decide
    omega
  unfold Char.toLower
  rw [dif_neg]
  rintro ⟨hA, hZ⟩
  exact hupper ⟨hA, hZ⟩

theorem sign_of_isDigit {c : Char} (h : c.isDigit = true) (s : CString) :
    sign (c :: s) = (false, c :: s) := by
  have hminus : c ≠ '-' := by rintro rfl; cases h
  have hplus : c ≠ '+' := by rintro rfl; cases h
  unfold sign
  split
  · rename_i heq
    exact absurd (List.cons.inj heq).1 hminus
  · rename_i heq
    exact absurd (List.cons.inj heq).1 hplus
  · rfl

theorem isspace_of_isDigit {c : Char} (h : c.isDigit = true) : isspace c = false := by
  have hdigit := Char.isDigit_iff_toNat.mp h
  have h0 : '0'.toNat = 48 := by decide
  have hspace : c ≠ ' ' := by rintro rfl; cases h
  simp [isspace, hspace]
  omega

/-- A printed natural number, and so a printed fixed-point number, starts with a
digit. -/
theorem printNat_eq_cons (n : Nat) : ∃ c ds, printNat n = c :: ds ∧ c.isDigit = true := by
  obtain ⟨c, ds, heq⟩ := List.exists_cons_of_ne_nil (printNat_ne_nil n)
  exact ⟨c, ds, heq, isDigit_of_mem_printNat (heq ▸ List.mem_cons_self ..)⟩

theorem scanInt_printD (z : Int) : scanInt (printD z) = some z := by
  obtain ⟨c, ds, heq, hc⟩ := printNat_eq_cons z.natAbs
  have hrun : (c :: ds).takeWhile Char.isDigit = c :: ds :=
    List.takeWhile_eq_self_iff.mpr fun _ hd => isDigit_of_mem_printNat (heq ▸ hd)
  have hread : readNat (c :: ds) = z.natAbs := by rw [← heq, readNat_printNat]
  unfold printD printInt
  split
  · have hspace : isspace '-' = false := by decide
    simp only [scanInt, heq, List.dropWhile_cons_of_neg, hspace, sign, hrun, hread,
      Bool.false_eq_true, not_false_eq_true, reduceCtorEq, if_false, if_true]
    congr 1
    omega
  · have hspace := isspace_of_isDigit hc
    simp only [scanInt, heq, List.dropWhile_cons_of_neg, hspace, sign_of_isDigit hc, hrun, hread,
      Bool.false_eq_true, not_false_eq_true, reduceCtorEq, if_false]
    congr 1
    omega

/-- A `long` is not clamped. -/
theorem clampLong_eq_self {z : Int} (hle : -2 ^ 63 ≤ z) (hlt : z < 2 ^ 63) : clampLong z = z := by
  unfold clampLong
  omega

/-- A `long` is read back. -/
theorem atol_printD (z : Long) : atol (printD z.value) = z.value := by
  rw [atol, scanInt_printD]
  exact clampLong_eq_self z.le z.lt

/-- An `int` is read back. -/
theorem sscanfD_printD {z : Int} (hlo : -2 ^ 31 ≤ z) (hhi : z < 2 ^ 31) :
    sscanfD (printD z) = some z := by
  rw [sscanfD, scanInt_printD, Option.map_some]
  congr 1
  have hclamp : clampLong z = z := clampLong_eq_self (by omega) (by omega)
  rw [hclamp, intOfLong, Int.bmod_eq_of_le (by omega) (by omega)]

/-- The text of a fixed-point number: no `inf`, no `nan` and no `0x`. -/
theorem printFixed_head (places n : Nat) :
    ∃ c d t, printFixed places n = c :: d :: t ∧ c.isDigit = true ∧ d.toLower ≠ 'x' := by
  obtain ⟨c, ds, heq, hc⟩ := printNat_eq_cons (n / 10 ^ places)
  cases ds with
  | nil => exact ⟨c, '.', _, by rw [printFixed, heq]; rfl, hc, by decide⟩
  | cons d ds =>
    have hd : d.isDigit = true := isDigit_of_mem_printNat (n := n / 10 ^ places) (by simp [heq])
    refine ⟨c, d, _, by rw [printFixed, heq]; rfl, hc, ?_⟩
    rw [toLower_of_isDigit hd]
    rintro rfl
    cases hd

/-- The letters without which a text is no `inf`, no `nan` and no `0x`, so that it is read as a
decimal numeral or not at all. -/
def NoWordLetter (s : CString) : Prop :=
  ∀ c ∈ s, c.toLower ≠ 'i' ∧ c.toLower ≠ 'n' ∧ c.toLower ≠ 'x'

theorem noWordLetter_of_isDigit {s : CString} (hs : ∀ c ∈ s, c.isDigit = true) :
    NoWordLetter s := by
  intro c hc
  rw [toLower_of_isDigit (hs c hc)]
  have hdigit := hs c hc
  refine ⟨?_, ?_, ?_⟩ <;> (rintro rfl; cases hdigit)

theorem NoWordLetter.append {s t : CString} (hs : NoWordLetter s) (ht : NoWordLetter t) :
    NoWordLetter (s ++ t) := by
  intro c hc
  rcases List.mem_append.mp hc with hc | hc
  · exact hs c hc
  · exact ht c hc

theorem NoWordLetter.cons {c : Char} {s : CString}
    (hc : c.toLower ≠ 'i' ∧ c.toLower ≠ 'n' ∧ c.toLower ≠ 'x') (hs : NoWordLetter s) :
    NoWordLetter (c :: s) := by
  intro d hd
  rcases List.mem_cons.mp hd with rfl | hd
  · exact hc
  · exact hs d hd

/-- **A decimal numeral**: its digits, scaled by its exponent. -/
theorem strtodUnsigned_of_mantissa {s whole fraction rest : CString} (hs : NoWordLetter s)
    (hmantissa : mantissa Char.isDigit s = ⟨whole, fraction, rest⟩)
    (hne : whole ++ fraction ≠ []) :
    strtodUnsigned s = some (.number (readNat (whole ++ fraction) *
      10 ^ (exponent 'e' rest - fraction.length))) := by
  have hlower : ∀ c ∈ (s.take 3).map Char.toLower, c ≠ 'i' ∧ c ≠ 'n' ∧ c ≠ 'x' := by
    intro c hc
    obtain ⟨d, hd, rfl⟩ := List.mem_map.mp hc
    exact hs d (List.mem_of_mem_take hd)
  have hinf : (s.take 3).map Char.toLower ≠ ['i', 'n', 'f'] := fun h =>
    (hlower 'i' (by rw [h]; simp)).1 rfl
  have hnan : (s.take 3).map Char.toLower ≠ ['n', 'a', 'n'] := fun h =>
    (hlower 'n' (by rw [h]; simp)).2.1 rfl
  have hhex : ((s.take 3).map Char.toLower).take 2 ≠ ['0', 'x'] := fun h =>
    (hlower 'x' (List.mem_of_mem_take (by rw [h]; simp))).2.2 rfl
  unfold strtodUnsigned
  simp only [hmantissa, if_neg hinf, if_neg hnan, hhex, false_and, if_false, if_neg hne]

theorem noWordLetter_decimal {s : CString} (hs : ∀ c ∈ s, c.isDigit = true ∨ c = '.') :
    NoWordLetter s := by
  intro c hc
  rcases hs c hc with hdigit | rfl
  · exact noWordLetter_of_isDigit (s := [c]) (by simp [hdigit]) c (List.mem_singleton.mpr rfl)
  · decide

/-- A decimal numeral without an exponent. -/
theorem strtodUnsigned_decimal {s whole fraction : CString}
    (hs : ∀ c ∈ s, c.isDigit = true ∨ c = '.')
    (hmantissa : mantissa Char.isDigit s = ⟨whole, fraction, []⟩) (hne : whole ++ fraction ≠ []) :
    strtodUnsigned s = some (.number (readNat (whole ++ fraction) / 10 ^ fraction.length)) := by
  rw [strtodUnsigned_of_mantissa (noWordLetter_decimal hs) hmantissa hne, exponent, Int.zero_sub,
    zpow_neg, zpow_natCast, div_eq_mul_inv]

theorem strtodUnsigned_printFixed (n : Nat) :
    strtodUnsigned (printFixed 6 n) = some (.number (n / 10 ^ 6)) := by
  have hwhole : ∀ c ∈ printNat (n / 10 ^ 6), c.isDigit = true :=
    fun c => isDigit_of_mem_printNat
  have hfraction : ∀ ds ∈ some ((printNat (n % 10 ^ 6)).leftpad 6 '0'), ∀ c ∈ ds,
      c.isDigit = true := by
    rintro ds ⟨⟩ c hc
    exact isDigit_of_mem_leftpad hc
  have hmantissa := mantissa_mantissaText hwhole hfraction endsMantissa_nil
  rw [List.append_nil, Option.getD_some] at hmantissa
  have hlength : ((printNat (n % 10 ^ 6)).leftpad 6 '0').length = 6 :=
    length_leftpad_printNat (by decide) (Nat.mod_lt _ (by decide))
  have hchars : ∀ c ∈ printFixed 6 n, c.isDigit = true ∨ c = '.' := by
    intro c hc
    rcases List.mem_append.mp hc with hc | hc
    · exact .inl (isDigit_of_mem_printNat hc)
    · rcases List.mem_cons.mp hc with hc | hc
      · exact .inr hc
      · exact .inl (isDigit_of_mem_leftpad hc)
  rw [strtodUnsigned_decimal hchars hmantissa (by simp [printNat_ne_nil]),
    readNat_printFixed (by decide), hlength]

/-- `sscanf` takes a text without those letters as `strtod` does. -/
theorem NoWordLetter.scanfRejects_eq {s : CString} (hs : NoWordLetter s) :
    scanfRejects s = false := by
  have hlower : ∀ c ∈ (s.take 3).map Char.toLower, c ≠ 'i' ∧ c ≠ 'x' := by
    intro c hc
    obtain ⟨d, hd, rfl⟩ := List.mem_map.mp hc
    exact ⟨(hs d (List.mem_of_mem_take hd)).1, (hs d (List.mem_of_mem_take hd)).2.2⟩
  have hinf : (s.take 3).map Char.toLower ≠ ['i', 'n', 'f'] := fun h =>
    (hlower 'i' (by rw [h]; simp)).1 rfl
  have hhex : ((s.take 3).map Char.toLower).take 2 ≠ ['0', 'x'] := fun h =>
    (hlower 'x' (List.mem_of_mem_take (by rw [h]; simp))).2 rfl
  simp only [scanfRejects, beq_eq_false_iff_ne.mpr hinf, beq_eq_false_iff_ne.mpr hhex,
    Bool.false_and, Bool.or_self]

/-- The fixed-point numbers are without those letters. -/
theorem noWordLetter_printFixed (places n : Nat) : NoWordLetter (printFixed places n) :=
  (noWordLetter_of_isDigit fun _ => isDigit_of_mem_printNat).append
    ((noWordLetter_of_isDigit fun _ => isDigit_of_mem_leftpad).cons (by decide))

theorem natCast_toNat_roundHalfEven {q : Rat} (h : 0 ≤ q) :
    ((roundHalfEven (q * 10 ^ 6)).toNat : Rat) = roundHalfEven (q * 10 ^ 6) := by
  have hnonneg : 0 ≤ roundHalfEven (q * 10 ^ 6) := roundHalfEven_nonneg (by positivity)
  exact_mod_cast Int.toNat_of_nonneg hnonneg

theorem sixDecimals_nonneg {q : Rat} (h : 0 ≤ q) : 0 ≤ sixDecimals q := by
  have hnonneg : 0 ≤ roundHalfEven (q * 10 ^ 6) := roundHalfEven_nonneg (by positivity)
  unfold sixDecimals
  positivity

/-- A fixed-point number behind a minus or without is read as a sign and a magnitude, which is
rounded once. -/
theorem sscanfLf_printFixed (neg : Bool) (n : Nat) :
    sscanfLf (if neg then '-' :: printFixed 6 n else printFixed 6 n) =
      some (.ofSigned neg (n / 10 ^ 6)) := by
  obtain ⟨c, d, t, htext, hc, -⟩ := printFixed_head 6 n
  have hread := strtodUnsigned_printFixed n
  have hrejects := (noWordLetter_printFixed 6 n).scanfRejects_eq
  rw [htext] at hread hrejects ⊢
  cases neg with
  | true =>
    have hspace : isspace '-' = false := by decide
    simp [sscanfLf, scanLf, hspace, sign, hread, hrejects, Literal.toNum]
  | false =>
    simp [sscanfLf, scanLf, isspace_of_isDigit hc, sign_of_isDigit hc, hread, hrejects,
      Literal.toNum]

/-- **A printed number is read back to six decimals**, and rounded to a `double` then. -/
theorem sscanfLf_printLf {x : Num} (h : x.IsFinite) : sscanfLf (printLf x) = some x.toSix := by
  cases x with
  | fin q =>
    have hread := sscanfLf_printFixed (decide (q < 0)) (roundHalfEven (|q| * 10 ^ 6)).toNat
    rw [natCast_toNat_roundHalfEven (abs_nonneg q)] at hread
    simpa only [decide_eq_true_eq, printLf, Num.toSix, sixDecimals] using hread
  | negZero =>
    have hread := sscanfLf_printFixed true 0
    have hzero : Num.ofSigned true ((0 : Nat) / 10 ^ 6) = .negZero := by
      rw [Nat.cast_zero, zero_div, Num.ofSigned, if_pos rfl,
        Num.ofRat_of_isValue Binary64.isValue_zero (by rw [abs_zero]; exact Num.dblMax_pos.le)]
      rfl
    rwa [hzero] at hread
  | inf s => exact h.elim
  | nan => exact h.elim

/-- What `sscanf` takes, `strtod` reads. -/
theorem strtod_of_sscanfLf {s : CString} {x : Num} (h : sscanfLf s = some x) : strtod s = x := by
  unfold sscanfLf at h
  split at h
  · cases h
  · obtain ⟨r, hscan, rfl⟩ := Option.map_eq_some_iff.mp h
    rw [strtod, hscan]

/-- So `strtod` reads a printed number, and what stands for one that is not finite, `inf` and `nan`
being words that it knows. -/
theorem strtod_printLf (x : Num) : strtod (printLf x) = x.toSix := by
  cases x with
  | fin q => exact strtod_of_sscanfLf (sscanfLf_printLf (x := .fin q) trivial)
  | negZero => exact strtod_of_sscanfLf (sscanfLf_printLf (x := .negZero) trivial)
  | inf neg => cases neg <;> rfl
  | nan => rfl

/-- Printing does not leave the range of a `double`. -/
theorem sixDecimals_le {q : Rat} (h : q ≤ Num.dblMax) : sixDecimals q ≤ Num.dblMax := by
  obtain ⟨m, hm⟩ := Num.exists_int_dblMax
  have hle : roundHalfEven (q * 10 ^ 6) ≤ m * 10 ^ 6 := by
    refine roundHalfEven_le ?_
    push_cast
    exact mul_le_mul_of_nonneg_right (hm ▸ h) (by positivity)
  rw [sixDecimals, div_le_iff₀ (by positivity), hm]
  exact_mod_cast hle

namespace Num

/-- What is read back is a `double`, since six decimals of a value in the range do not leave it. -/
theorem isDouble_toSix {x : Num} (h : x.IsDouble) : x.toSix.IsDouble := by
  cases x with
  | fin q =>
    refine isDouble_ofSigned ?_
    rw [abs_of_nonneg (sixDecimals_nonneg (abs_nonneg q))]
    exact sixDecimals_le h.2
  | negZero => trivial
  | inf s => exact h.elim
  | nan => exact h.elim

/-- **What is read back is printed as before**, although it may be another value: the next `double`
to the decimals has the same six. -/
theorem printLf_toSix {x : Num} (h : x.IsDouble) : printLf x.toSix = printLf x := by
  cases x with
  | fin q =>
    have hnonneg := sixDecimals_nonneg (abs_nonneg q)
    have hround := Binary64.round_nonneg hnonneg
    have hofRat := ofRat_of_nonneg hnonneg (sixDecimals_le h.2)
    have habs : Binary64.IsValue |q| := by
      rcases abs_choice q with heq | heq
      · rw [heq]
        exact h.1
      · rw [heq]
        exact h.1.neg
    -- the same six decimals
    have hdecimals : roundHalfEven (Binary64.round (sixDecimals |q|) * 10 ^ 6) =
        roundHalfEven (|q| * 10 ^ 6) := Binary64.roundHalfEven_round_mul habs (by norm_num)
    by_cases hneg : q < 0
    · simp only [toSix, ofSigned, decide_eq_true hneg, if_true, hofRat, neg]
      split
      · rename_i hzero
        rw [hzero, zero_mul, show (0 : Rat) = ((0 : Int) : Rat) from rfl,
          roundHalfEven_intCast] at hdecimals
        simp only [printLf, if_pos hneg, ← hdecimals]
        rfl
      · rename_i hzero
        have hlt : -Binary64.round (sixDecimals |q|) < 0 :=
          neg_neg_of_pos (lt_of_le_of_ne hround (Ne.symm hzero))
        simp only [printLf, if_pos hlt, if_pos hneg, abs_neg, abs_of_nonneg hround, hdecimals]
    · simp only [toSix, ofSigned, decide_eq_false hneg, Bool.false_eq_true, if_false, hofRat,
        printLf, if_neg (not_lt.mpr hround), if_neg hneg, abs_of_nonneg hround, hdecimals]
  | negZero => rfl
  | inf s => rfl
  | nan => rfl

/-- Reading and printing once more changes nothing.  The first time may have, so this is no
projection of all numbers to those with six decimals. -/
theorem toSix_toSix {x : Num} (h : x.IsDouble) : x.toSix.toSix = x.toSix := by
  have htwice := sscanfLf_printLf (isDouble_toSix h).isFinite
  rw [printLf_toSix h, sscanfLf_printLf h.isFinite] at htwice
  exact (Option.some.inj htwice).symm

end Num
end StatsdC
