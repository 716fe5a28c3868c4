import Mathlib.Algebra.Order.Floor.Ring
import Mathlib.Data.Int.Log
import Mathlib.Data.Rat.Floor
import Mathlib.Tactic.NormNum
import Mathlib.Tactic.Positivity
import StatsdC.Lib.Decimal

/-!
# The format of a double

Finite values of the format with a significand of 53 bits, as rationals.  `IsValue` says which
rationals are values: those that are an integer of at most 53 bits times a power of two not below
the smallest one of the format.  The format has no largest value here; the range is the business
of whoever uses it.

`round` takes a rational to the nearest value, and of two nearest ones to the one whose
significand is even.  Everything that is said of it follows from two facts: a value is kept
(`round_of_isValue`), and the order is kept (`round_le`, `le_round`).  No value is
nearer to a rational than its rounded one (`abs_round_sub_le`).  So a value that is written with
some decimal places and converted back is written the same once more, even where it is another
value (`roundHalfEven_round_mul`).

`nearest` is the rounding of a product of which only the part before the point is used.  Below
`2 ^ 53` it is `round` (`nearest_eq_round`), and from there on it leaves integers alone.  How far it
can move a value depends on its size only (`abs_nearest_sub_le`), and it never passes an integer
(`nearest_le`, `le_nearest`).

On a little-endian machine the byte at the lowest address holds the last eight bits of the
significand (`firstByte`).  An integer of few bits leaves them all zero, so that byte, read as a
number, is the value itself only for zero (`firstByte_eq_self_iff`).
-/

namespace Binary64
open Decimal

/-- The exponent of a value: at least that of the subnormal ones. -/
def exponent (q : Rat) : Int := max (Int.log 2 |q|) (-1022)

/-! ## Rounding -/

/-- How many binary places of a value the significand has room for. -/
def places (q : Rat) : Nat := (52 - exponent q).toNat

/-- The nearest value of the format, and between two the one with an even significand.
A value from `2 ^ 53` on, for whose last bits there is no room, is only rounded to an
integer. -/
def nearest (q : Rat) : Rat := roundHalfEven (q * 2 ^ places q) / 2 ^ places q

/-- The conversion to an integer: towards zero. -/
def truncate (q : Rat) : Int := q.num.tdiv q.den

theorem truncate_of_nonneg {q : Rat} (h : 0 ≤ q) : truncate q = ⌊q⌋ := by
  rw [truncate, Int.tdiv_eq_ediv_of_nonneg (Rat.num_nonneg.mpr h)]
  exact Rat.floor_def'.symm

/-- Rounding does not pass an integer. -/
theorem nearest_le {q : Rat} {m : Int} (h : q ≤ m) : nearest q ≤ m := by
  have hpos : (0 : Rat) < 2 ^ places q := by positivity
  have hle : roundHalfEven (q * 2 ^ places q) ≤ m * 2 ^ places q := by
    refine roundHalfEven_le ?_
    push_cast
    exact mul_le_mul_of_nonneg_right h hpos.le
  rw [nearest, div_le_iff₀ hpos]
  exact_mod_cast hle

theorem le_nearest {q : Rat} {m : Int} (h : (m : Rat) ≤ q) : (m : Rat) ≤ nearest q := by
  have hpos : (0 : Rat) < 2 ^ places q := by positivity
  have hle : m * 2 ^ places q ≤ roundHalfEven (q * 2 ^ places q) := by
    refine le_roundHalfEven ?_
    push_cast
    exact mul_le_mul_of_nonneg_right h hpos.le
  rw [nearest, le_div_iff₀ hpos]
  exact_mod_cast hle

/-- Half a unit in the last place. -/
theorem abs_nearest_sub_le_places (q : Rat) : |nearest q - q| ≤ 1 / 2 / 2 ^ places q := by
  have hpos : (0 : Rat) < 2 ^ places q := by positivity
  have hsub : nearest q - q =
      (roundHalfEven (q * 2 ^ places q) - q * 2 ^ places q) / 2 ^ places q := by
    rw [nearest, sub_div, mul_div_cancel_right₀ _ hpos.ne']
  rw [hsub, abs_div, abs_of_pos hpos]
  exact div_le_div_of_nonneg_right (abs_roundHalfEven_sub_le _) hpos.le

/-- A small value keeps many places. -/
theorem le_places {q : Rat} {e : Nat} (hne : q ≠ 0) (h : |q| < 2 ^ e) (he : e ≤ 53) :
    53 - e ≤ places q := by
  have hlog : Int.log 2 |q| < e := by
    rw [← Int.lt_zpow_iff_log_lt (by decide) (abs_pos.mpr hne), zpow_natCast]
    exact_mod_cast h
  unfold places exponent
  omega

/-- **How far rounding moves a value** that is below a power of two. -/
theorem abs_nearest_sub_le {q : Rat} {e : Nat} (h : |q| < 2 ^ e) (he : e ≤ 53) :
    |nearest q - q| ≤ 2 ^ e / 2 ^ 54 := by
  by_cases hzero : q = 0
  · have hround : nearest q = 0 := by
      have hhi := nearest_le (q := q) (m := 0) (by rw [hzero, Int.cast_zero])
      have hlo := le_nearest (q := q) (m := 0) (by rw [hzero, Int.cast_zero])
      rw [Int.cast_zero] at hhi hlo
      exact le_antisymm hhi hlo
    rw [hround, hzero, sub_zero, abs_zero]
    positivity
  · have hplaces := le_places hzero h he
    have hpow : (2 : Rat) ^ (53 - e) ≤ 2 ^ places q := pow_le_pow_right₀ (by norm_num) hplaces
    have hsplit : (2 : Rat) ^ e / 2 ^ 54 = 1 / 2 / 2 ^ (53 - e) := by
      have hexp : (2 : Rat) ^ 54 = 2 * (2 ^ (53 - e) * 2 ^ e) := by
        rw [← pow_add, ← pow_succ']
        congr 1
        omega
      have hne : (2 : Rat) ^ e ≠ 0 := by positivity
      rw [hexp]
      field_simp
    calc |nearest q - q| ≤ 1 / 2 / 2 ^ places q := abs_nearest_sub_le_places q
      _ ≤ 1 / 2 / 2 ^ (53 - e) := div_le_div_of_nonneg_left (by norm_num) (by positivity) hpow
      _ = 2 ^ e / 2 ^ 54 := hsplit.symm

/-! ## Conversion -/

/-- The values of the format, their exponent not bounded above. -/
def IsValue (q : Rat) : Prop := ∃ m e : Int, |m| < 2 ^ 53 ∧ -1074 ≤ e ∧ q = m * 2 ^ e

/-- The exponent of the last place of a significand. -/
def ulpExponent (q : Rat) : Int := exponent q - 52

/-- The value of the format that an exact number is converted to: the nearest one, and
between two the one with an even significand. -/
def round (q : Rat) : Rat := roundHalfEven (q / 2 ^ ulpExponent q) * 2 ^ ulpExponent q

theorem le_ulpExponent (q : Rat) : -1074 ≤ ulpExponent q := by
  unfold ulpExponent exponent
  omega

theorem ulp_pos (q : Rat) : (0 : Rat) < 2 ^ ulpExponent q := zpow_pos (by norm_num) _

theorem two_pow_mul_ulp (q : Rat) {k : Nat} :
    (2 : Rat) ^ k * 2 ^ ulpExponent q = 2 ^ (exponent q + (k - 52)) := by
  rw [← zpow_natCast, ← zpow_add₀ (by norm_num), ulpExponent]
  congr 1
  ring

/-- A number has at most 53 digits in front of the last place. -/
theorem abs_lt_ulp (q : Rat) : |q| < 2 ^ 53 * 2 ^ ulpExponent q := by
  have hsplit : (2 : Rat) ^ 53 * 2 ^ ulpExponent q = 2 ^ (exponent q + 1) := by
    rw [two_pow_mul_ulp]
    norm_num
  have hlog : |q| < (2 : Rat) ^ (Int.log 2 |q| + 1) := by
    exact_mod_cast Int.lt_zpow_succ_log_self (by decide) |q|
  rw [hsplit]
  exact hlog.trans_le (zpow_le_zpow_right₀ (by norm_num) (by unfold exponent; omega))

theorem isValue_zero : IsValue 0 := ⟨0, 0, by decide, by decide, by norm_num⟩

theorem IsValue.neg {q : Rat} (h : IsValue q) : IsValue (-q) := by
  obtain ⟨m, e, hm, he, rfl⟩ := h
  exact ⟨-m, e, by rwa [abs_neg], he, by push_cast; ring⟩

/-- A significand of 53 bits or its successor, scaled. -/
theorem isValue_mul_zpow {m e : Int} (hm : |m| ≤ 2 ^ 53) (he : -1074 ≤ e) :
    IsValue (m * 2 ^ e) := by
  rcases hm.lt_or_eq with hlt | heq
  · exact ⟨m, e, hlt, he, rfl⟩
  · -- one more bit in front, and a zero behind
    have hdouble : ∀ s : Int, m = s * 2 ^ 53 →
        (m : Rat) * 2 ^ e = ((s * 2 ^ 52 : Int) : Rat) * 2 ^ (e + 1) := by
      rintro s rfl
      rw [zpow_add_one₀ (by norm_num)]
      push_cast
      ring
    rcases eq_or_eq_neg_of_abs_eq heq with hpos | hneg
    · exact ⟨1 * 2 ^ 52, e + 1, by norm_num, by omega, hdouble 1 (by rw [hpos]; norm_num)⟩
    · exact ⟨-1 * 2 ^ 52, e + 1, by norm_num, by omega, hdouble (-1) (by rw [hneg]; norm_num)⟩

theorem isValue_intCast {z : Int} (h : |z| ≤ 2 ^ 53) : IsValue (z : Rat) := by
  have hvalue := isValue_mul_zpow (e := 0) h (by decide)
  rwa [zpow_zero, mul_one] at hvalue

theorem isValue_two_pow (n : Nat) : IsValue (2 ^ n) :=
  ⟨1, n, by norm_num, by omega, by rw [zpow_natCast]; push_cast; ring⟩

/-- What a number is converted to has the format. -/
theorem isValue_round (q : Rat) : IsValue (round q) := by
  refine isValue_mul_zpow (abs_le.mpr ⟨?_, ?_⟩) (le_ulpExponent q)
  · refine le_roundHalfEven ?_
    rw [le_div_iff₀ (ulp_pos q)]
    have hlt := (abs_lt.mp (abs_lt_ulp q)).1
    push_cast
    linarith
  · refine roundHalfEven_le ?_
    rw [div_le_iff₀ (ulp_pos q)]
    have hlt := (abs_lt.mp (abs_lt_ulp q)).2
    push_cast
    exact hlt.le

/-- No multiple of the last place is nearer. -/
theorem abs_round_sub_le_mul (q : Rat) (n : Int) :
    |round q - q| ≤ |n * 2 ^ ulpExponent q - q| := by
  have hpos := ulp_pos q
  have hscale : ∀ m : Int, |(m : Rat) * 2 ^ ulpExponent q - q| =
      |(m : Rat) - q / 2 ^ ulpExponent q| * 2 ^ ulpExponent q := by
    intro m
    rw [← abs_of_pos hpos, ← abs_mul, abs_of_pos hpos, sub_mul, div_mul_cancel₀ _ hpos.ne']
  rw [round, hscale, hscale]
  exact mul_le_mul_of_nonneg_right (abs_roundHalfEven_sub_le_int _ n) hpos.le

/-- The least power of two with the places of `q` is a multiple of its last place. -/
theorem abs_round_sub_le_two_pow {q : Rat} (h : 2 ^ exponent q ≤ |q|) :
    |round q - q| ≤ |q| - 2 ^ exponent q := by
  have hpow : (2 : Rat) ^ 52 * 2 ^ ulpExponent q = 2 ^ exponent q := by
    rw [two_pow_mul_ulp]
    norm_num
  rcases le_total 0 q with hq | hq
  · have hround := abs_round_sub_le_mul q (2 ^ 52)
    rw [Int.cast_pow, Int.cast_ofNat, hpow, abs_sub_comm (2 ^ exponent q)] at hround
    rw [abs_of_nonneg hq] at h ⊢
    rwa [abs_of_nonneg (a := q - 2 ^ exponent q) (sub_nonneg.mpr h)] at hround
  · have hround := abs_round_sub_le_mul q (-2 ^ 52)
    rw [Int.cast_neg, Int.cast_pow, Int.cast_ofNat, neg_mul, hpow] at hround
    rw [abs_of_nonpos hq] at h ⊢
    rw [abs_of_nonneg (a := -2 ^ exponent q - q) (by linarith)] at hround
    linarith

/-- A significand scaled by less than the last place of `q` is below that power of two. -/
theorem abs_mul_zpow_le {q : Rat} {m e : Int} (hm : |m| < 2 ^ 53) (he : e < ulpExponent q) :
    |(m : Rat) * 2 ^ e| ≤ 2 ^ exponent q := by
  have hpos : (0 : Rat) < 2 ^ e := zpow_pos (by norm_num) _
  have hm' : |(m : Rat)| ≤ 2 ^ 53 := by exact_mod_cast hm.le
  have hsmall : (2 : Rat) ^ e ≤ 2 ^ (ulpExponent q - 1) :=
    zpow_le_zpow_right₀ (by norm_num) (by omega)
  calc |(m : Rat) * 2 ^ e| = |(m : Rat)| * 2 ^ e := by rw [abs_mul, abs_of_pos hpos]
    _ ≤ 2 ^ 53 * 2 ^ (ulpExponent q - 1) := mul_le_mul hm' hsmall hpos.le (by positivity)
    _ = 2 ^ exponent q := by
      rw [← zpow_natCast, ← zpow_add₀ (by norm_num), ulpExponent]
      congr 1
      push_cast
      ring

/-- **The conversion takes the nearest value**: none of the format is nearer. -/
theorem abs_round_sub_le {q v : Rat} (h : IsValue v) : |round q - q| ≤ |v - q| := by
  obtain ⟨m, e, hm, he, rfl⟩ := h
  by_cases hzero : q = 0
  · have hround := abs_round_sub_le_mul q 0
    rw [Int.cast_zero, zero_mul, hzero, sub_zero, sub_zero, abs_zero] at hround
    rw [hzero, sub_zero]
    exact hround.trans (abs_nonneg _)
  by_cases hle : ulpExponent q ≤ e
  · -- a multiple of the last place
    have hmul : (m : Rat) * 2 ^ e = ((m * 2 ^ (e - ulpExponent q).toNat : Int) : Rat) *
        2 ^ ulpExponent q := by
      push_cast
      rw [← zpow_natCast, Int.toNat_of_nonneg (by omega), mul_assoc, ← zpow_add₀ (by norm_num),
        sub_add_cancel]
    rw [hmul]
    exact abs_round_sub_le_mul q _
  · -- a smaller value: the power of two is between it and `q`
    have hexp : exponent q = Int.log 2 |q| := by
      unfold ulpExponent exponent at hle
      unfold exponent
      omega
    have hq : (2 : Rat) ^ exponent q ≤ |q| := by
      rw [hexp]
      exact_mod_cast Int.zpow_log_le_self (by decide) (abs_pos.mpr hzero)
    calc |round q - q| ≤ |q| - 2 ^ exponent q := abs_round_sub_le_two_pow hq
      _ ≤ |q| - |(m : Rat) * 2 ^ e| := sub_le_sub_left (abs_mul_zpow_le hm (not_le.mp hle)) _
      _ ≤ |q - m * 2 ^ e| := abs_sub_abs_le_abs_sub _ _
      _ = |m * 2 ^ e - q| := abs_sub_comm _ _

/-- A value of the format is kept. -/
theorem round_of_isValue {q : Rat} (h : IsValue q) : round q = q := by
  have hle := abs_round_sub_le (q := q) h
  rw [sub_self, abs_zero] at hle
  exact sub_eq_zero.mp (abs_nonpos_iff.mp hle)

theorem round_neg (q : Rat) : round (-q) = -round q := by
  have hexp : ulpExponent (-q) = ulpExponent q := by
    rw [ulpExponent, ulpExponent, exponent, exponent, abs_neg]
  rw [round, round, hexp, neg_div, roundHalfEven_neg]
  push_cast
  ring

/-- The conversion does not pass a value of the format. -/
theorem round_le {q v : Rat} (hv : IsValue v) (h : q ≤ v) : round q ≤ v := by
  have hle := abs_round_sub_le (q := q) hv
  rw [abs_of_nonneg (sub_nonneg.mpr h)] at hle
  linarith [le_abs_self (round q - q)]

theorem le_round {q v : Rat} (hv : IsValue v) (h : v ≤ q) : v ≤ round q := by
  have hle := abs_round_sub_le (q := q) hv
  rw [abs_of_nonpos (sub_nonpos.mpr h)] at hle
  linarith [neg_abs_le (round q - q)]

theorem round_nonneg {q : Rat} (h : 0 ≤ q) : 0 ≤ round q := le_round isValue_zero h

theorem abs_round (q : Rat) : |round q| = round |q| := by
  rcases le_total 0 q with h | h
  · rw [abs_of_nonneg h, abs_of_nonneg (round_nonneg h)]
  · rw [abs_of_nonpos h, round_neg, abs_of_nonpos (round_le isValue_zero h)]

/-- Below `2 ^ 53` a product is rounded as it is converted. -/
theorem nearest_eq_round {q : Rat} (h : |q| < 2 ^ 53) : nearest q = round q := by
  have hexp : exponent q ≤ 52 := by
    by_cases hzero : q = 0
    · rw [hzero, exponent, abs_zero, Int.log_zero_right]
      decide
    · have hlog : Int.log 2 |q| < 53 := by
        rw [← Int.lt_zpow_iff_log_lt (by decide) (abs_pos.mpr hzero)]
        exact_mod_cast h
      unfold exponent
      omega
  have hplaces : ulpExponent q = -(places q : Int) := by
    unfold ulpExponent places
    omega
  rw [nearest, round, hplaces, zpow_neg, zpow_natCast, div_inv_eq_mul, ← div_eq_mul_inv]

/-- **Decimal places survive the conversion.**  A value written with a number of decimal
places and converted back is written the same. -/
theorem roundHalfEven_round_mul {d : Rat} (h : IsValue d) {scale : Rat} (hscale : 0 < scale) :
    roundHalfEven (round (roundHalfEven (d * scale) / scale) * scale) =
      roundHalfEven (d * scale) := by
  have hnear := abs_round_sub_le (q := roundHalfEven (d * scale) / scale) h
  generalize hm : roundHalfEven (d * scale) = m at hnear ⊢
  refine roundHalfEven_eq_of_abs_le hm ?_
  -- both distances, times the scale
  have hdist : ∀ y : Rat, |y - m / scale| * scale = |(m : Rat) - y * scale| := by
    intro y
    rw [← abs_of_pos hscale, ← abs_mul, abs_of_pos hscale, sub_mul, div_mul_cancel₀ _ hscale.ne',
      abs_sub_comm]
  rw [← hdist, ← hdist]
  exact mul_le_mul_of_nonneg_right hnear hscale.le

/-! ## Bytes -/

/-- The significand of a value, as an integer of 53 bits. -/
def significand (q : Rat) : Nat := ⌊|q| * 2 ^ (52 - exponent q)⌋₊

/-- The byte at the lowest address, as a signed character. -/
def firstByte (q : Rat) : Int := (significand q : Int).bmod 256

theorem firstByte_bounds (q : Rat) : -128 ≤ firstByte q ∧ firstByte q ≤ 127 := by
  have hlo := Int.le_bmod (x := significand q) (m := 256) (by decide)
  have hhi := Int.bmod_lt (x := significand q) (m := 256) (by decide)
  unfold firstByte
  omega

/-- The sign is kept elsewhere. -/
theorem significand_abs (q : Rat) : significand |q| = significand q := by
  rw [significand, significand, exponent, exponent, abs_abs]

/-- The significand of an integer below `2 ^ 45` ends in eight zero bits. -/
theorem significand_natCast {n : Nat} (hpos : n ≠ 0) (hlt : n < 2 ^ 45) :
    significand (n : Rat) = n * 2 ^ (44 - Nat.log 2 n) * 256 := by
  have hlog : Nat.log 2 n ≤ 44 := Nat.le_of_lt_succ (Nat.log_lt_of_lt_pow hpos hlt)
  have hexp : exponent (n : Rat) = Nat.log 2 n := by
    rw [exponent, Nat.abs_cast, Int.log_natCast]
    exact max_eq_left (by omega)
  have hshift : (52 : Int) - Nat.log 2 n = ((44 - Nat.log 2 n + 8 : Nat) : Int) := by
    rw [Nat.cast_add, Nat.cast_sub hlog]
    ring
  have hvalue : (n : Rat) * 2 ^ (52 - exponent (n : Rat)) =
      ((n * 2 ^ (44 - Nat.log 2 n) * 256 : Nat) : Rat) := by
    rw [hexp, hshift, zpow_natCast, pow_add]
    push_cast
    ring
  rw [significand, Nat.abs_cast, hvalue, Nat.floor_natCast]

/-- The first byte of a small integer is zero. -/
theorem firstByte_intCast {z : Int} (h : z.natAbs < 2 ^ 45) : firstByte (z : Rat) = 0 := by
  have habs : significand (z : Rat) = significand (z.natAbs : Rat) := by
    rw [← significand_abs, Nat.cast_natAbs, Int.cast_abs]
  unfold firstByte
  rw [habs]
  by_cases hzero : z.natAbs = 0
  · have hnone : significand ((0 : Nat) : Rat) = 0 := by
      rw [significand, Nat.cast_zero, abs_zero, zero_mul, Nat.floor_zero]
    rw [hzero, hnone]
    rfl
  · rw [significand_natCast hzero h]
    push_cast
    exact Int.bmod_eq_zero_of_dvd (dvd_mul_left _ _)

/-- **The first byte of a value is the value** only if it is zero. -/
theorem firstByte_eq_self_iff {q : Rat} : (firstByte q : Rat) = q ↔ q = 0 := by
  constructor
  · intro h
    have hbounds := firstByte_bounds q
    have hzero : firstByte ((firstByte q : Int) : Rat) = 0 := firstByte_intCast (by omega)
    rw [h] at hzero
    rw [← h, hzero, Int.cast_zero]
  · intro h
    have hzero : firstByte ((0 : Int) : Rat) = 0 := firstByte_intCast (by decide)
    rw [Int.cast_zero] at hzero
    rw [h, hzero, Int.cast_zero]

end Binary64
