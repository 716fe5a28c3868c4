import Mathlib.Tactic.Linarith
import StatsdC.Flush

/-!
# The percentile index

`( pctThreshold / 100.0 ) * s_timer->count`, cut off to an `int`.  `thresholdIndex` computes it
with doubles: the quotient is rounded to the format, and so is the product.  For a count that fits
an `int` it is the exact quotient `pctThreshold * count / 100` rounded down, or one less, and one
less only where nothing would have had to be cut off (`thresholdIndex_cases`).  So it stays within
the array exactly where the quotient does, and rounding never moves it past an element that the
exact quotient stops at.

The reason is that both errors are small against a hundredth (`abs_thresholdProduct_sub_lt`), and
that a quotient with a remainder is at least a hundredth away from the next integer.  Where there
is no remainder, the product may be a little below the integer, and then it is cut off to the one
before.  That happens: 29 percent of 100 samples are the first 28.

The results about the summary are in the form in which the modules on a pass use them: whether the
percentile element exists, and which element it is.
-/

namespace StatsdC
open Binary64

section Index
variable {pctThreshold : Int} {count : Nat}

/-- The product before it is cut off: the percentage as a fraction, rounded, times the count,
rounded again. -/
def thresholdProduct (pctThreshold : Int) (count : Nat) : Rat :=
  nearest (nearest (pctThreshold / 100) * count)

theorem nearest_percentage_nonneg (h : 0 ≤ pctThreshold) : 0 ≤ nearest (pctThreshold / 100) := by
  have hquot : ((0 : Int) : Rat) ≤ pctThreshold / 100 := by
    rw [Int.cast_zero]
    positivity
  exact_mod_cast le_nearest hquot

theorem thresholdProduct_nonneg (h : 0 ≤ pctThreshold) (count : Nat) :
    0 ≤ thresholdProduct pctThreshold count := by
  have hprod : ((0 : Int) : Rat) ≤ nearest (pctThreshold / 100) * count := by
    rw [Int.cast_zero]
    exact mul_nonneg (nearest_percentage_nonneg h) (Nat.cast_nonneg count)
  have hle : ((0 : Int) : Rat) ≤ thresholdProduct pctThreshold count := le_nearest hprod
  rwa [Int.cast_zero] at hle

theorem thresholdIndex_eq_floor (h : 0 ≤ pctThreshold) :
    thresholdIndex pctThreshold count = ⌊thresholdProduct pctThreshold count⌋ :=
  truncate_of_nonneg (thresholdProduct_nonneg h count)

/-- Up to 100 percent, the index is at most the count, so that the element before it is in the
array. -/
theorem thresholdIndex_le (hpos : 0 ≤ pctThreshold) (hhi : pctThreshold ≤ 100) :
    thresholdIndex pctThreshold count ≤ count := by
  have hquot : (pctThreshold : Rat) / 100 ≤ ((1 : Int) : Rat) := by
    have hcast : (pctThreshold : Rat) ≤ 100 := by exact_mod_cast hhi
    rw [Int.cast_one]
    linarith
  have hround : nearest (pctThreshold / 100) ≤ 1 := by exact_mod_cast nearest_le hquot
  have hprod : nearest (pctThreshold / 100) * count ≤ ((count : Int) : Rat) := by
    have hcount : (0 : Rat) ≤ count := Nat.cast_nonneg count
    push_cast
    nlinarith
  have hle : thresholdProduct pctThreshold count ≤ ((count : Int) : Rat) := nearest_le hprod
  have hfloor := (Int.floor_mono hle).trans_eq (Int.floor_intCast _)
  rwa [thresholdIndex_eq_floor hpos]

/-- The product of two `double`s: the percentage is rounded to the format, and the product with the
count once more. -/
theorem thresholdProduct_eq_round (hlo : 0 ≤ pctThreshold) (hhi : pctThreshold ≤ 200)
    (hcount : count < 2 ^ 31) :
    thresholdProduct pctThreshold count =
      Binary64.round (Binary64.round (pctThreshold / 100) * count) := by
  have hlo' : (0 : Rat) ≤ pctThreshold := by exact_mod_cast hlo
  have hhi' : (pctThreshold : Rat) ≤ 200 := by exact_mod_cast hhi
  have hcount' : (count : Rat) < 2 ^ 31 := by exact_mod_cast hcount
  have hcountNonneg : (0 : Rat) ≤ count := Nat.cast_nonneg count
  have hquot : (pctThreshold : Rat) / 100 ≤ ((2 : Int) : Rat) := by
    push_cast
    linarith
  have hnonneg := nearest_percentage_nonneg hlo
  have htwo : nearest (pctThreshold / 100) ≤ 2 := by exact_mod_cast nearest_le hquot
  have hfirst : nearest (pctThreshold / 100) = Binary64.round (pctThreshold / 100) := by
    refine nearest_eq_round ?_
    rw [abs_of_nonneg (by positivity)]
    push_cast at hquot
    linarith
  have hsecond : |nearest (pctThreshold / 100) * count| < 2 ^ 53 := by
    rw [abs_of_nonneg (by positivity)]
    nlinarith
  rw [thresholdProduct, nearest_eq_round hsecond, hfirst]

/-- The product is off by less than a hundredth, for percentages up to 200 and every count that an
`int` can hold. -/
theorem abs_thresholdProduct_sub_lt (hlo : 0 ≤ pctThreshold) (hhi : pctThreshold ≤ 200)
    (hcount : count < 2 ^ 31) :
    |thresholdProduct pctThreshold count - pctThreshold * count / 100| < 1 / 100 := by
  have hlo' : (0 : Rat) ≤ pctThreshold := by exact_mod_cast hlo
  have hhi' : (pctThreshold : Rat) ≤ 200 := by exact_mod_cast hhi
  have hcount' : (count : Rat) < 2 ^ 31 := by exact_mod_cast hcount
  have hcountNonneg : (0 : Rat) ≤ count := Nat.cast_nonneg count
  have hquot : |(pctThreshold : Rat) / 100| < 2 ^ 2 := by
    rw [abs_of_nonneg (by positivity)]
    linarith
  have hfirst := abs_le.mp (abs_nearest_sub_le hquot (by decide))
  have hnonneg := nearest_percentage_nonneg hlo
  obtain ⟨r, hr⟩ : ∃ r, r = nearest (pctThreshold / 100) := ⟨_, rfl⟩
  rw [← hr] at hfirst hnonneg
  have hr4 : r ≤ 4 := by linarith [hfirst.2]
  have hprod : |r * count| < 2 ^ 33 := by
    rw [abs_of_nonneg (by positivity)]
    nlinarith
  have hsecond := abs_le.mp (abs_nearest_sub_le hprod (by decide))
  -- the first error is multiplied by the count
  have herr : |r * count - pctThreshold * count / 100| ≤ 2 ^ 31 * (2 ^ 2 / 2 ^ 54) := by
    have heq : r * count - pctThreshold * count / 100 = count * (r - pctThreshold / 100) := by
      ring
    rw [heq, abs_mul, abs_of_nonneg hcountNonneg]
    exact mul_le_mul hcount'.le (abs_le.mpr hfirst) (abs_nonneg _) (by positivity)
  have herr' := abs_le.mp herr
  have hdef : thresholdProduct pctThreshold count = nearest (r * count) := by
    rw [thresholdProduct, hr]
  rw [hdef, abs_lt]
  constructor
  · linarith [hsecond.1, herr'.1]
  · linarith [hsecond.2, herr'.2]

/-- **The index in exact numbers**, up to one where the quotient is exact. -/
theorem thresholdIndex_cases (hlo : 0 ≤ pctThreshold) (hhi : pctThreshold ≤ 200)
    (hcount : count < 2 ^ 31) :
    thresholdIndex pctThreshold count = pctThreshold * count / 100 ∨
      100 ∣ pctThreshold * count ∧
        thresholdIndex pctThreshold count = pctThreshold * count / 100 - 1 := by
  have herr := abs_lt.mp (abs_thresholdProduct_sub_lt hlo hhi hcount)
  have hfloor := Int.floor_le (thresholdProduct pctThreshold count)
  have hlt := Int.lt_floor_add_one (thresholdProduct pctThreshold count)
  rw [thresholdIndex_eq_floor hlo]
  generalize thresholdProduct pctThreshold count = x at herr hfloor hlt
  -- both bounds, times a hundred, are about integers
  have hbelow : 100 * ⌊x⌋ < pctThreshold * count + 1 := by
    have hcast : (100 : Rat) * ⌊x⌋ < pctThreshold * count + 1 := by linarith [herr.2]
    exact_mod_cast hcast
  have habove : pctThreshold * count - 1 < 100 * (⌊x⌋ + 1) := by
    have hcast : (pctThreshold : Rat) * count - 1 < 100 * (⌊x⌋ + 1) := by linarith [herr.1]
    exact_mod_cast hcast
  generalize pctThreshold * (count : Int) = z at hbelow habove
  omega

/-- Where the product is 100, it is so in doubles too. -/
theorem thresholdIndex_of_mul_eq (h : pctThreshold * count = 100) :
    thresholdIndex pctThreshold count = 1 := by
  have hdvd : count ∣ 100 := Int.natCast_dvd_natCast.mp ⟨pctThreshold, by push_cast; linarith⟩
  have hquot : pctThreshold = 100 / count := by
    have hne : (count : Int) ≠ 0 := by
      intro hzero
      rw [hzero, mul_zero] at h
      cases h
    rw [← h, Int.mul_ediv_cancel _ hne]
  have hall : ∀ n : Fin 101, n.val ∣ 100 → thresholdIndex (100 / (n.val : Int)) n.val = 1 := by
    decide +kernel
  have hlt : count < 101 := Nat.lt_succ_of_le (Nat.le_of_dvd (by decide) hdvd)
  rw [hquot]
  exact hall ⟨count, hlt⟩ hdvd

/-- Above 100, the error of the quotient is too small to matter. -/
theorem one_le_product (hpos : 0 < pctThreshold) (h : 100 < pctThreshold * count) :
    1 ≤ nearest (pctThreshold / 100) * count := by
  have hcount : 1 ≤ count := by
    by_contra hzero
    have hnone : count = 0 := by omega
    rw [hnone, Nat.cast_zero, mul_zero] at h
    omega
  have hcount' : (1 : Rat) ≤ count := by exact_mod_cast hcount
  by_cases hpct : 100 ≤ pctThreshold
  · have hquot : ((1 : Int) : Rat) ≤ pctThreshold / 100 := by
      have hcast : (100 : Rat) ≤ pctThreshold := by exact_mod_cast hpct
      rw [Int.cast_one]
      linarith
    have hone : (1 : Rat) ≤ nearest (pctThreshold / 100) := by exact_mod_cast le_nearest hquot
    nlinarith
  · have hpos' : (1 : Rat) ≤ pctThreshold := by exact_mod_cast hpos
    have hsmall : |(pctThreshold : Rat) / 100| < 2 ^ 0 := by
      have hcast : (pctThreshold : Rat) < 100 := by exact_mod_cast not_le.mp hpct
      rw [abs_of_nonneg (by positivity)]
      linarith
    have herr := (abs_le.mp (abs_nearest_sub_le hsmall (by decide))).1
    have hproduct : (101 : Rat) ≤ pctThreshold * count := by
      have hint : 101 ≤ pctThreshold * count := h
      exact_mod_cast hint
    -- the error is at most this part of the quotient
    have hlow : (pctThreshold : Rat) * (1 / 100 - 1 / 2 ^ 54) ≤ nearest (pctThreshold / 100) := by
      linarith
    calc (1 : Rat) ≤ 101 * (1 / 100 - 1 / 2 ^ 54) := by norm_num
      _ ≤ (pctThreshold * count) * (1 / 100 - 1 / 2 ^ 54) :=
        mul_le_mul_of_nonneg_right hproduct (by norm_num)
      _ = (pctThreshold * (1 / 100 - 1 / 2 ^ 54)) * count := by ring
      _ ≤ nearest (pctThreshold / 100) * count :=
        mul_le_mul_of_nonneg_right hlow (by linarith)

/-- **The index is positive** exactly if the exact quotient is. -/
theorem one_le_thresholdIndex_iff (hpos : 0 < pctThreshold) :
    1 ≤ thresholdIndex pctThreshold count ↔ 100 ≤ pctThreshold * count := by
  constructor
  · intro hindex
    by_contra hlt
    have hcount : count ≤ 99 := by nlinarith
    have hpct : count ≠ 0 → pctThreshold ≤ 99 := by
      intro hne
      nlinarith [Nat.pos_of_ne_zero hne]
    by_cases hzero : count = 0
    · have hproduct : thresholdIndex pctThreshold count ≤ 0 := by
        have hround : thresholdProduct pctThreshold count ≤ ((0 : Int) : Rat) := by
          refine nearest_le ?_
          rw [hzero, Nat.cast_zero, mul_zero, Int.cast_zero]
        rw [thresholdIndex_eq_floor hpos.le]
        exact (Int.floor_mono hround).trans_eq (Int.floor_intCast 0)
      omega
    · rcases thresholdIndex_cases hpos.le (by linarith [hpct hzero] : pctThreshold ≤ 200)
        (by omega : count < 2 ^ 31) with heq | ⟨_, heq⟩ <;> omega
  · intro hle
    rcases hle.eq_or_lt with heq | hlt
    · exact (thresholdIndex_of_mul_eq heq.symm).ge
    · have hproduct : ((1 : Int) : Rat) ≤ nearest (pctThreshold / 100) * count := by
        rw [Int.cast_one]
        exact one_le_product hpos hlt
      have hround : ((1 : Int) : Rat) ≤ thresholdProduct pctThreshold count := le_nearest hproduct
      rw [thresholdIndex_eq_floor hpos.le]
      exact Int.le_floor.mpr hround

/-- **The index stays within the array** where the exact quotient does. -/
theorem thresholdIndex_mem (hcount : 2 ≤ count) (hlow : 1 ≤ pctThreshold * count / 100)
    (hhigh : pctThreshold * count / 100 ≤ count) :
    1 ≤ thresholdIndex pctThreshold count ∧ thresholdIndex pctThreshold count ≤ count := by
  have hproduct : 100 ≤ pctThreshold * count := by omega
  have hpos : 0 < pctThreshold := by
    by_contra hnonpos
    nlinarith
  refine ⟨(one_le_thresholdIndex_iff hpos).mpr hproduct, ?_⟩
  by_cases hpct : pctThreshold ≤ 100
  · exact thresholdIndex_le hpos.le hpct
  · -- above 100 percent only a few counts are left
    have hfew : (pctThreshold - 100) * count < 100 := by
      rw [sub_mul]
      omega
    have hsmall : count < 100 := by
      by_contra hlarge
      nlinarith
    have hpct' : pctThreshold ≤ 200 := by
      by_contra hlarge
      nlinarith
    rcases thresholdIndex_cases hpos.le hpct' (by omega : count < 2 ^ 31) with heq | ⟨_, heq⟩
    · rw [heq]
      exact hhigh
    · omega

end Index

/-- An element that exists. -/
theorem exists_utarrayEltptr_iff {α : Type} {values : List α} {j : Int} :
    (∃ x, utarrayEltptr values j = some x) ↔ 0 ≤ j ∧ j < values.length := by
  unfold utarrayEltptr
  by_cases hj : 0 ≤ j
  · rw [if_pos hj]
    constructor
    · intro ⟨x, hx⟩
      obtain ⟨hlt, _⟩ := List.getElem?_eq_some_iff.mp hx
      exact ⟨hj, by omega⟩
    · intro ⟨_, hlt⟩
      exact ⟨_, List.getElem?_eq_getElem (by omega)⟩
  · rw [if_neg hj]
    exact iff_of_false nofun fun h => hj h.1

/-- A summary needs the percentile element of more than one value. -/
theorem exists_summarize_iff {α : Type} [Add α] [Div α] [Zero α] [NatCast α] [IntCast α] [LT α]
    [DecidableLT α] [BEq α] {firstByte : α → Int} {pctThreshold : Int} {count : Nat}
    {values : List α} :
    (∃ summary, summarize firstByte pctThreshold count values = .ok summary) ↔
      (1 < count → ∃ x, utarrayEltptr values (thresholdIndex pctThreshold count - 1) = some x) := by
  unfold summarize
  simp only
  by_cases hmany : 1 < count
  · rw [if_pos hmany]
    cases utarrayEltptr values (thresholdIndex pctThreshold count - 1) with
    | none => exact iff_of_false nofun fun h => by cases (h hmany).choose_spec
    | some x => exact iff_of_true ⟨_, rfl⟩ fun _ => ⟨x, rfl⟩
  · rw [if_neg hmany]
    exact iff_of_true ⟨_, rfl⟩ fun h => absurd h hmany

end StatsdC
