import StatsdC.PercentileIndex
import StatsdC.Reordering
import StatsdC.TimerSummary

/-!
# The statistics of a timer

What the body of the loop over the timers makes of the samples, and how the two computed numbers
relate to them.  `Emits` says that a timer is cleared and that a summary is reported of it, and
`flushPass_emits` that a pass does so for every timer with samples.  The theorems are about any
emitting timer, so they hold for every pass that goes through.

The percentile value is read through a `char *`: it is the first byte of a sample, and so the
sample itself only if that is zero (`percentileExact_iff`).  The sample it belongs to is found by
an index that is computed in doubles, and the exact rank is a quotient rounded down; where the two
differ another sample is looked at.  So the condition of the theorem has two cases: the computed
rank is the exact one, and the sample there is zero; or another sample is looked at, whose first
byte happens to be the right one.  Samples are doubles, which is what they are read as,
so that the first byte of the memory is that of the value (`doubleFirstByte`).

The mean leaves out the greatest sample, but divides by the number of all (`meanExact_iff`).  It
is the mean of all samples if there is only one, or if the greatest is zero.  Sums are taken in any
ordered field here, and their rounding is not considered.
-/

namespace StatsdC

section Emits
variable {α : Type} [Add α] [Div α] [Zero α] [NatCast α] [IntCast α] [LT α] [DecidableLT α]
variable [BEq α]

/-- A timer is cleared, and `summary` is reported of it.  This is the body of the loop, for a timer
that it does not pass over. -/
structure Emits (firstByte : α → Int) (cfg : FlushConfig) (ts : Int) (s : StatsdTimer α)
    (summary : TimerSummary α) : Prop where
  summarized : summarize firstByte cfg.percentile s.count (utarraySort s.values) = .ok summary
  flushed : flushTimer firstByte cfg ts s =
    .ok ({ s with values := [], count := 0 }, reportTimer cfg ts s.key summary 0)

variable {firstByte : α → Int} {cfg : FlushConfig} {ts : Int} {s : StatsdTimer α}
variable {summary : TimerSummary α}

theorem emits_iff (hcount : 0 < s.count) : Emits firstByte cfg ts s summary ↔
    summarize firstByte cfg.percentile s.count (utarraySort s.values) = .ok summary := by
  constructor
  · exact Emits.summarized
  · intro h
    refine ⟨h, ?_⟩
    unfold flushTimer
    rw [if_pos hcount, h]

/-- What the loop over the timers reports of one of them is part of what it reports, if the loop
ends. -/
theorem flushTimers_emits {timers : List (StatsdTimer α)} {r : List (StatsdTimer α) × Report α}
    (hok : flushTimers firstByte cfg ts timers = .ok r) (hs : s ∈ timers) (hcount : 0 < s.count) :
    ∃ summary, Emits firstByte cfg ts s summary ∧
      Reports r.2 (reportTimer cfg ts s.key summary 0) := by
  induction timers generalizing r with
  | nil => cases hs
  | cons t timers ih =>
    obtain ⟨first, rest, hfirst, hrest, rfl⟩ := flushTimers_cons_eq_ok hok
    rcases List.mem_cons.mp hs with rfl | hs
    · cases hsummary : summarize firstByte cfg.percentile s.count (utarraySort s.values) with
      | error e =>
        simp only [flushTimer, if_pos hcount, hsummary] at hfirst
        cases hfirst
      | ok summary =>
        have hemits : Emits firstByte cfg ts s summary := (emits_iff hcount).mpr hsummary
        have heq := hemits.flushed
        rw [hfirst] at heq
        obtain rfl := Except.ok.inj heq
        exact ⟨summary, hemits, Reports.append_left ⟨fun _ h => h, fun _ h => h⟩ _⟩
    · obtain ⟨summary, hemits, hreports⟩ := ih hrest hs
      exact ⟨summary, hemits, hreports.append_right _⟩

/-- **What a pass reports of a timer** with samples. -/
theorem flushPass_emits {env : FlushEnv} {t : Tables α} {r : Tables α × Report α}
    (hok : flushPass firstByte cfg env t = .ok r) (hs : s ∈ t.timers) (hcount : 0 < s.count) :
    ∃ summary, Emits firstByte cfg env.ts s summary ∧
      Reports r.2 (reportTimer cfg env.ts s.key summary 0) := by
  obtain ⟨timers, htimers, hreport, -⟩ := flushPass_eq_ok hok
  obtain ⟨summary, hemits, hreports⟩ := flushTimers_emits htimers hs hcount
  rw [hreport]
  exact ⟨summary, hemits, (hreports.append_left _).append_right _⟩

end Emits

section Ranked
variable {α : Type} [LT α] [DecidableLT α] [BEq α]

/-- The sample at a rank, counted from one, in the sorted array.  A rank outside the array has none.
-/
def rankedSample (values : List α) (k : Int) : Option α :=
  utarrayEltptr (utarraySort values) (k - 1)

/-- A rank up to the number of samples has a sample. -/
theorem exists_rankedSample {values : List α} {k : Int} (hlo : 1 ≤ k) (hhi : k ≤ values.length) :
    ∃ x, rankedSample values k = some x := by
  have hlen : (utarraySort values).length = values.length := List.length_insertionSort _ _
  exact exists_utarrayEltptr_iff.mpr ⟨by omega, by omega⟩

end Ranked

/-! ## The percentile value -/

/-- The first byte of a `double`, read as a `char`.  A sample is a `double` once it is read
(`strtod`), so that its value has the format of one.  What a NaN carries is not modelled. -/
def doubleFirstByte : Num → Int
  | .fin q => Binary64.firstByte q
  | .negZero | .inf _ | .nan => 0

/-- Only a zero is its own first byte. -/
theorem doubleFirstByte_beq_self_iff {x : Num} :
    (((doubleFirstByte x : Int) : Num) == x) = true ↔ (x == 0) = true := by
  cases x with
  | fin q =>
    have hcast : (((doubleFirstByte (.fin q) : Int) : Num) == .fin q) =
        Num.beq (.fin (Binary64.firstByte q : Rat)) (.fin q) := rfl
    simp only [hcast, Num.beq_zero, Num.beq, decide_eq_true_eq]
    exact Binary64.firstByte_eq_self_iff
  | negZero => exact iff_of_true rfl rfl
  | inf neg => exact ⟨nofun, nofun⟩
  | nan => exact ⟨nofun, nofun⟩

/-- The numbers without NaN, in their order, so that what is known of linear orders can be used.  A
NaN is put anywhere. -/
def Num.rank : Num → WithBot (WithTop Rat)
  | .fin q => ((q : WithTop Rat) : WithBot (WithTop Rat))
  | .negZero => ((0 : WithTop Rat) : WithBot (WithTop Rat))
  | .inf neg => if neg then ⊥ else ((⊤ : WithTop Rat) : WithBot (WithTop Rat))
  | .nan => ⊥

theorem doubleSort_nonpos_iff_rank {x y : Num} (hx : x ≠ .nan) (hy : y ≠ .nan) :
    doubleSort x y ≤ 0 ↔ x.rank ≤ y.rank := by
  have hsort : doubleSort x y ≤ 0 ↔ Num.beq x y = true ∨ Num.lt x y = true := by
    show (if Num.beq x y = true then (0 : Int) else if Num.lt x y = true then -1 else 1) ≤ 0 ↔ _
    by_cases heq : Num.beq x y = true
    · simp [heq]
    · by_cases hless : Num.lt x y = true <;> simp [heq, hless]
  rw [hsort]
  cases x with
  | nan => exact absurd rfl hx
  | fin p =>
    cases y with
    | nan => exact absurd rfl hy
    | fin q => simp [Num.lt, Num.beq, Num.rank, le_iff_eq_or_lt]
    | negZero => simp [Num.lt, Num.beq, Num.rank, le_iff_eq_or_lt]
    | inf neg => cases neg <;> simp [Num.lt, Num.beq, Num.rank]
  | negZero =>
    cases y with
    | nan => exact absurd rfl hy
    | fin q => simp [Num.lt, Num.beq, Num.rank, le_iff_eq_or_lt, eq_comm]
    | negZero => simp [Num.lt, Num.beq, Num.rank]
    | inf neg => cases neg <;> simp [Num.lt, Num.beq, Num.rank]
  | inf neg =>
    cases y with
    | nan => exact absurd rfl hy
    | fin q => cases neg <;> simp [Num.lt, Num.beq, Num.rank]
    | negZero =>
      cases neg with
      | true => simp [Num.lt, Num.beq, Num.rank]
      | false =>
        have htop : (0 : WithBot (WithTop Rat)) ≠ ⊤ := fun h =>
          WithTop.coe_ne_top (WithBot.coe_injective h)
        simp [Num.lt, Num.beq, Num.rank, htop]
    | inf neg' => cases neg <;> cases neg' <;> simp [Num.lt, Num.beq, Num.rank]

/-- **The sorted array** of samples without NaN is in their order.  Infinities are at its ends. -/
theorem pairwise_utarraySort_num {values : List Num} (h : .nan ∉ values) :
    (utarraySort values).Pairwise fun x y => x.rank ≤ y.rank := by
  have hne : ∀ x ∈ values, x ≠ .nan := fun x hx heq => h (heq ▸ hx)
  have hmap : (utarraySort values).map Num.rank = (values.map Num.rank).insertionSort (· ≤ ·) :=
    List.map_insertionSort _ _ _ _ fun x hx y hy =>
      doubleSort_nonpos_iff_rank (hne x hx) (hne y hy)
  have hsorted := List.pairwise_insertionSort (· ≤ ·) (values.map Num.rank)
  rw [← hmap, List.pairwise_map] at hsorted
  exact hsorted

section Percentile
variable {cfg : FlushConfig} {ts : Int} {s : StatsdTimer Num}

/-- The percentile value equals the sample at the exact rank, as C compares them, so that the two
zeros are equal and a NaN is nothing. -/
def PercentileExact (cfg : FlushConfig) (ts : Int) (s : StatsdTimer Num) : Prop :=
  ∃ summary x, Emits doubleFirstByte cfg ts s summary ∧
    rankedSample s.values (cfg.percentile * s.values.length / 100) = some x ∧
    (summary.maxAtThreshold == x) = true

/-- The percentile value is the first byte of the sample at the computed rank. -/
theorem percentileExact_iff_firstByte (hcount : s.count = s.values.length)
    (htwo : 2 ≤ s.values.length) {y : Num}
    (hy : rankedSample s.values (thresholdIndex cfg.percentile s.values.length) = some y) :
    PercentileExact cfg ts s ↔
      ∃ x, rankedSample s.values (cfg.percentile * s.values.length / 100) = some x ∧
        (((doubleFirstByte y : Int) : Num) == x) = true := by
  have hpos : 0 < s.count := by omega
  -- the summary that is reported
  have hsummary : ∃ summary, Emits doubleFirstByte cfg ts s summary ∧
      summary.maxAtThreshold = (doubleFirstByte y : Num) := by
    have hmany : 1 < s.values.length := htwo
    simp only [emits_iff hpos]
    rw [rankedSample] at hy
    unfold summarize
    simp only [hcount, if_pos hmany, hy]
    exact ⟨_, rfl, rfl⟩
  obtain ⟨summary, hemits, hvalue⟩ := hsummary
  constructor
  · intro ⟨summary', x, hemits', hrank, hequal⟩
    have heq := hemits.summarized
    rw [hemits'.summarized] at heq
    rw [Except.ok.inj heq, hvalue] at hequal
    exact ⟨x, hrank, hequal⟩
  · intro ⟨x, hrank, hequal⟩
    exact ⟨summary, x, hemits, hrank, by rw [hvalue, hequal]⟩

/-- **When the percentile value is the sample**: the computed rank is the exact one and
the sample there is zero; or the computed rank is another, and the first byte of the
sample there happens to be the sample at the exact rank. -/
theorem percentileExact_iff (hcount : s.count = s.values.length) (htwo : 2 ≤ s.values.length)
    (hlow : 1 ≤ cfg.percentile * s.values.length / 100)
    (hhigh : cfg.percentile * s.values.length / 100 ≤ s.values.length) :
    PercentileExact cfg ts s ↔
      (thresholdIndex cfg.percentile s.values.length = cfg.percentile * s.values.length / 100 ∧
        ∃ x, rankedSample s.values (cfg.percentile * s.values.length / 100) = some x ∧
          (x == 0) = true) ∨
      (thresholdIndex cfg.percentile s.values.length ≠ cfg.percentile * s.values.length / 100 ∧
        ∃ y x, rankedSample s.values (thresholdIndex cfg.percentile s.values.length) = some y ∧
          rankedSample s.values (cfg.percentile * s.values.length / 100) = some x ∧
          (((doubleFirstByte y : Int) : Num) == x) = true) := by
  obtain ⟨hone, hle⟩ := thresholdIndex_mem htwo hlow hhigh
  obtain ⟨y, hy⟩ := exists_rankedSample hone hle
  rw [percentileExact_iff_firstByte hcount htwo hy]
  by_cases hrank :
      thresholdIndex cfg.percentile s.values.length = cfg.percentile * s.values.length / 100
  · rw [hrank] at hy
    simp only [hrank, hy, Option.some.injEq, ne_eq, not_true_eq_false, false_and, true_and,
      or_false, exists_eq_left', doubleFirstByte_beq_self_iff]
  · simp only [hrank, hy, Option.some.injEq, ne_eq, not_false_eq_true, false_and, true_and,
      false_or, exists_and_left, exists_eq_left']

/-- Graphite, a pass every ten seconds and 90 percent. -/
def ninetyPercent : FlushConfig := ⟨true, false, 10, 90, none⟩

/-- Samples 0 and 5: the exact rank is the first, and its sample is zero. -/
theorem percentileExact_zero : PercentileExact ninetyPercent 0 ⟨['a'], 2, [5, 0]⟩ := by
  have hindex : thresholdIndex 90 2 = 1 := by decide +kernel
  refine (percentileExact_iff rfl (by decide) (by decide) (by decide)).mpr
    (.inl ⟨hindex, 0, ?_, rfl⟩)
  decide +kernel

/-- A timer with the samples 5 and 7. -/
def fiveAndSeven : StatsdTimer Num := ⟨['a'], 2, [5, 7]⟩

/-- The exact rank is the first, but the percentile value is not 5: the first byte of the double 5
is zero. -/
theorem percentile_of_five_not_exact : ¬ PercentileExact ninetyPercent 0 fiveAndSeven := by
  have hfirst : rankedSample fiveAndSeven.values
      (thresholdIndex ninetyPercent.percentile fiveAndSeven.values.length) = some 5 := by
    decide +kernel
  have hfive : (5 : Num) = .fin ((5 : Int) : Rat) := by decide +kernel
  have hbyte : doubleFirstByte 5 = 0 := by
    rw [hfive, doubleFirstByte]
    exact Binary64.firstByte_intCast (by decide)
  intro h
  rw [percentileExact_iff_firstByte rfl (by decide) hfirst, hbyte] at h
  obtain ⟨x, hx, hequal⟩ := h
  have hrank : rankedSample fiveAndSeven.values
      (ninetyPercent.percentile * fiveAndSeven.values.length / 100) = some 5 := by
    decide +kernel
  obtain rfl := Option.some.inj (hrank.symm.trans hx)
  exact absurd hequal (by decide +kernel)

end Percentile

/-! ## The mean -/

section Mean
variable {α : Type} [Field α] [LinearOrder α] [IsStrictOrderedRing α]

/-- The mean is that of all the samples, and so between the least and the greatest.  Sums and
quotients are exact. -/
def MeanExact (summary : TimerSummary α) (values : List α) : Prop :=
  summary.mean = values.sum / values.length ∧
    summary.min ≤ summary.mean ∧ summary.mean ≤ summary.max

omit [Field α] [IsStrictOrderedRing α] in
/-- The last of the sorted samples is the greatest. -/
theorem getLast_utarraySort {values : List α} {x : α} (hx : IsGreatest { y | y ∈ values } x)
    (hne : utarraySort values ≠ []) : (utarraySort values).getLast hne = x := by
  have hperm := perm_utarraySort values
  have hlast : (utarraySort values).getLast hne ∈ values :=
    hperm.mem_iff.mp (List.getLast_mem hne)
  have hsorted := pairwise_utarraySort values
  rw [← List.dropLast_append_getLast hne, List.pairwise_append] at hsorted
  have hge : ∀ y ∈ utarraySort values, y ≤ (utarraySort values).getLast hne := by
    intro y hy
    rw [← List.dropLast_append_getLast hne, List.mem_append, List.mem_singleton] at hy
    rcases hy with hy | hy
    · exact hsorted.2.2 y hy _ (List.mem_singleton_self _)
    · exact hy.le
  exact le_antisymm (hx.2 hlast) (hge x (hperm.mem_iff.mpr hx.1))

omit [IsStrictOrderedRing α] in
/-- The sum leaves out the greatest sample, which is the last of the sorted ones. -/
theorem sum_take_utarraySort {values : List α} {x : α} (hx : IsGreatest { y | y ∈ values } x) :
    ((utarraySort values).take (values.length - 1)).foldl (· + ·) 0 = values.sum - x := by
  have hperm := perm_utarraySort values
  have hne : utarraySort values ≠ [] := List.ne_nil_of_mem (hperm.mem_iff.mpr hx.1)
  have htake : (utarraySort values).take (values.length - 1) = (utarraySort values).dropLast := by
    rw [List.dropLast_eq_take, hperm.length_eq]
  have hsum : (utarraySort values).dropLast.sum + x = values.sum := by
    have happend := congrArg List.sum (List.dropLast_append_getLast hne)
    rwa [List.sum_append, List.sum_singleton, getLast_utarraySort hx hne, hperm.sum_eq] at happend
  rw [htake, ← List.sum_eq_foldl, ← hsum, add_sub_cancel_right]

/-- A mean is between the least and the greatest. -/
theorem mean_mem_bounds {values : List α} {lo hi : α} (hne : values ≠ [])
    (hlo : IsLeast { x | x ∈ values } lo) (hhi : IsGreatest { x | x ∈ values } hi) :
    lo ≤ values.sum / values.length ∧ values.sum / values.length ≤ hi := by
  have hpos : (0 : α) < values.length := by
    exact_mod_cast List.length_pos_iff.mpr hne
  have hlow : values.length • lo ≤ values.sum := List.card_nsmul_le_sum _ _ hlo.2
  have hhigh : values.sum ≤ values.length • hi := List.sum_le_card_nsmul _ _ hhi.2
  rw [nsmul_eq_mul] at hlow hhigh
  rw [le_div_iff₀ hpos, div_le_iff₀ hpos]
  exact ⟨by linarith, by linarith⟩

omit [IsStrictOrderedRing α] in
/-- The two paths on which a mean is computed: of one sample, and of more, where the sum lacks the
greatest and the divisor does not. -/
theorem summarize_mean {firstByte : α → Int} {pctThreshold : Int} {count : Nat}
    {values : List α} {summary : TimerSummary α}
    (h : summarize firstByte pctThreshold count values = .ok summary) :
    summary.mean = if 1 < count then (values.take (count - 1)).foldl (· + ·) 0 / (count : α)
      else summary.min := by
  unfold summarize at h
  simp only at h
  split at h
  · rename_i hmany
    rw [if_pos hmany]
    split at h
    · cases h
    · rw [← Except.ok.inj h]
  · rename_i hfew
    rw [if_neg hfew, ← Except.ok.inj h]

variable {firstByte : α → Int} {cfg : FlushConfig} {ts : Int} {s : StatsdTimer α}
variable {summary : TimerSummary α}

/-- **When the mean is that of all the samples**: there is only one, or the greatest, which
is left out of the sum, is zero. -/
theorem meanExact_iff (hcount : s.count = s.values.length) (hne : 1 ≤ s.values.length)
    (h : Emits firstByte cfg ts s summary) :
    MeanExact summary s.values ↔
      s.values.length = 1 ∨ IsGreatest { x | x ∈ s.values } 0 := by
  have hvalues : s.values ≠ [] := List.length_pos_iff.mp hne
  have hok := h.summarized
  rw [hcount] at hok
  obtain ⟨hleast, hgreatest⟩ := summary_bounds hvalues hok
  have hbounds := mean_mem_bounds hvalues hleast hgreatest
  have hmean := summarize_mean hok
  by_cases hone : s.values.length = 1
  · -- a single sample is its own mean
    obtain ⟨x, hx⟩ := List.length_eq_one_iff.mp hone
    have hmin : summary.min = x := by
      have hmem : summary.min ∈ s.values := hleast.1
      rwa [hx, List.mem_singleton] at hmem
    have hself : summary.mean = s.values.sum / s.values.length := by
      rw [hmean, if_neg (by omega), hmin, hx, List.sum_singleton, List.length_singleton,
        Nat.cast_one, div_one]
    refine iff_of_true ?_ (.inl hone)
    rw [MeanExact, hself]
    exact ⟨rfl, hbounds⟩
  · have hpos : (0 : α) < s.values.length := by exact_mod_cast hne
    rw [if_pos (by omega), sum_take_utarraySort hgreatest] at hmean
    constructor
    · intro ⟨hexact, _⟩
      have hzero : summary.max = 0 := by
        rw [hmean, div_left_inj' hpos.ne'] at hexact
        exact sub_eq_self.mp hexact
      exact .inr (hzero ▸ hgreatest)
    · intro hgood
      have hzero : summary.max = 0 := hgreatest.unique (hgood.resolve_left hone)
      rw [hzero, sub_zero] at hmean
      rw [MeanExact, hmean]
      exact ⟨rfl, hbounds⟩

/-- A single sample. -/
theorem meanExact_single : ∃ summary,
    Emits (fun _ : Rat => 0) ninetyPercent 0 ⟨['a'], 1, [3]⟩ summary ∧
      MeanExact summary [(3 : Rat)] := by
  have hemits : Emits (fun _ : Rat => 0) ninetyPercent 0 ⟨['a'], 1, [3]⟩
      ⟨3, 3, 3, 3⟩ := ⟨rfl, rfl⟩
  exact ⟨_, hemits, (meanExact_iff rfl (by decide) hemits).mpr (.inl rfl)⟩

/-- Samples 1 and 3: the mean is one half. -/
theorem mean_of_two_not_exact : ∃ summary,
    Emits (fun _ : Rat => 0) ninetyPercent 0 ⟨['a'], 2, [1, 3]⟩ summary ∧
      ¬ MeanExact summary [(1 : Rat), 3] := by
  have hemits : Emits (fun _ : Rat => 0) ninetyPercent 0 ⟨['a'], 2, [1, 3]⟩
      ⟨1 / 2, 3, 0, 1⟩ := (emits_iff (by decide)).mpr (by decide +kernel)
  refine ⟨_, hemits, ?_⟩
  intro h
  exact absurd h.2.1 (by decide +kernel)

end Mean
end StatsdC
