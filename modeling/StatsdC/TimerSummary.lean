import StatsdC.Flush

/-!
# Sorting and summing up a timer

`utarray_sort` with `double_sort` leaves the samples in their order, and so depends on the samples
alone, not on the order in which they came (`utarraySort_eq_of_perm`).  For this `double_sort` has
to be a linear order, which it is on numbers that all compare; the lemmas are about a type with a
linear order, and a NaN is in no such type.  What they need of the sort is that it is sorted and
that it keeps every sample (`pairwise_utarraySort`, `perm_utarraySort`).

The loop over the sorted samples finds the least and the greatest, with the flags for the first
round that the program has (`minMax_spec`).  These are what is reported as lower and upper
(`summary_bounds`), whether the timer has one sample or many: the program has a path of its own
for a timer with one sample, and both paths are covered.

The results are used by two modules with different aims.  `StatsdC.Reordering` needs that the
summary is the same for a permutation of the samples, and `StatsdC.TimerStatistics` computes the
mean and the percentile value from the sorted samples.
-/

namespace StatsdC

section Sorting
variable {α : Type} [LinearOrder α]

/-- The order of `double_sort` is the order of the values, on a type in which any two compare. -/
theorem doubleSort_nonpos_iff {a b : α} : doubleSort a b ≤ 0 ↔ a ≤ b := by
  unfold doubleSort
  rcases lt_trichotomy a b with hlt | heq | hgt
  · simp [hlt.ne, hlt, hlt.le]
  · simp [heq]
  · simp [hgt.ne', hgt.not_gt, hgt.not_ge]

theorem utarraySort_eq (values : List α) : utarraySort values = values.insertionSort (· ≤ ·) := by
  unfold utarraySort
  simp only [doubleSort_nonpos_iff]

/-- What `utarray_sort` leaves is sorted. -/
theorem pairwise_utarraySort (values : List α) : (utarraySort values).Pairwise (· ≤ ·) := by
  rw [utarraySort_eq]
  exact List.pairwise_insertionSort (· ≤ ·) values

/-- The sort keeps every sample. -/
theorem perm_utarraySort (values : List α) : (utarraySort values).Perm values :=
  List.perm_insertionSort _ _

theorem length_utarraySort (values : List α) : (utarraySort values).length = values.length :=
  (perm_utarraySort values).length_eq

/-- **The sort is canonical**: the order of arrival does not matter, since two sorted arrays of the
same samples are equal. -/
theorem utarraySort_eq_of_perm {values values' : List α} (h : values.Perm values') :
    utarraySort values = utarraySort values' := by
  have hperm : (utarraySort values).Perm (utarraySort values') :=
    (perm_utarraySort values).trans (h.trans (perm_utarraySort values').symm)
  refine hperm.eq_of_pairwise ?_ (pairwise_utarraySort values) (pairwise_utarraySort values')
  intro a b _ _ hab hba
  exact le_antisymm hab hba

end Sorting

section MinMax
variable {α : Type} [LinearOrder α] [Zero α]

omit [Zero α] in
/-- One round of the loop keeps the least and the greatest of the values seen so far. -/
theorem minMax_foldl (xs : List α) (lo hi : α) (h : lo ≤ hi) :
    let m := xs.foldl (fun m i => (if i < m.1 then i else m.1, if m.2 < i then i else m.2)) (lo, hi)
    (m.1 = lo ∨ m.1 ∈ xs) ∧ (m.2 = hi ∨ m.2 ∈ xs) ∧ m.1 ≤ lo ∧ hi ≤ m.2 ∧
      ∀ x ∈ xs, m.1 ≤ x ∧ x ≤ m.2 := by
  induction xs generalizing lo hi with
  | nil => exact ⟨.inl rfl, .inl rfl, le_refl _, le_refl _, by rintro x ⟨⟩⟩
  | cons a xs ih =>
    -- the two tests compute a minimum and a maximum
    have hlo : (if a < lo then a else lo) = min a lo := by
      rcases lt_or_ge a lo with ha | ha
      · rw [if_pos ha, min_eq_left ha.le]
      · rw [if_neg ha.not_gt, min_eq_right ha]
    have hhi : (if hi < a then a else hi) = max a hi := by
      rcases lt_or_ge hi a with ha | ha
      · rw [if_pos ha, max_eq_left ha.le]
      · rw [if_neg ha.not_gt, max_eq_right ha]
    have hle : min a lo ≤ max a hi := (min_le_left a lo).trans (le_max_left a hi)
    have hrec := ih (min a lo) (max a hi) hle
    rw [List.foldl_cons]
    simp only [hlo, hhi]
    simp only at hrec
    generalize xs.foldl (fun m i => (if i < m.1 then i else m.1, if m.2 < i then i else m.2))
      (min a lo, max a hi) = m at hrec
    obtain ⟨hmin, hmax, hminLe, hmaxGe, hall⟩ := hrec
    refine ⟨?_, ?_, hminLe.trans (min_le_right a lo), (le_max_right a hi).trans hmaxGe, ?_⟩
    · rcases hmin with hmin | hmin
      · rcases min_choice a lo with hc | hc
        · exact .inr (List.mem_cons.mpr (.inl (hmin.trans hc)))
        · exact .inl (hmin.trans hc)
      · exact .inr (List.mem_cons_of_mem _ hmin)
    · rcases hmax with hmax | hmax
      · rcases max_choice a hi with hc | hc
        · exact .inr (List.mem_cons.mpr (.inl (hmax.trans hc)))
        · exact .inl (hmax.trans hc)
      · exact .inr (List.mem_cons_of_mem _ hmax)
    · intro x hx
      rcases List.mem_cons.mp hx with rfl | hx
      · exact ⟨hminLe.trans (min_le_left x lo), (le_max_left x hi).trans hmaxGe⟩
      · exact hall x hx

/-- **The least and the greatest sample** are samples, and all others are between them. -/
theorem minMax_spec {values : List α} (hne : values ≠ []) :
    (minMax values).1 ∈ values ∧ (minMax values).2 ∈ values ∧
      ∀ x ∈ values, (minMax values).1 ≤ x ∧ x ≤ (minMax values).2 := by
  rcases values with _ | ⟨a, xs⟩
  · exact absurd rfl hne
  · obtain ⟨hmin, hmax, hminLe, hmaxGe, hall⟩ := minMax_foldl xs a a (le_refl a)
    refine ⟨List.mem_cons.mpr hmin, List.mem_cons.mpr hmax, fun x hx => ?_⟩
    rcases List.mem_cons.mp hx with rfl | hx
    · exact ⟨hminLe, hmaxGe⟩
    · exact hall x hx

end MinMax

section Summary
variable {α : Type} [Field α] [LinearOrder α]

/-- The least and the greatest sample are reported as they are. -/
theorem summary_bounds {firstByte : α → Int} {pctThreshold : Int} {values : List α}
    {summary : TimerSummary α} (hne : values ≠ [])
    (h : summarize firstByte pctThreshold values.length (utarraySort values) = .ok summary) :
    IsLeast { x | x ∈ values } summary.min ∧ IsGreatest { x | x ∈ values } summary.max := by
  have hsorted : utarraySort values ≠ [] := fun hnil =>
    hne (by simpa [hnil] using (perm_utarraySort values).symm)
  obtain ⟨hmin, hmax, hall⟩ := minMax_spec hsorted
  have hmem : ∀ x, x ∈ utarraySort values ↔ x ∈ values := fun x =>
    (perm_utarraySort values).mem_iff
  have hminMax : summary.min = (minMax (utarraySort values)).1 ∧
      summary.max = (minMax (utarraySort values)).2 := by
    unfold summarize at h
    simp only at h
    split at h
    · split at h
      · cases h
      · rw [← Except.ok.inj h]
        exact ⟨rfl, rfl⟩
    · rw [← Except.ok.inj h]
      exact ⟨rfl, rfl⟩
  rw [hminMax.1, hminMax.2]
  exact ⟨⟨(hmem _).mp hmin, fun x hx => (hall x ((hmem x).mpr hx)).1⟩,
    ⟨(hmem _).mp hmax, fun x hx => (hall x ((hmem x).mpr hx)).2⟩⟩

end Summary
end StatsdC
