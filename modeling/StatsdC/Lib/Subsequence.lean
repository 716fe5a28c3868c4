import Mathlib.Data.List.Nodup

/-!
# Subsequences by position

A list is given by the positions of its elements in another list: `Positions xs ps ys` says that
`ys` is what stands in `xs` at the positions `ps`, in the order of `ps`.  A program that records
what it took from a stream, and when, gives such a description of what it took.

If the positions increase, `ys` is a subsequence of `xs` (`Positions.sublist`).  The converse needs
the elements of `xs` to be distinct: an element then has one position only, and a subsequence
cannot have been taken in another order (`Positions.pairwise_of_sublist`).  Without that a list
with repetitions is a subsequence of itself in more ways than one, and the order of the positions
cannot be told from the elements.

Both lists grow at their ends in a run.  The description is kept when the stream goes on
(`Positions.append_right`) and when one more element is taken (`Positions.snoc`), and the
increasing order is checked at the new position alone (`pairwise_snoc`).
-/

namespace Subsequence
variable {α : Type*} {xs ys : List α} {ks : List Nat}

/-- The `ks` are the positions in `xs` of the elements of `ys`. -/
def Positions (xs ys : List α) (ks : List Nat) : Prop := ys.map some = ks.map (xs[·]?)

theorem Positions.nil (xs : List α) : Positions xs [] [] := rfl

theorem Positions.lt_length (h : Positions xs ys ks) : ∀ k ∈ ks, k < xs.length := by
  intro k hk
  have hmem : xs[k]? ∈ ys.map some := by
    rw [h]
    exact List.mem_map_of_mem hk
  obtain ⟨y, -, hy⟩ := List.mem_map.mp hmem
  exact (List.getElem?_eq_some_iff.mp hy.symm).1

/-- An element behind the others does not move them, so that the positions are the same. -/
theorem Positions.append_right (h : Positions xs ys ks) (x : α) : Positions (xs ++ [x]) ys ks := by
  unfold Positions
  rw [h]
  refine List.map_congr_left fun k hk => ?_
  rw [List.getElem?_append_left (h.lt_length k hk)]

theorem Positions.snoc (h : Positions xs ys ks) {k : Nat} {y : α} (hk : xs[k]? = some y) :
    Positions xs (ys ++ [y]) (ks ++ [k]) := by
  unfold Positions
  rw [List.map_append, List.map_append, h, List.map_singleton, List.map_singleton, hk]

/-- **Increasing positions make a subsequence**, by induction from the end. -/
theorem Positions.sublist (h : Positions xs ys ks) (hks : ks.Pairwise (· < ·)) :
    ys.Sublist xs := by
  have hlt := h.lt_length
  have hys : ys = (ks.pmap Fin.mk hlt).map (xs[·]) := by
    refine List.map_injective_iff.mpr (fun a b hab => Option.some.inj hab) ?_
    rw [h, List.map_map, List.map_pmap, ← List.pmap_eq_map (H := hlt)]
    refine List.pmap_congr_left _ fun k _ hk _ => ?_
    exact List.getElem?_eq_getElem hk
  rw [hys]
  refine List.map_getElem_sublist (List.Pairwise.pmap hks hlt fun i hi j hj hij => ?_)
  exact hij

/-- **Of distinct elements, a subsequence has increasing positions**, because an element tells its
position. -/
theorem Positions.pairwise_of_sublist (h : Positions xs ys ks) (hxs : xs.Nodup)
    (hys : ys.Sublist xs) : ks.Pairwise (· < ·) := by
  obtain ⟨is, rfl, his⟩ := List.sublist_eq_map_getElem hys
  have hlen : is.length = ks.length := by simpa using congrArg List.length h
  have hks : ks = is.map Fin.val := by
    refine List.ext_getElem (by rw [List.length_map, hlen]) fun j hj hj' => ?_
    have hget := congrArg (·[j]?) h
    have hjs : j < is.length := by omega
    simp only [List.getElem?_map, List.getElem?_eq_getElem hj, List.getElem?_eq_getElem hjs,
      Option.map_some] at hget
    rw [List.getElem_map]
    refine (List.getElem?_inj (h.lt_length _ (List.getElem_mem hj)) hxs).mp ?_
    rw [← Option.some.inj hget]
    exact (List.getElem?_eq_getElem is[j].isLt).symm
  rw [hks, List.pairwise_map]
  exact his

/-- Positions increase when one behind the last is added, since the last is the greatest. -/
theorem pairwise_snoc {j : Nat} (h : ks.Pairwise (· < ·)) (hj : ∀ k ∈ ks.getLast?, k < j) :
    (ks ++ [j]).Pairwise (· < ·) := by
  rw [List.pairwise_append]
  refine ⟨h, List.pairwise_singleton _ _, fun k hk j' hj' => ?_⟩
  obtain rfl := List.mem_singleton.mp hj'
  rcases List.eq_nil_or_concat ks with rfl | ⟨ks', last, rfl⟩
  · cases hk
  · rw [List.concat_eq_append] at h hj hk
    have hlast : last < j' := hj last List.getLast?_concat
    rcases List.mem_append.mp hk with hk | hk
    · have hle : k < last := (List.pairwise_append.mp h).2.2 k hk last (List.mem_singleton_self _)
      exact Nat.lt_trans hle hlast
    · exact List.mem_singleton.mp hk ▸ hlast

end Subsequence
