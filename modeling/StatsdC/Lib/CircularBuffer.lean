import Mathlib.Data.Nat.ModEq

/-!
# Circular buffers

A sequence held in `n` slots from a start position on, wrapping at the end.  `Holds n slots c xs`
says that the `k`-th slot after position `c` holds the `k`-th element of `xs`, and that the slots
after the last element are empty.  The start position is not reduced modulo `n`: it counts
everything ever taken out, and only the slot it points to is computed modulo `n`
(`Holds.start_mod`).

A push writes the slot behind the last element and needs a slot that is empty (`Holds.push`); a
pop empties the slot at the start (`Holds.pop`).  Whether there is anything in the buffer is read
off the slots (`Holds.all_none`, `Holds.exists_none_iff`), as programs do that keep no count of
their elements.

Without room a push overwrites the oldest element.  `Latest` describes the buffer in this case as
well.  It is about everything that was ever pushed: a slot that is not empty holds the latest
element that was written to it, whatever has become of the elements before.  A push makes its own
element the latest of its slot (`Latest.push`), and a slot may be emptied at any time
(`Latest.erase`).
-/

namespace CircularBuffer
variable {α : Type*} {n c : Nat} {slots : Nat → Option α} {xs : List α}

/-- The slots with slot `i` replaced, which is all that a store to the array does. -/
def write (slots : Nat → Option α) (i : Nat) (v : Option α) : Nat → Option α :=
  fun j => if j = i then v else slots j

@[simp] theorem write_self (i : Nat) (v : Option α) : write slots i v i = v := by simp [write]

theorem write_ne {i j : Nat} (h : j ≠ i) (v : Option α) : write slots i v j = slots j := by
  simp [write, h]

/-- The `n` slots hold the sequence `xs`, its first element at position `c`. -/
structure Holds (n : Nat) (slots : Nat → Option α) (c : Nat) (xs : List α) : Prop where
  fits : xs.length ≤ n
  slot : ∀ k, k < n → slots ((c + k) % n) = xs[k]?

/-- Two offsets less than the capacity apart are different slots. -/
theorem offset_ne {j k : Nat} (hj : j < n) (hk : k < n) (h : j ≠ k) :
    (c + j) % n ≠ (c + k) % n := by
  intro he
  have hmod : j % n = k % n := Nat.ModEq.add_left_cancel' c he
  rw [Nat.mod_eq_of_lt hj, Nat.mod_eq_of_lt hk] at hmod
  exact h hmod

/-- Every slot is some offset after the start. -/
theorem exists_offset {i : Nat} (hi : i < n) : ∃ k, k < n ∧ (c + k) % n = i := by
  refine ⟨(i + (n - c % n)) % n, Nat.mod_lt _ (by omega), ?_⟩
  have hc : c % n < n := Nat.mod_lt _ (by omega)
  calc (c + (i + (n - c % n)) % n) % n
      = (c % n + (i + (n - c % n))) % n := by rw [Nat.add_mod_mod, ← Nat.mod_add_mod]
    _ = (i + n) % n := by rw [show c % n + (i + (n - c % n)) = i + n by omega]
    _ = i := by rw [Nat.add_mod_right, Nat.mod_eq_of_lt hi]

theorem Holds.empty (n c : Nat) : Holds n (fun _ => (none : Option α)) c [] :=
  ⟨Nat.zero_le n, fun k _ => by simp⟩

/-- The start position counts modulo the capacity. -/
theorem Holds.start_mod (h : Holds n slots c xs) : Holds n slots (c % n) xs :=
  ⟨h.fits, fun k hk => by rw [Nat.mod_add_mod, h.slot k hk]⟩

/-- The slot at the start holds the first element. -/
theorem Holds.head (h : Holds n slots c xs) (hn : 0 < n) : slots (c % n) = xs[0]? := by
  simpa using h.slot 0 hn

/-- The slot at the start is empty only when every slot is. -/
theorem Holds.all_none (h : Holds n slots c xs) (hn : 0 < n) (hc : slots (c % n) = none)
    {i : Nat} (hi : i < n) : slots i = none := by
  rw [h.head hn, List.getElem?_eq_none_iff, Nat.le_zero, List.length_eq_zero_iff] at hc
  obtain ⟨k, hk, rfl⟩ := exists_offset (c := c) hi
  rw [h.slot k hk, hc, List.getElem?_nil]

/-- Some slot is empty exactly when there is room. -/
theorem Holds.exists_none_iff (h : Holds n slots c xs) :
    (∃ i, i < n ∧ slots i = none) ↔ xs.length < n := by
  constructor
  · rintro ⟨i, hi, hnone⟩
    obtain ⟨k, hk, rfl⟩ := exists_offset (c := c) hi
    rw [h.slot k hk, List.getElem?_eq_none_iff] at hnone
    omega
  · intro hlt
    exact ⟨(c + xs.length) % n, Nat.mod_lt _ (by omega), by rw [h.slot _ hlt]; simp⟩

/-- Writing the slot after the last element appends, as long as that slot is not in use. -/
theorem Holds.push (h : Holds n slots c xs) (hlt : xs.length < n) (x : α) :
    Holds n (write slots ((c + xs.length) % n) (some x)) c (xs ++ [x]) := by
  refine ⟨by simp; omega, fun k hk => ?_⟩
  by_cases hkx : k = xs.length
  · subst k
    simp
  · rw [write_ne (offset_ne hk hlt hkx), h.slot k hk, List.getElem?_append]
    split
    · rfl
    · rw [List.getElem?_eq_none (by omega), List.getElem?_eq_none (by simp; omega)]

/-- Emptying the slot at the start removes the first element, and the others keep their slots. -/
theorem Holds.pop {x : α} (h : Holds n slots c (x :: xs)) :
    Holds n (write slots (c % n) none) (c + 1) xs := by
  have hlen : xs.length + 1 ≤ n := h.fits
  refine ⟨by omega, fun k hk => ?_⟩
  by_cases hlast : k + 1 = n
  · have hslot : (c + 1 + k) % n = c % n := by
      rw [show c + 1 + k = c + n by omega, Nat.add_mod_right]
    rw [hslot, write_self, List.getElem?_eq_none (by omega)]
  · have hne : (c + (k + 1)) % n ≠ (c + 0) % n := offset_ne (by omega) (by omega) (by omega)
    rw [show c + 1 + k = c + (k + 1) by omega, write_ne (by simpa using hne),
      h.slot (k + 1) (by omega), List.getElem?_cons_succ]

/-! ## Overwriting

Elements that are written one behind the other whether or not the slot is free. -/

/-- Element `k` of `xs` was written to slot `k % n`, and a slot that is not empty
holds the latest one written to it. -/
def Latest (n : Nat) (slots : Nat → Option α) (xs : List α) : Prop :=
  ∀ i, i < n → ∀ x, slots i = some x →
    ∃ k, k % n = i ∧ k < xs.length ∧ xs.length ≤ k + n ∧ xs[k]? = some x

theorem Latest.empty (n : Nat) : Latest n (fun _ => (none : Option α)) [] := by
  rintro i - x ⟨⟩

/-- The next element overwrites what is in its slot, whether or not that has been returned. -/
theorem Latest.push (h : Latest n slots xs) (x : α) :
    Latest n (write slots (xs.length % n) (some x)) (xs ++ [x]) := by
  intro i hi y hy
  rw [List.length_append, List.length_singleton]
  by_cases hix : i = xs.length % n
  · subst hix
    rw [write_self] at hy
    obtain rfl := Option.some.inj hy
    exact ⟨xs.length, rfl, by omega, by omega, List.getElem?_concat_length⟩
  · rw [write_ne hix] at hy
    obtain ⟨k, hk, hlt, hle, hget⟩ := h i hi y hy
    have hne : xs.length ≠ k + n := by
      intro heq
      rw [heq, Nat.add_mod_right] at hix
      exact hix hk.symm
    exact ⟨k, hk, by omega, by omega, by rw [List.getElem?_append_left hlt, hget]⟩

/-- A slot can be emptied. -/
theorem Latest.erase (h : Latest n slots xs) (i : Nat) : Latest n (write slots i none) xs := by
  intro j hj x hx
  by_cases hji : j = i
  · rw [hji, write_self] at hx
    cases hx
  · rw [write_ne hji] at hx
    exact h j hj x hx

end CircularBuffer
