import Mathlib.Data.Finset.Card
import StatsdC.Lib.CircularBuffer

/-!
# Open addressing

A table of slots in which an entry stands at its hash position or behind it, where the slots
follow each other in a circle.  A slot whose entry was taken out is `freed`, which a search passes
and an insertion may use again; only an `empty` slot ends a search.

A search is a loop that goes on for ever when no slot ends it.  `probe` runs it for a number of
slots, and as many as the table has are enough (`probe_eq_none`): after one round without an end
there is none, and the loop of the program does not return.

`Placed` is the invariant of the tables: nothing on the way from the hash position of an entry to
its slot is empty, and no key has two slots.  An insertion into the first slot that is not in use
keeps it (`Placed.insert`), and so does taking an entry out, because it does not make a slot empty
again (`Placed.free`).  A search that ends finds the entry of its key, if there is one
(`Placed.search_eq_some`).

That an insertion ends needs a slot that is not in use (`exists_vacancy`), and that a search for a
missing key ends needs one that is empty (`search_ne_none_iff`).  These are different conditions
once entries have been taken out, and a table that counts only what is in use ensures the first and
not the second.
-/

namespace OpenAddressing
open CircularBuffer

/-- A slot: never used, used and given back, or in use. -/
inductive Slot (ε : Type) where
  | empty
  | freed
  | entry (e : ε)

/-- The slot behind `n`, which for the last one is the first. -/
def next (size n : Nat) : Nat := if n + 1 = size then 0 else n + 1

/-- The first slot that `stop` accepts, of at most `fuel` slots from `n` on. -/
def probe (size : Nat) (stop : Nat → Bool) : Nat → Nat → Option Nat
  | 0, _ => none
  | fuel + 1, n => if stop n then some n else probe size stop fuel (next size n)

section Probe
variable {size n i fuel : Nat} {stop : Nat → Bool}

theorem next_eq_mod (hn : n < size) : next size n = (n + 1) % size := by
  unfold next
  split
  · rename_i h
    rw [h, Nat.mod_self]
  · exact (Nat.mod_eq_of_lt (by omega)).symm

theorem next_lt (hn : n < size) : next size n < size := by
  rw [next_eq_mod hn]
  exact Nat.mod_lt _ (by omega)

/-- The slots from the next one on. -/
theorem next_add_mod (hn : n < size) (j : Nat) :
    (next size n + j) % size = (n + (j + 1)) % size := by
  rw [next_eq_mod hn, Nat.mod_add_mod, Nat.add_right_comm, Nat.add_assoc]

/-- **What a search finds**: the first slot that ends it, counted from its start. -/
theorem probe_eq_some_iff (hn : n < size) :
    probe size stop fuel n = some i ↔
      ∃ k < fuel, (n + k) % size = i ∧ stop i = true ∧ ∀ j < k, stop ((n + j) % size) = false := by
  induction fuel generalizing n with
  | zero => simp [probe]
  | succ fuel ih =>
    have hzero : (n + 0) % size = n := Nat.mod_eq_of_lt hn
    rw [probe]
    by_cases hstop : stop n = true
    · rw [if_pos hstop, Option.some_inj]
      constructor
      · rintro rfl
        exact ⟨0, Nat.succ_pos fuel, hzero, hstop, nofun⟩
      · rintro ⟨k, -, rfl, -, hbefore⟩
        cases k with
        | zero => exact hzero.symm
        | succ k =>
          have hfirst := hbefore 0 (Nat.succ_pos k)
          rw [hzero, hstop] at hfirst
          cases hfirst
    · rw [if_neg hstop, ih (next_lt hn)]
      constructor
      · rintro ⟨k, hk, rfl, hi, hbefore⟩
        refine ⟨k + 1, Nat.succ_lt_succ hk, (next_add_mod hn k).symm, hi, fun j hj => ?_⟩
        cases j with
        | zero => rwa [hzero, Bool.eq_false_iff]
        | succ j =>
          rw [← next_add_mod hn j]
          exact hbefore j (Nat.lt_of_succ_lt_succ hj)
      · rintro ⟨k, hk, rfl, hi, hbefore⟩
        cases k with
        | zero =>
          rw [hzero] at hi
          exact absurd hi hstop
        | succ k =>
          refine ⟨k, Nat.lt_of_succ_lt_succ hk, next_add_mod hn k, hi, fun j hj => ?_⟩
          rw [next_add_mod hn j]
          exact hbefore (j + 1) (Nat.succ_lt_succ hj)

/-- A search that is not ended goes through all of its slots, and finds none that `stop` accepts. -/
theorem probe_eq_none_iff (hn : n < size) :
    probe size stop fuel n = none ↔ ∀ k < fuel, stop ((n + k) % size) = false := by
  induction fuel generalizing n with
  | zero => simp [probe]
  | succ fuel ih =>
    have hzero : (n + 0) % size = n := Nat.mod_eq_of_lt hn
    rw [probe]
    constructor
    · intro h k hk
      split at h
      · cases h
      · rename_i hstop
        cases k with
        | zero => rwa [hzero, Bool.eq_false_iff]
        | succ k =>
          rw [← next_add_mod hn k]
          exact (ih (next_lt hn)).mp h k (Nat.lt_of_succ_lt_succ hk)
    · intro h
      have hstop := h 0 (Nat.succ_pos fuel)
      rw [hzero] at hstop
      rw [if_neg (by rw [hstop]; exact Bool.false_ne_true)]
      refine (ih (next_lt hn)).mpr fun k hk => ?_
      rw [next_add_mod hn k]
      exact h (k + 1) (Nat.succ_lt_succ hk)

/-- **A search that does not end in one turn** meets no slot that would end it, however
long it goes on. -/
theorem probe_eq_none (hn : n < size) (h : probe size stop size n = none) (fuel : Nat) :
    probe size stop fuel n = none := by
  rw [probe_eq_none_iff hn] at h ⊢
  intro k _
  have hk := h (k % size) (Nat.mod_lt _ (by omega))
  rwa [Nat.add_mod_mod] at hk

/-- A slot that would end it is found, or another before it. -/
theorem exists_probe (hn : n < size) (hi : i < size) (hstop : stop i = true) :
    ∃ j, probe size stop size n = some j := by
  rw [← Option.isSome_iff_exists, ← Option.ne_none_iff_isSome]
  intro hnone
  obtain ⟨k, hk, rfl⟩ := exists_offset (c := n) hi
  have hfalse := (probe_eq_none_iff hn).mp hnone k hk
  rw [hstop] at hfalse
  cases hfalse

theorem probe_lt (hn : n < size) (h : probe size stop fuel n = some i) :
    i < size ∧ stop i = true := by
  obtain ⟨k, -, rfl, hstop, -⟩ := (probe_eq_some_iff hn).mp h
  exact ⟨Nat.mod_lt _ (by omega), hstop⟩

end Probe

variable {ε κ : Type} {size : Nat} {hash : κ → Nat} {keyOf : ε → κ} {table : Nat → Slot ε}

/-- The entry in a slot. -/
def Slot.toOption : Slot ε → Option ε
  | .entry e => some e
  | .empty | .freed => none

/-- A slot that an insertion may use. -/
def Slot.isVacant : Slot ε → Bool
  | .empty | .freed => true
  | .entry _ => false

/-- A slot that ends the search for a key: an empty one, or the key's own. -/
def Slot.ends [DecidableEq κ] (keyOf : ε → κ) (k : κ) : Slot ε → Bool
  | .empty => true
  | .freed => false
  | .entry e => keyOf e = k

/-- **The invariant**: every entry is met on the way from its hash position, before any
empty slot, and keys are unique. -/
structure Placed (size : Nat) (hash : κ → Nat) (keyOf : ε → κ) (table : Nat → Slot ε) :
    Prop where
  met : ∀ i < size, ∀ e, table i = .entry e → ∃ k < size, (hash (keyOf e) + k) % size = i ∧
    ∀ j < k, table ((hash (keyOf e) + j) % size) ≠ .empty
  unique : ∀ i < size, ∀ j < size, ∀ e e', table i = .entry e → table j = .entry e' →
    keyOf e = keyOf e' → i = j

theorem placed_empty : Placed size hash keyOf fun _ => (.empty : Slot ε) := ⟨nofun, nofun⟩

/-- The slot that the search for a key ends at: that of the key, or an empty one. -/
def search [DecidableEq κ] (size : Nat) (hash : κ → Nat) (keyOf : ε → κ) (table : Nat → Slot ε)
    (k : κ) : Option Nat :=
  probe size (fun n => (table n).ends keyOf k) size (hash k % size)

/-- The slot that an insertion uses, the first vacant one from the hash on. -/
def vacancy (size : Nat) (hash : κ → Nat) (table : Nat → Slot ε) (k : κ) : Option Nat :=
  probe size (fun n => (table n).isVacant) size (hash k % size)

theorem hash_mod_lt {i : Nat} (hi : i < size) (k : κ) : hash k % size < size :=
  Nat.mod_lt _ (by omega)

section Search
variable [DecidableEq κ] {i : Nat} {e : ε} {k : κ}

/-- **An entry is found** by its key. -/
theorem Placed.search_eq_some (h : Placed size hash keyOf table) (hi : i < size)
    (he : table i = .entry e) : search size hash keyOf table (keyOf e) = some i := by
  obtain ⟨k, hk, hmod, hbefore⟩ := h.met i hi e he
  refine (probe_eq_some_iff (hash_mod_lt hi _)).mpr ⟨k, hk, ?_, ?_, fun j hj => ?_⟩
  · rwa [Nat.mod_add_mod]
  · simp [he, Slot.ends]
  · rw [Nat.mod_add_mod]
    have hlt : (hash (keyOf e) + j) % size < size := Nat.mod_lt _ (by omega)
    cases hslot : table ((hash (keyOf e) + j) % size) with
    | empty => exact absurd hslot (hbefore j hj)
    | freed => rfl
    | entry e' =>
      simp only [Slot.ends, decide_eq_false_iff_not]
      intro hkey
      have hsame := h.unique _ hlt i hi e' e hslot he hkey
      exact offset_ne (by omega) hk (Nat.ne_of_lt hj) (hsame.trans hmod.symm)

/-- The slot that a search ends at is the key's, or an empty one. -/
theorem search_cases (hi : i < size) (h : search size hash keyOf table k = some i) :
    table i = .empty ∨ ∃ e, table i = .entry e ∧ keyOf e = k := by
  obtain ⟨-, hstop⟩ := probe_lt (hash_mod_lt hi k) h
  cases hslot : table i with
  | empty => exact .inl rfl
  | freed => simp [hslot, Slot.ends] at hstop
  | entry e => exact .inr ⟨e, rfl, by simpa [hslot, Slot.ends] using hstop⟩

/-- **The search for a missing key** ends exactly if some slot is empty. -/
theorem search_ne_none_iff (hsize : 0 < size)
    (hk : ∀ i < size, ∀ e, table i = .entry e → keyOf e ≠ k) :
    search size hash keyOf table k ≠ none ↔ ∃ i < size, table i = .empty := by
  have hn : hash k % size < size := Nat.mod_lt _ hsize
  constructor
  · intro hne
    obtain ⟨i, hi⟩ := Option.ne_none_iff_exists'.mp hne
    obtain ⟨hlt, -⟩ := probe_lt hn hi
    rcases search_cases hlt hi with hempty | ⟨e, he, hkey⟩
    · exact ⟨i, hlt, hempty⟩
    · exact absurd hkey (hk i hlt e he)
  · rintro ⟨i, hi, hempty⟩
    obtain ⟨j, hj⟩ : ∃ j, search size hash keyOf table k = some j :=
      exists_probe hn hi (by simp [hempty, Slot.ends])
    rw [hj]
    exact Option.some_ne_none j

end Search

section Change
variable {i : Nat} {e : ε}

/-- A vacant slot is found if there is one. -/
theorem exists_vacancy (hi : i < size) (hslot : (table i).isVacant = true) (k : κ) :
    ∃ j, vacancy size hash table k = some j :=
  exists_probe (hash_mod_lt hi k) hi hslot

/-- **An insertion** of a new key, at the first vacant slot, keeps the invariant. -/
theorem Placed.insert (h : Placed size hash keyOf table)
    (hnew : ∀ i < size, ∀ e', table i = .entry e' → keyOf e' ≠ keyOf e) (hsize : 0 < size)
    (hi : vacancy size hash table (keyOf e) = some i) :
    Placed size hash keyOf (Function.update table i (.entry e)) := by
  obtain ⟨k, hk, hmod, -, hbefore⟩ := (probe_eq_some_iff (Nat.mod_lt _ hsize)).mp hi
  have hstays : ∀ {n}, table n ≠ .empty → Function.update table i (.entry e) n ≠ .empty := by
    intro n hn
    by_cases hni : n = i
    · rw [hni, Function.update_self]
      exact nofun
    · rwa [Function.update_of_ne hni]
  refine ⟨fun j hj e' he' => ?_, fun j hj j' hj' a b ha hb hab => ?_⟩
  · by_cases hji : j = i
    · rw [hji, Function.update_self] at he'
      obtain rfl := Slot.entry.inj he'
      refine ⟨k, hk, by rw [hji, ← hmod, Nat.mod_add_mod], fun m hm => hstays ?_⟩
      -- what the insertion passed was in use
      have hpassed := hbefore m hm
      rw [Nat.mod_add_mod] at hpassed
      intro hempty
      simp [hempty, Slot.isVacant] at hpassed
    · rw [Function.update_of_ne hji] at he'
      obtain ⟨m, hm, hmod', hbefore'⟩ := h.met j hj e' he'
      exact ⟨m, hm, hmod', fun n hn => hstays (hbefore' n hn)⟩
  · by_cases hji : j = i <;> by_cases hji' : j' = i
    · rw [hji, hji']
    · rw [hji, Function.update_self] at ha
      rw [Function.update_of_ne hji'] at hb
      obtain rfl := Slot.entry.inj ha
      exact absurd hab.symm (hnew j' hj' b hb)
    · rw [hji', Function.update_self] at hb
      rw [Function.update_of_ne hji] at ha
      obtain rfl := Slot.entry.inj hb
      exact absurd hab (hnew j hj a ha)
    · rw [Function.update_of_ne hji] at ha
      rw [Function.update_of_ne hji'] at hb
      exact h.unique j hj j' hj' a b ha hb hab

/-- **Giving a slot back** keeps the invariant, since a search does not stop at it. -/
theorem Placed.free (h : Placed size hash keyOf table) (i : Nat) :
    Placed size hash keyOf (Function.update table i .freed) := by
  have hentry : ∀ {n a}, Function.update table i (.freed : Slot ε) n = .entry a →
      table n = .entry a := by
    intro n a hn
    by_cases hni : n = i
    · rw [hni, Function.update_self] at hn
      cases hn
    · rwa [Function.update_of_ne hni] at hn
  refine ⟨fun j hj a ha => ?_, fun j hj j' hj' a b ha hb hab =>
    h.unique j hj j' hj' a b (hentry ha) (hentry hb) hab⟩
  obtain ⟨k, hk, hmod, hbefore⟩ := h.met j hj a (hentry ha)
  refine ⟨k, hk, hmod, fun m hm hempty => ?_⟩
  by_cases hmi : (hash (keyOf a) + m) % size = i
  · rw [hmi, Function.update_self] at hempty
    cases hempty
  · rw [Function.update_of_ne hmi] at hempty
    exact hbefore m hm hempty

end Change

/-- Of fewer than `size` slots in use, one is not. -/
theorem exists_vacant {used : List Nat} (hused : used.length < size)
    (hall : ∀ i < size, ∀ e, table i = .entry e → i ∈ used) :
    ∃ i < size, (table i).isVacant = true := by
  by_contra hnone
  have hsub : Finset.range size ⊆ used.toFinset := by
    intro i hi
    rw [Finset.mem_range] at hi
    rw [List.mem_toFinset]
    cases hslot : table i with
    | empty => exact absurd ⟨i, hi, by rw [hslot]; rfl⟩ hnone
    | freed => exact absurd ⟨i, hi, by rw [hslot]; rfl⟩ hnone
    | entry e => exact hall i hi e hslot
  have hcard := (Finset.card_le_card hsub).trans used.toFinset_card_le
  rw [Finset.card_range] at hcard
  omega

end OpenAddressing
