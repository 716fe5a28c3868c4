import Mathlib.Data.List.Find
import Mathlib.Logic.Function.Basic

/-!
# Hash tables with chains

A table of `n` chains, in which an item is in the chain that its hash value selects.  `Chained`
says that the chains hold a list of items, each chain in an order of its own: an item is put in
front of its chain (`Chained.push`), and a table with more chains is filled from the chains of the
old one (`Chained.redistribute`), in whatever order they are gone through.  So the list stands for
the table up to the order inside the chains, and the contents are a permutation of it
(`Chained.contents_perm`).

The order of a chain does not matter to a search whose item is unique: what a search of one chain
finds is what a search of the whole list finds (`Chained.find?_eq`).  This is the only fact about
lookups that a table needs.

Nothing is said here about hash functions, except that a search uses the one that the insertions
used.  When a table is to be expanded is a question for its user, and so are the sizes of the
counters that a particular implementation keeps beside its chains.
-/

namespace ChainedHash
variable {η : Type} {n m b : Nat} {hash : η → Nat} {chains : Nat → List η} {items : List η} {x : η}

/-- **The invariant**: every chain holds the items that its number is selected for. -/
def Chained (n : Nat) (hash : η → Nat) (chains : Nat → List η) (items : List η) : Prop :=
  ∀ b < n, (chains b).Perm (items.filter fun x => hash x % n = b)

/-- An item in front of its chain, which its hash value selects. -/
def push (n : Nat) (hash : η → Nat) (chains : Nat → List η) (x : η) : Nat → List η :=
  Function.update chains (hash x % n) (x :: chains (hash x % n))

/-- The items of a table, chain by chain. -/
def contents (n : Nat) (chains : Nat → List η) : List η := (List.range n).flatMap chains

theorem chained_nil : Chained n hash (fun _ => []) [] := fun _ _ => .refl _

theorem Chained.push (h : Chained n hash chains items) (x : η) :
    Chained n hash (push n hash chains x) (items ++ [x]) := by
  intro b hb
  rw [List.filter_append, ChainedHash.push]
  by_cases hx : hash x % n = b
  · subst hx
    rw [Function.update_self, List.filter_cons_of_pos (by simp), List.filter_nil]
    exact ((h _ hb).cons x).trans (List.perm_append_singleton x _).symm
  · rw [Function.update_of_ne (Ne.symm hx), List.filter_cons_of_neg (by simpa using hx),
      List.filter_nil, List.append_nil]
    exact h b hb

/-- Items one after another, each in front of its chain. -/
theorem Chained.pushAll (h : Chained n hash chains items) (xs : List η) :
    Chained n hash (xs.foldl (ChainedHash.push n hash) chains) (items ++ xs) := by
  induction xs generalizing chains items with
  | nil => rwa [List.append_nil]
  | cons x xs ih =>
    rw [List.append_cons]
    exact ih (h.push x)

/-- The order of the items does not matter, only which of them there are. -/
theorem Chained.perm {items' : List η} (h : Chained n hash chains items) (hp : items.Perm items') :
    Chained n hash chains items' := fun b hb => (h b hb).trans (hp.filter _)

/-- The items of the chains below `m` are those whose chain is below `m`. -/
theorem Chained.flatMap_perm (h : Chained n hash chains items) (hm : m ≤ n) :
    ((List.range m).flatMap chains).Perm (items.filter fun x => hash x % n < m) := by
  induction m with
  | zero => simp
  | succ m ih =>
    rw [List.range_succ, List.flatMap_append, List.flatMap_singleton]
    -- those whose chain is `m` go behind those whose chain is below
    have hsplit := List.filter_append_perm (fun x => decide (hash x % n < m))
      (items.filter fun x => hash x % n < m + 1)
    rw [List.filter_filter, List.filter_filter] at hsplit
    have hbelow : (items.filter fun x => decide (hash x % n < m) && decide (hash x % n < m + 1)) =
        items.filter fun x => hash x % n < m := by
      refine List.filter_congr fun x _ => ?_
      rw [← Bool.decide_and]
      exact decide_eq_decide.mpr (by omega)
    have hlast : (items.filter fun x => !decide (hash x % n < m) && decide (hash x % n < m + 1)) =
        items.filter fun x => hash x % n = m := by
      refine List.filter_congr fun x _ => ?_
      rw [← decide_not, ← Bool.decide_and]
      exact decide_eq_decide.mpr (by omega)
    rw [hbelow, hlast] at hsplit
    exact ((ih (Nat.le_of_succ_le hm)).append (h m hm)).trans hsplit

/-- **The chains hold the items**, all of them and nothing else. -/
theorem Chained.contents_perm (h : Chained n hash chains items) (hn : 0 < n) :
    (contents n chains).Perm items := by
  have hall : (items.filter fun x => hash x % n < n) = items :=
    List.filter_eq_self.mpr fun x _ => decide_eq_true (Nat.mod_lt _ hn)
  have hp := h.flatMap_perm (Nat.le_refl n)
  rwa [hall] at hp

/-- **Redistribution**: a table filled from the chains of another holds the same items. -/
theorem Chained.redistribute (h : Chained n hash chains items) (hn : 0 < n) (m : Nat) :
    Chained m hash ((contents n chains).foldl (ChainedHash.push m hash) fun _ => []) items :=
  (chained_nil.pushAll (contents n chains)).perm (h.contents_perm hn)

/-- **A search** in the chain that is selected for its items finds what is in the table. -/
theorem Chained.find?_eq {p : η → Bool} (h : Chained n hash chains items) (hb : b < n)
    (hhash : ∀ x ∈ items, p x = true → hash x % n = b)
    (hunique : ∀ x ∈ items, ∀ y ∈ items, p x = true → p y = true → x = y) :
    (chains b).find? p = items.find? p := by
  have hmem : ∀ {x}, x ∈ chains b → x ∈ items := fun hx =>
    (List.mem_filter.mp ((h b hb).mem_iff.mp hx)).1
  have hsub : {x ∈ chains b | p x}.Subsingleton := fun x hx y hy =>
    hunique x (hmem hx.1) y (hmem hy.1) hx.2 hy.2
  rw [List.find?_eq_find?_of_perm (h b hb) hsub, List.find?_filter]
  refine List.find?_congr fun x hx => ?_
  by_cases hpx : p x = true
  · simp [hpx, hhash x hx hpx]
  · simp [hpx]

end ChainedHash
