import StatsdC.Lib.OrderedTable

/-!
# Upserts

Updates of an ordered table that change the entry with their key, or append a new one if there is
none.  An `Upsert` is the key, the change and the new entry, and `applyAll` applies a list of them
one after another.  The entries may be anything with a key that a change leaves alone.

What a sequence of upserts leaves is the order in which its keys came (`map_applyAll_congr`) and,
for each key, what its own upserts make of the entry, in their order (`entryAfter`).  Two sequences
with the same keys, of which each key's upserts make the same of its entry, leave the same table
(`applyAll_congr`): how the changes of different keys are interleaved does not matter.

Where only what is found under each key matters, and not the order of the table, the first
condition is not needed: `lookup_applyAll` computes the entry of a key from the upserts of that key
alone.  The converse holds from an empty table on (`entryAfter_none_congr`): the table that is left
tells what became of each key.
-/

namespace OrderedTable

variable {ε κ : Type} [DecidableEq κ] {keyOf : ε → κ}

/-- Two tables with the same keys in the same order and the same entry under each. -/
theorem eq_of_lookup {table table' : List ε} (hnd : (table.map keyOf).Nodup)
    (hkeys : table.map keyOf = table'.map keyOf)
    (h : ∀ k, lookup keyOf table k = lookup keyOf table' k) : table = table' := by
  refine List.ext_getElem? fun i => ?_
  have hkey : (table.map keyOf)[i]? = (table'.map keyOf)[i]? := by rw [hkeys]
  rw [List.getElem?_map, List.getElem?_map] at hkey
  cases he : table[i]? with
  | none =>
    rw [he, Option.map_none, eq_comm, Option.map_eq_none_iff] at hkey
    exact hkey.symm
  | some e =>
    rw [he, Option.map_some, eq_comm, Option.map_eq_some_iff] at hkey
    obtain ⟨e', he', hsame⟩ := hkey
    have hfirst := lookup_getElem? hnd he
    have hsecond := lookup_getElem? (hkeys ▸ hnd) he'
    rw [hsame, ← h, hfirst] at hsecond
    rw [he', hsecond]

/-- An update of the entry with key `key`, or a new entry with that key.  Neither changes a key. -/
structure Upsert (keyOf : ε → κ) where
  key : κ
  change : ε → ε
  fresh : ε
  keyOf_change : ∀ e, keyOf (change e) = keyOf e
  keyOf_fresh : keyOf fresh = key

namespace Upsert

variable {table : List ε}

/-- The entry that is there afterwards. -/
def entry (u : Upsert keyOf) : Option ε → ε
  | some e => u.change e
  | none => u.fresh

/-- The table afterwards. -/
def apply (table : List ε) (u : Upsert keyOf) : List ε :=
  match find keyOf table u.key with
  | some i => table.modify i u.change
  | none => table ++ [u.fresh]

/-- The table after a sequence of upserts, in their order. -/
def applyAll (table : List ε) (us : List (Upsert keyOf)) : List ε := us.foldl apply table

/-- What a sequence of upserts makes of the entry with key `k`, if there is one. -/
def entryAfter (k : κ) (o : Option ε) (us : List (Upsert keyOf)) : Option ε :=
  us.foldl (fun o u => if u.key = k then some (u.entry o) else o) o

theorem entryAfter_cons_self (u : Upsert keyOf) (o : Option ε) (us : List (Upsert keyOf)) :
    entryAfter u.key o (u :: us) = entryAfter u.key (some (u.entry o)) us :=
  congrArg (fun o => entryAfter u.key o us) (if_pos rfl)

/-- The upserts of the other keys do not matter. -/
theorem entryAfter_filter (k : κ) (o : Option ε) (us : List (Upsert keyOf)) :
    entryAfter k o (us.filter fun u => u.key = k) = entryAfter k o us := by
  unfold entryAfter
  rw [List.foldl_filter]
  refine congrArg (fun f => List.foldl f o us) (funext fun o => funext fun u => ?_)
  by_cases hk : u.key = k
  · simp [hk]
  · simp [hk]

/-- One upsert is seen under its own key, and nowhere else. -/
theorem lookup_apply (hnd : (table.map keyOf).Nodup) (u : Upsert keyOf) (k : κ) :
    lookup keyOf (apply table u) k =
      if u.key = k then some (u.entry (lookup keyOf table k)) else lookup keyOf table k := by
  unfold apply
  cases hfind : find keyOf table u.key with
  | some i =>
    obtain ⟨e, he, hkey⟩ := find_eq_some keyOf hfind
    have hlookup := lookup_getElem? hnd he
    show lookup keyOf (table.modify i u.change) k = _
    rw [lookup_modify hnd he u.keyOf_change, hkey]
    by_cases hk : u.key = k
    · rw [if_pos hk, if_pos hk, ← hk, ← hkey, hlookup, entry]
    · rw [if_neg hk, if_neg hk]
  | none =>
    have hnew := notMem_keys_of_find hfind
    show lookup keyOf (table ++ [u.fresh]) k = _
    rw [lookup_append (u.keyOf_fresh.symm ▸ hnew), u.keyOf_fresh]
    by_cases hk : u.key = k
    · rw [if_pos hk, if_pos hk, ← hk, lookup_eq_none hnew, entry]
    · rw [if_neg hk, if_neg hk]

/-- The keys after one upsert: the same ones, or a new one at the end. -/
theorem map_apply (table : List ε) (u : Upsert keyOf) :
    (apply table u).map keyOf =
      if u.key ∈ table.map keyOf then table.map keyOf else table.map keyOf ++ [u.key] := by
  unfold apply
  cases hfind : find keyOf table u.key with
  | some i =>
    obtain ⟨e, he, hkey⟩ := find_eq_some keyOf hfind
    have hmem : u.key ∈ table.map keyOf := hkey ▸ List.mem_map_of_mem (List.mem_of_getElem? he)
    rw [if_pos hmem]
    exact map_modify u.keyOf_change
  | none =>
    rw [if_neg (notMem_keys_of_find hfind), List.map_append, List.map_singleton, u.keyOf_fresh]

theorem nodup_apply (hnd : (table.map keyOf).Nodup) (u : Upsert keyOf) :
    ((apply table u).map keyOf).Nodup := by
  rw [map_apply]
  split
  · exact hnd
  · rename_i hnew
    refine List.nodup_append.mpr ⟨hnd, List.nodup_singleton _, ?_⟩
    rintro a ha b hb rfl
    exact hnew (List.mem_singleton.mp hb ▸ ha)

/-- Under each key there is what its own upserts make of the entry. -/
theorem lookup_applyAll (hnd : (table.map keyOf).Nodup) (us : List (Upsert keyOf)) (k : κ) :
    lookup keyOf (applyAll table us) k = entryAfter k (lookup keyOf table k) us := by
  induction us generalizing table with
  | nil => rfl
  | cons u us ih =>
    show lookup keyOf (applyAll (apply table u) us) k = _
    rw [ih (nodup_apply hnd u), lookup_apply hnd]
    rfl

theorem nodup_applyAll (hnd : (table.map keyOf).Nodup) (us : List (Upsert keyOf)) :
    ((applyAll table us).map keyOf).Nodup := by
  induction us generalizing table with
  | nil => exact hnd
  | cons u us ih => exact ih (nodup_apply hnd u)

/-- The keys depend on the keys alone. -/
theorem map_applyAll_congr {table' : List ε} {us us' : List (Upsert keyOf)}
    (htable : table.map keyOf = table'.map keyOf) (hkeys : us.map key = us'.map key) :
    (applyAll table us).map keyOf = (applyAll table' us').map keyOf := by
  induction us generalizing table table' us' with
  | nil =>
    obtain rfl := List.map_eq_nil_iff.mp hkeys.symm
    exact htable
  | cons u us ih =>
    obtain ⟨u', us', rfl, hkey, hkeys'⟩ := List.map_eq_cons_iff.mp hkeys.symm
    have hstep : (apply table u).map keyOf = (apply table' u').map keyOf := by
      rw [map_apply, map_apply, htable, hkey]
    show (applyAll (apply table u) us).map keyOf = (applyAll (apply table' u') us').map keyOf
    exact ih hstep hkeys'.symm

/-- **The interleaving does not matter.**  Two sequences of upserts with the same keys, of
which each key's make the same of its entry, leave the same table. -/
theorem applyAll_congr (hnd : (table.map keyOf).Nodup) {us us' : List (Upsert keyOf)}
    (hkeys : us.map key = us'.map key)
    (h : ∀ k, entryAfter k (lookup keyOf table k) us = entryAfter k (lookup keyOf table k) us') :
    applyAll table us = applyAll table us' := by
  refine eq_of_lookup (nodup_applyAll hnd us) (map_applyAll_congr rfl hkeys) fun k => ?_
  rw [lookup_applyAll hnd, lookup_applyAll hnd, h]

/-- The table that is left of an empty one tells what became of each key. -/
theorem entryAfter_none_congr {us us' : List (Upsert keyOf)} (h : applyAll [] us = applyAll [] us')
    (k : κ) : entryAfter k none us = entryAfter k none us' := by
  have hnil : (([] : List ε).map keyOf).Nodup := List.nodup_nil
  have hus := lookup_applyAll hnil us k
  have hus' := lookup_applyAll hnil us' k
  rw [h] at hus
  exact hus.symm.trans hus'

theorem applyAll_append (table : List ε) (us us' : List (Upsert keyOf)) :
    applyAll table (us ++ us') = applyAll (applyAll table us) us' := List.foldl_append ..

end Upsert
end OrderedTable
