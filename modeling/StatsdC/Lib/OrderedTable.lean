import Mathlib.Data.List.Induction
import Mathlib.Data.List.Nodup
import Mathlib.Logic.Function.Basic

/-!
# Tables in insertion order

A hash table whose entries are linked in the order of their insertion, as the list of these
entries.  A lookup gives the position of an entry, an update through the pointer it returned is a
`List.modify` at that position, and an insertion appends.  What programs do with such a table is
to look a key up and then to update or to insert, so the lemmas are about these two together
(`lookup_modify`, `lookup_append`), and about the keys, which stay distinct (`nodup_map_modify`,
`nodup_map_append`).

A table with a description says more: `keys.map entry` is the table that holds, for each key of
`keys` in this order, the entry `entry k`.  Lookups, updates and insertions are computed on
descriptions (`find_map_of_notMem`, `find_map_of_mem`, `map_append_singleton`): an update changes
the function at one key, and an insertion appends a key.  A table that was filled by a run is then
described by the keys of the run in the order of their first occurrence, which is
`List.eraseDups`, and by what the run did to each key (`eraseDups_append_of_mem`,
`eraseDups_append_of_notMem`).

Where the entries really are, in which chain or slot, is not said here; a table over buckets or
over open addressing refines this one.
-/

namespace OrderedTable

variable {ε κ : Type} [DecidableEq κ] (keyOf : ε → κ)

/-- `HASH_FIND`: where the entry with key `k` is, the first one if there are several. -/
def find (table : List ε) (k : κ) : Option Nat := table.findIdx? fun e => keyOf e = k

/-- A lookup finds nothing exactly when no entry has the key. -/
theorem find_eq_none_iff {table : List ε} {k : κ} :
    find keyOf table k = none ↔ ∀ e ∈ table, keyOf e ≠ k := by
  simp [find]

theorem notMem_keys_of_find {keyOf : ε → κ} {table : List ε} {k : κ}
    (h : find keyOf table k = none) : k ∉ table.map keyOf := by
  intro hmem
  obtain ⟨e, he, hkey⟩ := List.mem_map.mp hmem
  exact (find_eq_none_iff keyOf).mp h e he hkey

/-- What a lookup finds has the key, and is at the position that it gives. -/
theorem find_eq_some {table : List ε} {k : κ} {i : Nat} (h : find keyOf table k = some i) :
    ∃ e, table[i]? = some e ∧ keyOf e = k := by
  obtain ⟨hlt, hkey, -⟩ := List.findIdx?_eq_some_iff_getElem.mp h
  exact ⟨table[i], List.getElem?_eq_getElem hlt, by simpa using hkey⟩

theorem keys_getElem?_of_find {keyOf : ε → κ} {table : List ε} {k : κ} {i : Nat}
    (h : find keyOf table k = some i) : (table.map keyOf)[i]? = some k := by
  obtain ⟨e, he, hkey⟩ := find_eq_some keyOf h
  rw [List.getElem?_map, he, Option.map_some, hkey]

omit [DecidableEq κ] in
/-- Two lookups that match the same entries find the same one. -/
theorem find_congr {κ' ε' : Type} [DecidableEq κ] [DecidableEq κ'] {keyOf : ε → κ}
    {keyOf' : ε' → κ'} {f : ε → ε'} {table : List ε} {k : κ} {k' : κ'}
    (h : ∀ e ∈ table, keyOf e = k ↔ keyOf' (f e) = k') :
    find keyOf table k = find keyOf' (table.map f) k' := by
  induction table with
  | nil => rfl
  | cons e table ih =>
    have hhead := h e (List.mem_cons_self ..)
    have htail := ih fun a ha => h a (List.mem_cons_of_mem _ ha)
    unfold find at htail ⊢
    rw [List.map_cons, List.findIdx?_cons, List.findIdx?_cons, htail]
    simp only [hhead]

/-! ## The entry with a key -/

/-- The entry with key `k`, the first one if there are several. -/
def lookup (table : List ε) (k : κ) : Option ε := table.find? fun e => keyOf e = k

variable {keyOf}

theorem lookup_eq_none {table : List ε} {k : κ} (hk : k ∉ table.map keyOf) :
    lookup keyOf table k = none := by
  rw [lookup, List.find?_eq_none]
  intro e he
  simp only [decide_eq_true_eq]
  rintro rfl
  exact hk (List.mem_map_of_mem he)

/-- The entry at a position is found under its key, keys being unique. -/
theorem lookup_getElem? {table : List ε} {i : Nat} {e : ε} (hnd : (table.map keyOf).Nodup)
    (he : table[i]? = some e) : lookup keyOf table (keyOf e) = some e := by
  induction table generalizing i with
  | nil => cases he
  | cons a table ih =>
    obtain ⟨hnotMem, hnd⟩ := List.nodup_cons.mp hnd
    rw [lookup]
    cases i with
    | zero =>
      obtain rfl : a = e := by simpa using he
      rw [List.find?_cons_of_pos (by simp)]
    | succ i =>
      rw [List.getElem?_cons_succ] at he
      have hne : keyOf a ≠ keyOf e := fun heq =>
        hnotMem (heq ▸ List.mem_map_of_mem (List.mem_of_getElem? he))
      rw [List.find?_cons_of_neg (by simpa using hne)]
      exact ih hnd he

omit [DecidableEq κ] in
/-- Unique keys: a key has one position. -/
theorem index_unique {table : List ε} {i j : Nat} {e e' : ε} (hnd : (table.map keyOf).Nodup)
    (he : table[i]? = some e) (he' : table[j]? = some e') (hkey : keyOf e = keyOf e') : i = j := by
  have hi : i < (table.map keyOf).length := by
    rw [List.length_map]
    exact (List.getElem?_eq_some_iff.mp he).1
  refine (List.getElem?_inj hi hnd).mp ?_
  rw [List.getElem?_map, List.getElem?_map, he, he', Option.map_some, Option.map_some, hkey]

omit [DecidableEq κ] in
theorem map_modify {table : List ε} {i : Nat} {g : ε → ε} (hg : ∀ e, keyOf (g e) = keyOf e) :
    (table.modify i g).map keyOf = table.map keyOf := by
  induction table generalizing i with
  | nil => rw [List.modify_nil]
  | cons a table ih =>
    cases i with
    | zero => rw [List.modify_zero_cons, List.map_cons, hg, List.map_cons]
    | succ i => rw [List.modify_succ_cons, List.map_cons, ih, List.map_cons]

omit [DecidableEq κ] in
/-- An update that an image of the table can make as well. -/
theorem map_modify_comm {ε' : Type} {f : ε → ε'} {g : ε → ε} {g' : ε' → ε'} {table : List ε}
    {i : Nat} (hg : ∀ e, f (g e) = g' (f e)) :
    (table.modify i g).map f = (table.map f).modify i g' := by
  induction table generalizing i with
  | nil => rw [List.modify_nil, List.map_nil, List.modify_nil]
  | cons a table ih =>
    cases i with
    | zero => rw [List.modify_zero_cons, List.map_cons, hg, List.map_cons, List.modify_zero_cons]
    | succ i => rw [List.modify_succ_cons, List.map_cons, ih, List.map_cons, List.modify_succ_cons]

omit [DecidableEq κ] in
/-- Keys stay unique when an entry is updated outside its key. -/
theorem nodup_map_modify {table : List ε} (hnd : (table.map keyOf).Nodup) {i : Nat} {g : ε → ε}
    (hg : ∀ e, keyOf (g e) = keyOf e) : ((table.modify i g).map keyOf).Nodup := by
  rwa [map_modify hg]

omit [DecidableEq κ] in
/-- Keys stay unique when an entry with a new key is inserted. -/
theorem nodup_map_append {table : List ε} (hnd : (table.map keyOf).Nodup) {e : ε}
    (he : keyOf e ∉ table.map keyOf) : ((table ++ [e]).map keyOf).Nodup := by
  rw [List.map_append, List.map_singleton]
  refine List.nodup_append.mpr ⟨hnd, List.nodup_singleton _, ?_⟩
  intro a ha b hb hab
  rw [List.mem_singleton.mp hb] at hab
  exact he (hab ▸ ha)

/-- An update through a pointer is seen under the key of its entry, and nowhere
else. -/
theorem lookup_modify {table : List ε} {i : Nat} {e : ε} {g : ε → ε}
    (hnd : (table.map keyOf).Nodup) (he : table[i]? = some e) (hg : ∀ e, keyOf (g e) = keyOf e)
    (k : κ) :
    lookup keyOf (table.modify i g) k =
      if keyOf e = k then some (g e) else lookup keyOf table k := by
  induction table generalizing i with
  | nil => cases he
  | cons a table ih =>
    obtain ⟨hnotMem, hnd⟩ := List.nodup_cons.mp hnd
    cases i with
    | zero =>
      obtain rfl : a = e := by simpa using he
      rw [List.modify_zero_cons, lookup, lookup, List.find?_cons, List.find?_cons, hg]
      by_cases hk : keyOf a = k <;> simp [hk]
    | succ i =>
      rw [List.getElem?_cons_succ] at he
      have hne : keyOf a ≠ keyOf e := fun heq =>
        hnotMem (heq ▸ List.mem_map_of_mem (List.mem_of_getElem? he))
      have hrec := ih hnd he
      rw [lookup] at hrec
      rw [List.modify_succ_cons, lookup, lookup, List.find?_cons, List.find?_cons, hrec]
      by_cases hk : keyOf a = k
      · subst hk
        simp [Ne.symm hne]
      · simp [hk, lookup]

theorem lookup_append {table : List ε} {e : ε} (he : keyOf e ∉ table.map keyOf) (k : κ) :
    lookup keyOf (table ++ [e]) k = if keyOf e = k then some e else lookup keyOf table k := by
  rw [lookup, List.find?_append]
  by_cases hk : keyOf e = k
  · subst hk
    have hnone := lookup_eq_none he
    rw [lookup] at hnone
    simp [hnone]
  · simp [hk, lookup]

/-- An update through the pointer that a lookup returns is seen by the next one, and leaves
the entries under other keys alone. -/
theorem modify_find {table : List ε} {k : κ} {i : Nat} {g : ε → ε}
    (hfind : find keyOf table k = some i) (hg : ∀ e, keyOf (g e) = keyOf e) :
    (∃ e, lookup keyOf (table.modify i g) k = some (g e)) ∧
      (table.modify i g).filter (keyOf · ≠ k) = table.filter (keyOf · ≠ k) := by
  induction table generalizing i with
  | nil => cases hfind
  | cons a table ih =>
    rw [find, List.findIdx?_cons] at hfind
    by_cases ha : keyOf a = k
    · simp only [ha, decide_true, if_true] at hfind
      obtain rfl := Option.some.inj hfind
      rw [List.modify_zero_cons]
      constructor
      · exact ⟨a, by simp [lookup, hg, ha]⟩
      · simp [hg, ha]
    · simp only [ha, decide_false, Bool.false_eq_true, if_false] at hfind
      obtain ⟨j, hj, rfl⟩ := Option.map_eq_some_iff.mp hfind
      obtain ⟨⟨e, he⟩, hrest⟩ := ih hj
      rw [List.modify_succ_cons]
      constructor
      · rw [lookup] at he
        exact ⟨e, by simp [lookup, ha, he]⟩
      · simp only [List.filter_cons, hrest]

/-! ## Described tables -/

variable {entry : κ → ε} {keys : List κ} {k : κ}

theorem find_map_of_notMem (hentry : ∀ k, keyOf (entry k) = k) (hk : k ∉ keys) :
    find keyOf (keys.map entry) k = none := by
  rw [find_eq_none_iff]
  intro e he
  obtain ⟨a, ha, rfl⟩ := List.mem_map.mp he
  rw [hentry]
  rintro rfl
  exact hk ha

/-- Changing the description at a key that is not there changes nothing. -/
theorem map_update_of_notMem (hk : k ∉ keys) (e : ε) :
    keys.map (Function.update entry k e) = keys.map entry := by
  refine List.map_congr_left fun a ha => ?_
  rw [Function.update_of_ne]
  rintro rfl
  exact hk ha

/-- **A lookup that finds its key**: an update through the pointer changes the
description at that key. -/
theorem find_map_of_mem (hentry : ∀ k, keyOf (entry k) = k) (hnd : keys.Nodup) (hk : k ∈ keys) :
    ∃ i, find keyOf (keys.map entry) k = some i ∧
      ∀ g, (keys.map entry).modify i g = keys.map (Function.update entry k (g (entry k))) := by
  induction keys with
  | nil => cases hk
  | cons a keys ih =>
    obtain ⟨hnotMem, hnd⟩ := List.nodup_cons.mp hnd
    by_cases ha : a = k
    · subst ha
      refine ⟨0, by simp [find, List.findIdx?_cons, hentry], fun g => ?_⟩
      rw [List.map_cons, List.modify_zero_cons, List.map_cons, Function.update_self,
        map_update_of_notMem hnotMem]
    · have hmem : k ∈ keys := (List.mem_cons.mp hk).resolve_left fun h => ha h.symm
      obtain ⟨i, hfind, hmodify⟩ := ih hnd hmem
      refine ⟨i + 1, ?_, fun g => ?_⟩
      · rw [find] at hfind ⊢
        rw [List.map_cons, List.findIdx?_cons, hfind]
        simp [hentry, ha]
      · rw [List.map_cons, List.modify_succ_cons, hmodify, List.map_cons,
          Function.update_of_ne ha]

/-- **An insertion** appends its key to the description. -/
theorem map_append_singleton (hk : k ∉ keys) (e : ε) :
    keys.map entry ++ [e] = (keys ++ [k]).map (Function.update entry k e) := by
  rw [List.map_append, List.map_singleton, Function.update_self, map_update_of_notMem hk]

/-! ## Keys in the order of their first insertion -/

section FirstInsertion
variable {κ : Type} [BEq κ] [LawfulBEq κ] {ks : List κ} {k : κ}

/-- Inserting a known key changes nothing, since its first place counts. -/
theorem eraseDups_append_of_mem (hk : k ∈ ks) : (ks ++ [k]).eraseDups = ks.eraseDups := by
  rw [List.eraseDups_append]
  simp [List.removeAll, hk]

/-- A new key comes last, behind those that were there. -/
theorem eraseDups_append_of_notMem (hk : k ∉ ks) :
    (ks ++ [k]).eraseDups = ks.eraseDups ++ [k] := by
  rw [List.eraseDups_append]
  simp [List.removeAll, hk, List.eraseDups_cons]

theorem nodup_eraseDups (ks : List κ) : ks.eraseDups.Nodup := by
  induction ks using List.reverseRecOn with
  | nil => exact List.nodup_nil
  | append_singleton ks k ih =>
    by_cases hk : k ∈ ks
    · rw [eraseDups_append_of_mem hk]
      exact ih
    · rw [eraseDups_append_of_notMem hk]
      refine List.nodup_append.mpr ⟨ih, List.nodup_singleton k, ?_⟩
      intro a ha b hb
      rw [List.mem_singleton] at hb
      rintro rfl
      exact hk (hb ▸ List.mem_eraseDups.mp ha)

end FirstInsertion
end OrderedTable
