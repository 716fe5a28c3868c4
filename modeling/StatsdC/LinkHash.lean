import StatsdC.JsonObject
import StatsdC.Lib.Fallible
import StatsdC.Lib.LinkedOrder
import StatsdC.Lib.OpenAddressing

/-!
# The hash tables of json-c

`linkhash.c`: a table with open addressing whose entries are also linked in the order of their
insertion.  Objects are such tables, and elsewhere they are the list of their entries; this is why.
`RepresentsAt` says which list a table stands for, and every operation is the one on lists.

A search passes the slots of deleted entries, and only a slot that was never used ends the search
for a missing key.  A table whose slots have all been used once searches for ever
(`lookup_endless_iff`), however few entries it has, and no other fault is reachable
(`objectRun_refines`).  An addition deletes its key first, and the insertion behind it finds the
slot that this gave back (`vacancy_delete`), so that additions alone leave no such slot, and an
object that is only added to works for ever (`objectTable_refines`).  The order in which it is gone
through is that of the last addition of each key: an addition under a key that is there moves it to
the end.

The invariant has two parts, the slots (`StatsdC.Lib.OpenAddressing`) and the links
(`StatsdC.Lib.LinkedOrder`), and a permutation between them: the linked slots are the ones in use.
An operation is computed on each part by the rules of its library.

The size and the count are `int` in the program and have no bound here.  A table doubles when two
thirds of it are in use, so a size beyond an `int` needs more than `2 ^ 29` entries at once; what is
said is about tables below that.  The hash function is a parameter, and nothing is assumed of it.
-/

namespace StatsdC
open CString OrderedTable Fallible OpenAddressing LinkedOrder

/-- `LH_PRIME`, which the hash adds for every byte. -/
def lhPrime : UInt32 := 0x9e370001

/-- A `char`, which is signed, as an `unsigned int`. -/
def unsignedOfChar (c : Char) : UInt32 :=
  if c.toNat < 128 then UInt32.ofNat c.toNat else UInt32.ofNat c.toNat - 256

/-- `lh_char_hash`, over the bytes of a string, modulo `2 ^ 32` as `unsigned int` has it. -/
def lhCharHash (k : CString) : Nat :=
  (k.foldl (fun h c => h * 129 + unsignedOfChar c + lhPrime) 0).toNat

/-- `JSON_OBJECT_DEF_HASH_ENTRIES`, the number of slots of a new object. -/
def jsonObjectDefHashEntries : Nat := 16

/-- What an operation on a table does not survive. -/
inductive LhFault where
  /-- A loop that no slot ends. -/
  | endless
  /-- A pointer that is `NULL`, or to a slot that is not in use, is followed. -/
  | wildPointer
  /-- A resize inside a resize. -/
  | outOfFuel
  deriving DecidableEq

/-- `struct lh_table`, but for its statistics and its callbacks.  Its `size` and `count` are of type
`int` in the source and have no bound here: what is said is about tables whose size an `int`
holds. -/
structure LhTable (κ ν : Type) where
  size : Nat
  count : Nat
  links : Links Nat
  table : Nat → Slot (κ × ν)

namespace LhTable
variable {κ ν : Type} (hashFn : κ → Nat)

/-- `lh_table_new`, with a number of slots that are all `LH_EMPTY`. -/
def new (size : Nat) : LhTable κ ν := ⟨size, 0, .empty, fun _ => .empty⟩

/-- `lh_foreach`: the entries, from `head` on, along the list that links the slots. -/
def foreach (t : LhTable κ ν) : Except LhFault (List (κ × ν)) :=
  match t.links.walk t.size t.links.head with
  | none => .error .endless
  | some slots =>
    slots.mapM fun n =>
      match t.table n with
      | .entry e => .ok e
      | .empty | .freed => .error .wildPointer

/-- `lh_table_insert`, behind the test of the load: the first vacant slot from the hash on, and the
end of the list. -/
def place (t : LhTable κ ν) (k : κ) (v : ν) : Except LhFault (LhTable κ ν) :=
  match vacancy t.size hashFn t.table k with
  | none => .error .endless
  | some n =>
    match t.links.pushBack n with
    | none => .error .wildPointer
    | some links =>
      .ok { t with
        table := Function.update t.table n (.entry (k, v)), count := t.count + 1, links }

/-- `t->count > t->size * 0.66`, the test before an insertion. -/
def loaded (t : LhTable κ ν) : Bool := 66 * t.size < 100 * t.count

/-- `lh_table_resize`, with the insertion into the new table, entry by entry along the list. -/
def resize (insert : LhTable κ ν → κ → ν → Except LhFault (LhTable κ ν)) (t : LhTable κ ν)
    (newSize : Nat) : Except LhFault (LhTable κ ν) := do
  let entries ← t.foreach
  let newT ← entries.foldlM (fun newT e => insert newT e.1 e.2) (new newSize)
  return { t with size := newSize, links := newT.links, table := newT.table }

/-- `lh_table_insert`.  The test of the load is made for the new table of a resize as well;
`depth` is how deep resizes may nest. -/
def insertAt : Nat → LhTable κ ν → κ → ν → Except LhFault (LhTable κ ν)
  | 0, t, k, v => if t.loaded then .error .outOfFuel else t.place hashFn k v
  | depth + 1, t, k, v =>
    if t.loaded then do
      let t ← t.resize (insertAt depth) (2 * t.size)
      t.place hashFn k v
    else t.place hashFn k v

/-- `lh_table_insert`.  Its resize inserts into a table that is not loaded, so that one level of
recursion is enough. -/
def insert (t : LhTable κ ν) (k : κ) (v : ν) : Except LhFault (LhTable κ ν) :=
  insertAt hashFn 1 t k v

variable [DecidableEq κ]

/-- `lh_table_lookup_entry`: the slot of the entry, or `NULL`.  The search ends only at an entry or
at a slot that is `LH_EMPTY`. -/
def lookupEntry (t : LhTable κ ν) (k : κ) : Except LhFault (Option Nat) :=
  match search t.size hashFn Prod.fst t.table k with
  | none => .error .endless
  | some n =>
    match t.table n with
    | .entry _ => .ok (some n)
    | .empty | .freed => .ok none

/-- `lh_table_lookup`: the value of a key, or `NULL`. -/
def lookup (t : LhTable κ ν) (k : κ) : Except LhFault (Option ν) := do
  match ← t.lookupEntry hashFn k with
  | none => return none
  | some n =>
    match t.table n with
    | .entry e => return some e.2
    | .empty | .freed => .error .wildPointer

/-- `lh_table_delete`, with `lh_table_delete_entry` for the entry it finds.  The slot becomes
`LH_FREED`, which no search stops at. -/
def delete (t : LhTable κ ν) (k : κ) : Except LhFault (LhTable κ ν) := do
  match ← t.lookupEntry hashFn k with
  | none => return t
  | some n =>
    match t.links.unlink n with
    | none => .error .wildPointer
    | some links =>
      return { t with table := Function.update t.table n .freed, count := t.count - 1, links }

/-- `json_object_object_add`: the key is deleted first and inserted again, so that its entry goes to
the end. -/
def objectAdd (t : LhTable κ ν) (k : κ) (v : ν) : Except LhFault (LhTable κ ν) := do
  let t ← t.delete hashFn k
  t.insert hashFn k v

end LhTable

/-! ## What a table stands for -/

/-- **The table stands for the entries**, oldest first: they are in the slots `slots`, in
this order. -/
structure RepresentsAt {κ ν : Type} (hashFn : κ → Nat) (t : LhTable κ ν)
    (entries : List (κ × ν)) (slots : List Nat) : Prop where
  placed : Placed t.size hashFn Prod.fst t.table
  links : Holds t.links slots
  slots_lt : ∀ n ∈ slots, n < t.size
  table : slots.map t.table = entries.map Slot.entry
  used : ∀ n < t.size, ∀ e, t.table n = .entry e → n ∈ slots
  count : t.count = entries.length

/-- No slot has been given back, as in a table that was only inserted into. -/
def LhTable.Clean {κ ν : Type} (t : LhTable κ ν) : Prop := ∀ n < t.size, t.table n ≠ .freed

namespace RepresentsAt
variable {κ ν : Type} {hashFn : κ → Nat} {t : LhTable κ ν} {entries : List (κ × ν)}
  {slots : List Nat} {k : κ} {v : ν}

theorem length_slots (h : RepresentsAt hashFn t entries slots) :
    slots.length = entries.length := by
  have hlen := congrArg List.length h.table
  rwa [List.length_map, List.length_map] at hlen

/-- The entries are those of the slots, each of them in one. -/
theorem mem_iff (h : RepresentsAt hashFn t entries slots) {e : κ × ν} :
    e ∈ entries ↔ ∃ n < t.size, t.table n = .entry e := by
  have hmem : e ∈ entries ↔ Slot.entry e ∈ slots.map t.table := by
    rw [h.table]
    exact (List.mem_map_of_injective fun a b hab => Slot.entry.inj hab).symm
  rw [hmem, List.mem_map]
  constructor
  · rintro ⟨n, hn, he⟩
    exact ⟨n, h.slots_lt n hn, he⟩
  · rintro ⟨n, hn, he⟩
    exact ⟨n, h.used n hn e he, he⟩

/-- A key that is not there has no slot. -/
theorem key_ne (h : RepresentsAt hashFn t entries slots) (hk : k ∉ entries.map Prod.fst) :
    ∀ n < t.size, ∀ e, t.table n = .entry e → e.1 ≠ k := by
  rintro n hn e he rfl
  exact hk (List.mem_map_of_mem (h.mem_iff.mpr ⟨n, hn, he⟩))

theorem length_le (h : RepresentsAt hashFn t entries slots) : entries.length ≤ t.size := by
  have hsub : slots ⊆ List.range t.size := fun n hn => List.mem_range.mpr (h.slots_lt n hn)
  have hle := (h.links.nodup.subperm hsub).length_le
  rwa [h.length_slots, List.length_range] at hle

/-- A slot is vacant where there are fewer entries than slots, so that an insertion finds one. -/
theorem exists_vacant (h : RepresentsAt hashFn t entries slots) (hlt : entries.length < t.size) :
    ∃ n < t.size, (t.table n).isVacant = true := by
  have hused : slots.length < t.size := by rwa [h.length_slots]
  exact OpenAddressing.exists_vacant hused h.used

/-- **Walking a table** gives its entries in the order of their list, the one added last at the end.
-/
theorem foreach_eq (h : RepresentsAt hashFn t entries slots) : t.foreach = .ok entries := by
  have hwalk : t.links.walk t.size t.links.head = some slots :=
    h.links.walk (h.length_slots ▸ h.length_le)
  have hread : ∀ {slots : List Nat} {entries : List (κ × ν)},
      slots.map t.table = entries.map Slot.entry →
      slots.mapM (fun n =>
        match t.table n with
        | .entry e => Except.ok e
        | .empty | .freed => .error LhFault.wildPointer) = .ok entries := by
    intro slots entries htable
    induction slots generalizing entries with
    | nil =>
      obtain rfl : entries = [] := by simpa using htable.symm
      rfl
    | cons n slots ih =>
      cases entries with
      | nil => cases htable
      | cons e entries =>
        obtain ⟨hn, hrest⟩ := List.cons_eq_cons.mp htable
        rw [List.mapM_cons, hn, ih hrest]
        rfl
  rw [LhTable.foreach, hwalk]
  exact hread h.table

/-- **A new entry goes to the end**, in the first vacant slot of its probe sequence. -/
theorem place (h : RepresentsAt hashFn t entries slots) (hk : k ∉ entries.map Prod.fst)
    (hlt : entries.length < t.size) :
    ∃ n t', t.place hashFn k v = .ok t' ∧ t'.size = t.size ∧
      vacancy t.size hashFn t.table k = some n ∧
      t'.table = Function.update t.table n (.entry (k, v)) ∧
      RepresentsAt hashFn t' (entries ++ [(k, v)]) (slots ++ [n]) := by
  have hpos : 0 < t.size := by omega
  obtain ⟨i, hi, hvacant⟩ := h.exists_vacant hlt
  obtain ⟨n, hn⟩ : ∃ n, vacancy t.size hashFn t.table k = some n := exists_vacancy hi hvacant k
  obtain ⟨hnlt, hnvacant⟩ := probe_lt (Nat.mod_lt _ hpos) hn
  have hslots : n ∉ slots := by
    intro hmem
    have hentry : t.table n ∈ entries.map Slot.entry := h.table ▸ List.mem_map_of_mem hmem
    obtain ⟨e, -, he⟩ := List.mem_map.mp hentry
    rw [← he] at hnvacant
    cases hnvacant
  obtain ⟨links, hpush, hlinks⟩ := h.links.pushBack hslots
  refine ⟨n, { t with
      table := Function.update t.table n (.entry (k, v)), count := t.count + 1, links },
    by simp only [LhTable.place, hn, hpush], rfl, hn, rfl, ?_, hlinks, ?_, ?_, ?_, ?_⟩
  · exact h.placed.insert (e := (k, v)) (h.key_ne hk) hpos hn
  · intro m hm
    rcases List.mem_append.mp hm with hm | hm
    · exact h.slots_lt m hm
    · rwa [List.mem_singleton.mp hm]
  · have hsame : slots.map (Function.update t.table n (.entry (k, v))) = slots.map t.table :=
      List.map_congr_left fun m hm => Function.update_of_ne (ne_of_mem_of_not_mem hm hslots) ..
    dsimp only
    rw [List.map_append, List.map_append, List.map_singleton, Function.update_self, hsame, h.table]
    rfl
  · intro m hm e he
    dsimp only at he
    by_cases hmn : m = n
    · exact List.mem_append_right _ (List.mem_singleton.mpr hmn)
    · rw [Function.update_of_ne hmn] at he
      exact List.mem_append_left _ (h.used m hm e he)
  · rw [List.length_append, List.length_singleton, ← h.count]

/-- The slot of an entry. -/
theorem exists_slot (h : RepresentsAt hashFn t entries slots) (hk : k ∈ entries.map Prod.fst) :
    ∃ es es' ns n ns', ∃ v : ν, entries = es ++ (k, v) :: es' ∧ slots = ns ++ n :: ns' ∧
      ns.map t.table = es.map Slot.entry ∧ ns'.map t.table = es'.map Slot.entry ∧
      t.table n = .entry (k, v) := by
  obtain ⟨⟨k, v⟩, hmem, rfl⟩ := List.mem_map.mp hk
  obtain ⟨es, es', rfl⟩ := List.append_of_mem hmem
  have htable := h.table
  rw [List.map_append, List.map_cons] at htable
  obtain ⟨ns, ms, rfl, hns, hms⟩ := List.map_eq_append_iff.mp htable
  obtain ⟨n, ns', rfl, hn, hns'⟩ := List.map_eq_cons_iff.mp hms
  exact ⟨es, es', ns, n, ns', v, rfl, rfl, hns, hns', hn⟩

/-- Keys are unique, since no slot has a key that another one has. -/
theorem nodup (h : RepresentsAt hashFn t entries slots) : (entries.map Prod.fst).Nodup := by
  have hkeys : slots.map (fun n => (t.table n).toOption.map Prod.fst) =
      (entries.map Prod.fst).map some := by
    have htable := congrArg (List.map fun s : Slot (κ × ν) => s.toOption.map Prod.fst) h.table
    rw [List.map_map, List.map_map] at htable
    rw [List.map_map]
    exact htable
  refine List.Nodup.of_map some ?_
  rw [← hkeys]
  refine h.links.nodup.map_on fun n hn m hm hnm => ?_
  have hentry : ∀ i ∈ slots, ∃ e, t.table i = .entry e := by
    intro i hi
    obtain ⟨e, -, he⟩ := List.mem_map.mp (h.table ▸ List.mem_map_of_mem (f := t.table) hi)
    exact ⟨e, he.symm⟩
  obtain ⟨e, he⟩ := hentry n hn
  obtain ⟨e', he'⟩ := hentry m hm
  rw [he, he'] at hnm
  exact h.placed.unique n (h.slots_lt n hn) m (h.slots_lt m hm) e e' he he'
    (Option.some.inj hnm)

section Search
variable [DecidableEq κ]

/-- **A key that is there is found**, with its value, although slots given back may lie on the way.
-/
theorem lookupEntry_of_mem (h : RepresentsAt hashFn t entries slots) {n : Nat}
    (hn : n < t.size) (he : t.table n = .entry (k, v)) :
    t.lookupEntry hashFn k = .ok (some n) ∧ t.lookup hashFn k = .ok (some v) := by
  have hsearch : search t.size hashFn Prod.fst t.table k = some n :=
    h.placed.search_eq_some hn he
  have hentry : t.lookupEntry hashFn k = .ok (some n) := by
    simp only [LhTable.lookupEntry, hsearch, he]
  refine ⟨hentry, ?_⟩
  simp only [LhTable.lookup, hentry, bind, Except.bind, he]
  rfl

/-- **The search for a missing key** ends with nothing, if it ends. -/
theorem lookupEntry_of_notMem (h : RepresentsAt hashFn t entries slots) (hsize : 0 < t.size)
    (hk : k ∉ entries.map Prod.fst) :
    t.lookupEntry hashFn k =
      if search t.size hashFn Prod.fst t.table k = none then .error .endless else .ok none := by
  cases hsearch : search t.size hashFn Prod.fst t.table k with
  | none => simp only [LhTable.lookupEntry, hsearch, if_true]
  | some n =>
    have hn : n < t.size := (probe_lt (Nat.mod_lt _ hsize) hsearch).1
    have hempty : t.table n = .empty := by
      rcases search_cases hn hsearch with hempty | ⟨e, he, rfl⟩
      · exact hempty
      · exact absurd rfl (h.key_ne hk n hn e he)
    simp only [LhTable.lookupEntry, hsearch, hempty, reduceCtorEq, if_false]

theorem filter_ne_of_notMem {entries : List (κ × ν)} (hk : k ∉ entries.map Prod.fst) :
    entries.filter (·.1 ≠ k) = entries := by
  refine List.filter_eq_self.mpr fun e hmem => decide_eq_true fun hek => hk ?_
  rw [← hek]
  exact List.mem_map_of_mem hmem

/-- **A deletion** takes the entry out of the order and gives its slot back, without touching the
others. -/
theorem delete_of_mem (h : RepresentsAt hashFn t entries slots) (hk : k ∈ entries.map Prod.fst) :
    ∃ n v t' slots', t.delete hashFn k = .ok t' ∧ n < t.size ∧ t.table n = .entry (k, v) ∧
      t'.size = t.size ∧ t'.table = Function.update t.table n .freed ∧
      RepresentsAt hashFn t' (entries.filter (·.1 ≠ k)) slots' := by
  obtain ⟨es, es', ns, n, ns', v, rfl, rfl, hns, hns', he⟩ := h.exists_slot hk
  have hn : n < t.size := h.slots_lt n (by simp)
  obtain ⟨hnodup, hnotMem⟩ := (List.nodup_cons.mp (List.nodup_middle.mp h.links.nodup)).symm
  obtain ⟨links, hunlink, hlinks⟩ := h.links.unlink
  have hfilter : (es ++ (k, v) :: es').filter (·.1 ≠ k) = es ++ es' := by
    have hkeys := h.nodup
    rw [List.map_append, List.map_cons] at hkeys
    have hout : k ∉ es.map Prod.fst ++ es'.map Prod.fst :=
      (List.nodup_cons.mp (List.nodup_middle.mp hkeys)).1
    rw [List.filter_append, List.filter_cons_of_neg (by simp), ← List.filter_append]
    exact filter_ne_of_notMem (by rwa [List.map_append])
  refine ⟨n, v, { t with
      table := Function.update t.table n .freed, count := t.count - 1, links }, ns ++ ns',
    ?_, hn, he, rfl, rfl, ?_⟩
  · rw [LhTable.delete, (h.lookupEntry_of_mem hn he).1]
    simp only [bind, Except.bind, hunlink]
    rfl
  · have hsame : ∀ ms : List Nat, (∀ m ∈ ms, m ∈ ns ++ ns') →
        ms.map (Function.update t.table n .freed) = ms.map t.table := fun ms hms =>
      List.map_congr_left fun m hm =>
        Function.update_of_ne (ne_of_mem_of_not_mem (hms m hm) hnotMem) ..
    rw [hfilter]
    refine ⟨h.placed.free n, hlinks, fun m hm => ?_, ?_, fun m hm e hme => ?_, ?_⟩
    · refine h.slots_lt m ?_
      rcases List.mem_append.mp hm with hm | hm
      · exact List.mem_append_left _ hm
      · exact List.mem_append_right _ (List.mem_cons_of_mem _ hm)
    · rw [List.map_append, List.map_append, hsame ns fun m hm => List.mem_append_left _ hm,
        hsame ns' fun m hm => List.mem_append_right _ hm, hns, hns']
    · dsimp only at hme
      by_cases hmn : m = n
      · rw [hmn, Function.update_self] at hme
        cases hme
      · rw [Function.update_of_ne hmn] at hme
        have hmem := h.used m hm e hme
        simpa [hmn] using hmem
    · have hcount := h.count
      simp only [List.length_append, List.length_cons] at hcount ⊢
      omega

theorem delete_of_notMem (h : RepresentsAt hashFn t entries slots) (hsize : 0 < t.size)
    (hk : k ∉ entries.map Prod.fst) :
    t.delete hashFn k =
      if search t.size hashFn Prod.fst t.table k = none then .error .endless else .ok t := by
  rw [LhTable.delete, h.lookupEntry_of_notMem hsize hk]
  split <;> rfl

end Search

/-! ### Insertion -/

theorem loaded_iff (h : RepresentsAt hashFn t entries slots) :
    t.loaded = true ↔ 66 * t.size < 100 * entries.length := by
  rw [LhTable.loaded, h.count, decide_eq_true_eq]

/-- A place in a table without slots given back. -/
theorem clean_update {n : Nat} {e : κ × ν} (h : t.Clean) {t' : LhTable κ ν}
    (hsize : t'.size = t.size) (htable : t'.table = Function.update t.table n (.entry e)) :
    t'.Clean := by
  intro m hm
  rw [htable]
  by_cases hmn : m = n
  · rw [hmn, Function.update_self]
    exact nofun
  · rw [Function.update_of_ne hmn]
    exact h m (hsize ▸ hm)

/-- Entries that do not load the table are placed one behind the other, each at the end of the list.
-/
theorem insertAll (h : RepresentsAt hashFn t entries slots) (hclean : t.Clean)
    (more : List (κ × ν)) (hnodup : ((entries ++ more).map Prod.fst).Nodup)
    (hroom : 100 * (entries ++ more).length ≤ 66 * t.size) :
    ∃ t' slots', more.foldlM (fun t e => t.insertAt hashFn 0 e.1 e.2) t = .ok t' ∧
      t'.size = t.size ∧ t'.Clean ∧ RepresentsAt hashFn t' (entries ++ more) slots' := by
  induction more generalizing t entries slots with
  | nil => exact ⟨t, slots, rfl, rfl, hclean, by rwa [List.append_nil]⟩
  | cons e more ih =>
    rw [List.append_cons] at hnodup hroom
    have hlen : (entries ++ [e] ++ more).length = entries.length + 1 + more.length := by
      simp only [List.length_append, List.length_singleton]
    have hk : e.1 ∉ entries.map Prod.fst := by
      rw [List.map_append, List.map_append, List.map_singleton] at hnodup
      have hfront := (List.nodup_append.mp hnodup).1
      exact fun hm => (List.nodup_append.mp hfront).2.2 e.1 hm e.1 (List.mem_singleton_self _) rfl
    have hloaded : ¬ t.loaded = true := by
      rw [h.loaded_iff]
      omega
    obtain ⟨n, t₁, hplace, hsize, -, htable, hrep⟩ := h.place (v := e.2) hk (by omega)
    obtain ⟨t', slots', hfold, hsize', hclean', hrep'⟩ :=
      ih hrep (clean_update hclean hsize htable) hnodup (by rwa [hsize])
    refine ⟨t', slots', ?_, hsize'.trans hsize, hclean', by rwa [List.append_cons]⟩
    rw [List.foldlM_cons, LhTable.insertAt, if_neg hloaded, hplace]
    exact hfold

end RepresentsAt

theorem representsAt_new {κ ν : Type} (hashFn : κ → Nat) (size : Nat) :
    RepresentsAt hashFn (LhTable.new size : LhTable κ ν) [] [] :=
  ⟨placed_empty, holds_empty, nofun, rfl, nofun, rfl⟩

namespace RepresentsAt
variable {κ ν : Type} {hashFn : κ → Nat} {t : LhTable κ ν} {entries : List (κ × ν)}
  {slots : List Nat} {k : κ} {v : ν}

/-- **A resize** keeps the entries and their order, and leaves no slot that was given
back. -/
theorem resize (h : RepresentsAt hashFn t entries slots) (newSize : Nat)
    (hroom : 100 * entries.length ≤ 66 * newSize) :
    ∃ t' slots', t.resize (LhTable.insertAt hashFn 0) newSize = .ok t' ∧ t'.size = newSize ∧
      t'.Clean ∧ RepresentsAt hashFn t' entries slots' := by
  obtain ⟨newT, slots', hfold, hsize, hclean, hrep⟩ :=
    (representsAt_new (ν := ν) hashFn newSize).insertAll nofun entries h.nodup hroom
  have hsize' : newT.size = newSize := hsize
  refine ⟨{ t with size := newSize, links := newT.links, table := newT.table }, slots', ?_, rfl,
    fun n hn => hclean n (hsize' ▸ hn), ?_⟩
  · rw [LhTable.resize, h.foreach_eq]
    simp only [bind, Except.bind, hfold]
    rfl
  · exact ⟨hsize' ▸ hrep.placed, hrep.links, fun n hn => hsize' ▸ hrep.slots_lt n hn, hrep.table,
      fun n hn => hrep.used n (hsize' ▸ hn), h.count⟩

/-- **An insertion** of a new key ends, whatever the table's history.  The table has been
resized before, or the slot is the first vacant one. -/
theorem insert (h : RepresentsAt hashFn t entries slots) (hsize : 0 < t.size)
    (hk : k ∉ entries.map Prod.fst) :
    ∃ t' slots', t.insert hashFn k v = .ok t' ∧ t.size ≤ t'.size ∧
      100 * entries.length ≤ 66 * t'.size ∧
      RepresentsAt hashFn t' (entries ++ [(k, v)]) slots' ∧
      (t'.Clean ∨ ∃ n, vacancy t.size hashFn t.table k = some n ∧ t'.size = t.size ∧
        t'.table = Function.update t.table n (.entry (k, v))) := by
  rw [LhTable.insert, LhTable.insertAt]
  by_cases hloaded : t.loaded = true
  · have hle := h.length_le
    obtain ⟨t₁, slots₁, hresize, hsize₁, hclean₁, hrep₁⟩ :=
      h.resize (2 * t.size) (by omega)
    obtain ⟨n, t', hplace, hsize', -, htable, hrep⟩ := hrep₁.place (v := v) hk (by omega)
    refine ⟨t', _, ?_, by omega, by omega, hrep, .inl (clean_update hclean₁ hsize' htable)⟩
    rw [if_pos hloaded, hresize]
    exact hplace
  · have hroom := mt h.loaded_iff.mpr hloaded
    obtain ⟨n, t', hplace, hsize', hn, htable, hrep⟩ := h.place (v := v) hk (by omega)
    refine ⟨t', _, ?_, by omega, by omega, hrep, .inr ⟨n, hn, hsize', htable⟩⟩
    rw [if_neg hloaded, hplace]

section Objects

/-- A clean table with room has an empty slot, at which every search ends. -/
theorem exists_empty (h : RepresentsAt hashFn t entries slots) (hclean : t.Clean)
    (hlt : entries.length < t.size) : ∃ n < t.size, t.table n = .empty := by
  obtain ⟨n, hn, hvacant⟩ := h.exists_vacant hlt
  refine ⟨n, hn, ?_⟩
  cases hslot : t.table n with
  | empty => rfl
  | freed => exact absurd hslot (hclean n hn)
  | entry e => simp [hslot, Slot.isVacant] at hvacant

/-- The slot that a deletion gives back, where no other was given back, is the one that an
insertion of the same key finds. -/
theorem vacancy_delete (h : RepresentsAt hashFn t entries slots) (hclean : t.Clean) {n : Nat}
    (hn : n < t.size) (he : t.table n = .entry (k, v)) :
    vacancy t.size hashFn (Function.update t.table n .freed) k = some n := by
  obtain ⟨j, hj, hmod, hbefore⟩ := h.placed.met n hn (k, v) he
  refine (probe_eq_some_iff (Nat.mod_lt _ (by omega))).mpr ⟨j, hj, ?_, ?_, fun i hi => ?_⟩
  · rwa [Nat.mod_add_mod]
  · rw [Function.update_self]
    rfl
  · have hne : (hashFn k + i) % t.size ≠ n :=
      hmod ▸ CircularBuffer.offset_ne (by omega) hj (Nat.ne_of_lt hi)
    have hlt : (hashFn k + i) % t.size < t.size := Nat.mod_lt _ (by omega)
    rw [Nat.mod_add_mod, Function.update_of_ne hne]
    cases hslot : t.table ((hashFn k + i) % t.size) with
    | empty => exact absurd hslot (hbefore i hi)
    | freed => exact absurd hslot (hclean _ hlt)
    | entry e => rfl

variable [DecidableEq κ]

theorem search_ne_none (h : RepresentsAt hashFn t entries slots) (hk : k ∉ entries.map Prod.fst)
    (hempty : ∃ n < t.size, t.table n = .empty) :
    search t.size hashFn Prod.fst t.table k ≠ none :=
  (search_ne_none_iff (hempty.elim fun n hn => by omega) (h.key_ne hk)).mpr hempty

/-- **`json_object_object_add`**: it ends where its key is there, or where some slot is
empty, and puts the entry behind the others. -/
theorem objectAdd (h : RepresentsAt hashFn t entries slots) (hsize : 0 < t.size)
    (hends : k ∈ entries.map Prod.fst ∨ ∃ n < t.size, t.table n = .empty) :
    ∃ t' slots', t.objectAdd hashFn k v = .ok t' ∧ t.size ≤ t'.size ∧
      100 * (entries.filter (·.1 ≠ k)).length ≤ 66 * t'.size ∧
      RepresentsAt hashFn t' (entries.filter (·.1 ≠ k) ++ [(k, v)]) slots' ∧
      (t.Clean → t'.Clean) := by
  have hout : k ∉ (entries.filter (·.1 ≠ k)).map Prod.fst := by simp
  by_cases hk : k ∈ entries.map Prod.fst
  · obtain ⟨n, v₀, t₁, slots₁, hdelete, hn, he, hsize₁, htable₁, hrep₁⟩ := h.delete_of_mem hk
    obtain ⟨t', slots', hinsert, hle, hroom, hrep, hclean⟩ :=
      hrep₁.insert (v := v) (by omega) hout
    refine ⟨t', slots', ?_, by omega, hroom, hrep, fun hc => hclean.elim id ?_⟩
    · rw [LhTable.objectAdd, hdelete]
      exact hinsert
    · rintro ⟨m, hm, hsize', htable'⟩
      rw [hsize₁, htable₁, h.vacancy_delete hc hn he] at hm
      obtain rfl := Option.some.inj hm
      rw [htable₁, Function.update_idem] at htable'
      exact clean_update hc (hsize'.trans hsize₁) htable'
  · have hfilter : entries.filter (·.1 ≠ k) = entries := filter_ne_of_notMem hk
    have hfound := h.search_ne_none hk (hends.resolve_left hk)
    rw [hfilter]
    obtain ⟨t', slots', hinsert, hle, hroom, hrep, hclean⟩ := h.insert (v := v) hsize hk
    refine ⟨t', slots', ?_, hle, hroom, hrep, fun hc => hclean.elim id ?_⟩
    · rw [LhTable.objectAdd, h.delete_of_notMem hsize hk, if_neg hfound]
      exact hinsert
    · rintro ⟨n, -, hsize', htable'⟩
      exact clean_update hc hsize' htable'

/-- Every lookup is the one of the list, where some slot is empty. -/
theorem lookup_eq (h : RepresentsAt hashFn t entries slots) (k : κ)
    (hempty : ∃ n < t.size, t.table n = .empty) :
    t.lookup hashFn k = .ok ((OrderedTable.lookup Prod.fst entries k).map Prod.snd) := by
  by_cases hk : k ∈ entries.map Prod.fst
  · obtain ⟨⟨k, v⟩, hmem, rfl⟩ := List.mem_map.mp hk
    obtain ⟨n, hn, he⟩ := h.mem_iff.mp hmem
    obtain ⟨j, hj⟩ := List.getElem?_of_mem hmem
    rw [(h.lookupEntry_of_mem hn he).2, lookup_getElem? h.nodup hj, Option.map_some]
  · have hsize : 0 < t.size := hempty.elim fun n hn => by omega
    rw [LhTable.lookup, h.lookupEntry_of_notMem hsize hk, if_neg (h.search_ne_none hk hempty),
      OrderedTable.lookup_eq_none hk]
    rfl

end Objects
end RepresentsAt

/-! ## Runs -/

/-- **An object that is only added to**: every addition ends, a walk gives the entries of
the list that objects are elsewhere, and every lookup ends with the value that the list
has for its key. -/
theorem objectTable_refines (hashFn : CString → Nat) (adds : List (CString × Json)) :
    ∃ t, adds.foldlM (fun t e => t.objectAdd hashFn e.1 e.2)
        (LhTable.new jsonObjectDefHashEntries) = .ok t ∧
      t.foreach = .ok (lhTableAddAll [] adds) ∧
      ∀ k, t.lookup hashFn k =
        .ok ((lookup Prod.fst (lhTableAddAll [] adds) k).map Prod.snd) := by
  have hrun : ∀ (adds : List (CString × Json)) {t : LhTable CString Json} {entries slots},
      RepresentsAt hashFn t entries slots → t.Clean → 3 ≤ t.size → entries.length < t.size →
      ∃ t' slots', adds.foldlM (fun t e => t.objectAdd hashFn e.1 e.2) t = .ok t' ∧
        RepresentsAt hashFn t' (lhTableAddAll entries adds) slots' ∧ t'.Clean ∧
        (lhTableAddAll entries adds).length < t'.size := by
    intro adds
    induction adds with
    | nil => exact fun h hclean _ hlt => ⟨_, _, rfl, h, hclean, hlt⟩
    | cons e adds ih =>
      intro t entries slots h hclean hsize hlt
      obtain ⟨t₁, slots₁, hadd, hle, hroom, h₁, hclean₁⟩ := h.objectAdd (k := e.1) (v := e.2)
        (by omega) (.inr (h.exists_empty hclean hlt))
      obtain ⟨t', slots', hfold, hrest⟩ := ih h₁ (hclean₁ hclean) (by omega) (by
        rw [List.length_append, List.length_singleton]
        omega)
      refine ⟨t', slots', ?_, hrest⟩
      rw [List.foldlM_cons, hadd]
      exact hfold
  obtain ⟨t, slots, hfold, h, hclean, hlt⟩ := hrun adds
    (representsAt_new hashFn jsonObjectDefHashEntries) nofun (by decide) (by decide)
  exact ⟨t, hfold, h.foreach_eq, fun k => h.lookup_eq k (h.exists_empty hclean hlt)⟩

section Deletions
variable {κ ν : Type} {hashFn : κ → Nat} [DecidableEq κ] {t : LhTable κ ν}
  {entries : List (κ × ν)}

/-- A change of an object, by one of the two functions that change its table. -/
inductive ObjectOp (κ ν : Type) where
  /-- `json_object_object_add`. -/
  | add (k : κ) (v : ν)
  /-- `json_object_object_del`. -/
  | del (k : κ)

/-- The key that an operation looks for, before it does anything else. -/
def ObjectOp.key : ObjectOp κ ν → κ
  | add k _ | del k => k

/-- The change of a table, with the faults that the operation may have. -/
def LhTable.change (hashFn : κ → Nat) (t : LhTable κ ν) :
    ObjectOp κ ν → Except LhFault (LhTable κ ν)
  | .add k v => t.objectAdd hashFn k v
  | .del k => t.delete hashFn k

/-- The change of the list of its entries: an entry that is added goes to the end. -/
def ObjectOp.apply (entries : List (κ × ν)) : ObjectOp κ ν → List (κ × ν)
  | .add k v => entries.filter (·.1 ≠ k) ++ [(k, v)]
  | .del k => entries.filter (·.1 ≠ k)

/-- **A lookup goes on for ever** exactly if its key is missing and every slot has been
used. -/
theorem RepresentsAt.lookup_endless_iff {slots : List Nat}
    (h : RepresentsAt hashFn t entries slots) (hsize : 0 < t.size) (k : κ) :
    t.lookup hashFn k = .error .endless ↔
      k ∉ entries.map Prod.fst ∧ ∀ n < t.size, t.table n ≠ .empty := by
  by_cases hempty : ∃ n < t.size, t.table n = .empty
  · rw [h.lookup_eq k hempty]
    obtain ⟨n, hn, hslot⟩ := hempty
    exact ⟨nofun, fun hall => absurd hslot (hall.2 n hn)⟩
  · have hused : ∀ n < t.size, t.table n ≠ .empty := fun n hn hslot => hempty ⟨n, hn, hslot⟩
    by_cases hk : k ∈ entries.map Prod.fst
    · obtain ⟨⟨k, v⟩, hmem, rfl⟩ := List.mem_map.mp hk
      obtain ⟨n, hn, he⟩ := h.mem_iff.mp hmem
      rw [(h.lookupEntry_of_mem hn he).2]
      exact ⟨nofun, fun hall => absurd hk hall.1⟩
    · have hnone : search t.size hashFn Prod.fst t.table k = none :=
        not_not.mp fun hne => hempty ((search_ne_none_iff hsize (h.key_ne hk)).mp hne)
      rw [LhTable.lookup, h.lookupEntry_of_notMem hsize hk, if_pos hnone]
      exact ⟨fun _ => ⟨hk, hused⟩, fun _ => rfl⟩

/-- A lookup that has no end in one turn has none however long it goes on, so that no number of
slots to look at would have been enough. -/
theorem LhTable.lookup_endless (hsize : 0 < t.size) {k : κ}
    (h : t.lookup hashFn k = .error .endless) (fuel : Nat) :
    probe t.size (fun n => (t.table n).ends Prod.fst k) fuel (hashFn k % t.size) = none := by
  refine probe_eq_none (Nat.mod_lt _ hsize) ?_ fuel
  show search t.size hashFn Prod.fst t.table k = none
  by_contra hsome
  obtain ⟨n, hn⟩ := Option.ne_none_iff_exists'.mp hsome
  rw [LhTable.lookup, LhTable.lookupEntry, hn] at h
  cases he : t.table n <;> simp [he, bind, Except.bind, pure, Except.pure] at h

/-- A change ends with the changed list, or goes on for ever as a lookup does. -/
theorem RepresentsAt.change {slots : List Nat} (h : RepresentsAt hashFn t entries slots)
    (hsize : 3 ≤ t.size) (hlt : entries.length < t.size) (op : ObjectOp κ ν) :
    (∃ t' slots', t.change hashFn op = .ok t' ∧ t.size ≤ t'.size ∧
      RepresentsAt hashFn t' (op.apply entries) slots' ∧ (op.apply entries).length < t'.size) ∨
    (t.change hashFn op = .error .endless ∧ t.lookup hashFn op.key = .error .endless) := by
  by_cases hends : op.key ∈ entries.map Prod.fst ∨ ∃ n < t.size, t.table n = .empty
  · left
    cases op with
    | add k v =>
      obtain ⟨t', slots', hadd, hsize', hroom, hrep, -⟩ := h.objectAdd (v := v) (by omega) hends
      have hle : (entries.filter (·.1 ≠ k)).length ≤ entries.length := List.length_filter_le ..
      refine ⟨t', slots', hadd, hsize', hrep, ?_⟩
      rw [ObjectOp.apply, List.length_append, List.length_singleton]
      change 100 * (entries.filter (·.1 ≠ k)).length ≤ _ at hroom
      omega
    | del k =>
      by_cases hk : k ∈ entries.map Prod.fst
      · obtain ⟨-, -, t', slots', hdelete, -, -, hsize', -, hrep⟩ := h.delete_of_mem hk
        refine ⟨t', slots', hdelete, hsize'.ge, hrep, ?_⟩
        rw [hsize']
        exact (List.length_filter_le ..).trans_lt hlt
      · have hsame : entries.filter (·.1 ≠ k) = entries := filter_ne_of_notMem hk
        have hfound := h.search_ne_none hk (hends.resolve_left hk)
        refine ⟨t, slots, ?_, le_rfl, ?_, (List.length_filter_le ..).trans_lt hlt⟩
        · rw [LhTable.change, h.delete_of_notMem (by omega) hk, if_neg hfound]
        · rwa [ObjectOp.apply, hsame]
  · right
    rw [not_or] at hends
    have hnone : search t.size hashFn Prod.fst t.table op.key = none :=
      not_not.mp fun hne => hends.2 ((search_ne_none_iff (by omega) (h.key_ne hends.1)).mp hne)
    have hdelete : t.delete hashFn op.key = .error .endless := by
      rw [h.delete_of_notMem (by omega) hends.1, if_pos hnone]
    refine ⟨?_, (h.lookup_endless_iff (by omega) op.key).mpr
      ⟨hends.1, fun n hn hslot => hends.2 ⟨n, hn, hslot⟩⟩⟩
    cases op with
    | add k v =>
      rw [ObjectOp.key] at hdelete
      rw [LhTable.change, LhTable.objectAdd, hdelete]
      rfl
    | del k => exact hdelete

/-- **An object with deletions**: a run of changes ends with the changed list, or some
change of it looks for ever for a key that is missing, every slot having been used. -/
theorem objectRun_refines (ops : List (ObjectOp κ ν)) :
    (∃ t, ops.foldlM (LhTable.change hashFn) (LhTable.new jsonObjectDefHashEntries) = .ok t ∧
      t.foreach = .ok (ops.foldl ObjectOp.apply [])) ∨
    (ops.foldlM (LhTable.change hashFn) (LhTable.new jsonObjectDefHashEntries) =
        .error .endless ∧
      ∃ done op rest t, ops = done ++ op :: rest ∧
        done.foldlM (LhTable.change hashFn) (LhTable.new jsonObjectDefHashEntries) = .ok t ∧
        op.key ∉ (done.foldl ObjectOp.apply []).map Prod.fst ∧
        ∀ n < t.size, t.table n ≠ .empty) := by
  have hrun : ∀ (ops : List (ObjectOp κ ν)) {t : LhTable κ ν} {entries slots},
      RepresentsAt hashFn t entries slots → 3 ≤ t.size → entries.length < t.size →
      (∃ t' slots', ops.foldlM (LhTable.change hashFn) t = .ok t' ∧
        RepresentsAt hashFn t' (ops.foldl ObjectOp.apply entries) slots') ∨
      (ops.foldlM (LhTable.change hashFn) t = .error .endless ∧
        ∃ done op rest t', ops = done ++ op :: rest ∧
          done.foldlM (LhTable.change hashFn) t = .ok t' ∧
          op.key ∉ (done.foldl ObjectOp.apply entries).map Prod.fst ∧
          ∀ n < t'.size, t'.table n ≠ .empty) := by
    intro ops
    induction ops with
    | nil => exact fun h _ _ => .inl ⟨_, _, rfl, h⟩
    | cons op ops ih =>
      intro t entries slots h hsize hlt
      rcases h.change hsize hlt op with ⟨t₁, slots₁, hchange, hle, h₁, hlt₁⟩ | ⟨hchange, hlookup⟩
      · rcases ih h₁ (hsize.trans hle) hlt₁ with ⟨t', slots', hfold, hrep⟩ |
          ⟨hfold, done, op', rest, t', rfl, hdone, hkey, hused⟩
        · refine .inl ⟨t', slots', ?_, hrep⟩
          rw [List.foldlM_cons, hchange]
          exact hfold
        · refine .inr ⟨?_, op :: done, op', rest, t', rfl, ?_, hkey, hused⟩
          · rw [List.foldlM_cons, hchange]
            exact hfold
          · rw [List.foldlM_cons, hchange]
            exact hdone
      · obtain ⟨hkey, hused⟩ := (h.lookup_endless_iff (by omega) op.key).mp hlookup
        refine .inr ⟨?_, [], op, ops, t, rfl, rfl, hkey, hused⟩
        rw [List.foldlM_cons, hchange]
        rfl
  have hsize : 3 ≤ jsonObjectDefHashEntries := by decide
  rcases hrun ops (representsAt_new (ν := ν) hashFn jsonObjectDefHashEntries)
    hsize (Nat.zero_lt_of_lt hsize) with ⟨t, slots, hfold, h⟩ | hends
  · exact .inl ⟨t, hfold, h.foreach_eq⟩
  · exact .inr hends

/-- Sixteen keys, each deleted before the next one is added, use every slot of an object that
has no entry in the end. -/
example : (("abcdefghijklmnop".toList.flatMap fun c => [ObjectOp.add [c] (), .del [c]]).foldlM
    (LhTable.change lhCharHash) (LhTable.new jsonObjectDefHashEntries) >>=
      fun t => t.lookup lhCharHash ['q']) = .error .endless := by decide +kernel

end Deletions

end StatsdC
