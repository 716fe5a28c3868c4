import Mathlib.Data.List.ReduceOption
import Mathlib.Data.Multiset.AddSub
import StatsdC.JsonObject
import StatsdC.Lib.Fallible
import StatsdC.Lib.GrowableBlock

/-!
# The array list

`arraylist.c` keeps the elements of a JSON array in a block of pointers, which are `NULL` behind the
last one.  A write to an index that is behind the block first makes the block as large as the
index, or twice as large if that is more.  As large as the index is one too small: a write to an
index of twice the size or above is outside the new block as well.

An array that is only added to does not come there, and whatever is written, each object that was
put into it is released once: when another takes its place or when the array goes
(`arrayListRun_eq`).  What was released is part of the model's array (`freed`), so that nothing can
be released twice unnoticed.  The array of a JSON value, which is only added to, is the list that
`Json.array` has (`jsonArray_stands`).

Reads are those of the source as well: an index behind the last element gives `NULL`, and a
negative one is an access in front of the block.

The sizes are `int`.  A size that would pass its range is a fault of its own, `overflow`, which an
array of fewer than `2 ^ 30` cells does not come to; that is why the theorem says when a write is
outside the block for such arrays only.  A `calloc` or `realloc` that fails is left out.
-/

namespace StatsdC
open GrowableBlock

/-- What keeps a call from its end: an access that is not legal, or an overflow. -/
inductive ArrayListFault where
  /-- An access outside the block, or to a cell that was never written. -/
  | badAccess
  /-- A size that is no `int`. -/
  | overflow
  deriving DecidableEq

/-- `struct array_list`, and the objects that `free_fn` was called with. -/
structure ArrayList (α : Type) where
  array : Cells (Option α)
  length : Nat
  size : Nat
  freed : List α

namespace ArrayList
variable {α : Type}

/-- `memset` and `calloc`: pointers that are `NULL`, as many as are cleared. -/
def nulls (n : Nat) : List (Option α) := List.replicate n none

/-- A store into the block, which fails outside it. -/
def write (arr : ArrayList α) (idx : Nat) (xs : List (Option α)) :
    Except ArrayListFault (ArrayList α) :=
  match store arr.array idx xs with
  | some array => .ok { arr with array }
  | none => .error .badAccess

/-- What is in a cell, which must have been written before. -/
def read (arr : ArrayList α) (idx : Nat) : Except ArrayListFault (Option α) :=
  match arr.array[idx]? with
  | some (some data) => .ok data
  | _ => .error .badAccess

/-- `array_list_new`, with a block of 32 pointers that `calloc` clears. -/
def new : ArrayList α := ⟨(nulls 32).map some, 0, 32, []⟩

/-- `array_list_get_idx`.  An index behind the length gives `NULL`, and a negative one is not
checked for. -/
def getIdx (arr : ArrayList α) (i : Int) : Except ArrayListFault (Option α) :=
  if arr.length ≤ i then .ok none
  else if 0 ≤ i then arr.read i.toNat
  else .error .badAccess

/-- `array_list_expand_internal`.  It returns without growing as long as the index is below the
size, and what it adds is cleared. -/
def expandInternal (arr : ArrayList α) (max : Int) : Except ArrayListFault (ArrayList α) :=
  if max < arr.size then .ok arr
  else
    let newSize := Nat.max (arr.size * 2) max.toNat
    if newSize < 2 ^ 31 then
      write { arr with array := realloc arr.array newSize, size := newSize } arr.size
        (nulls (newSize - arr.size))
    else
      .error .overflow

/-- `array_list_put_idx`, which releases what was at the index and moves the length behind it. -/
def putIdx (arr : ArrayList α) (idx : Int) (data : Option α) :
    Except ArrayListFault (ArrayList α) := do
  let arr ← arr.expandInternal idx
  if 0 ≤ idx then
    let old ← arr.read idx.toNat
    let arr ← arr.write idx.toNat [data]
    return { arr with
      freed := arr.freed ++ old.toList
      length := if arr.length ≤ idx then idx.toNat + 1 else arr.length }
  else
    .error .badAccess

/-- `array_list_add`, at the index behind the last element. -/
def add (arr : ArrayList α) (data : Option α) : Except ArrayListFault (ArrayList α) :=
  arr.putIdx arr.length data

/-- `array_list_free`: the objects that were released by then. -/
def free (arr : ArrayList α) : Except ArrayListFault (List α) :=
  match load arr.array arr.length with
  | some pointers => .ok (arr.freed ++ pointers.reduceOption)
  | none => .error .badAccess

/-- A write to the array, by one of the two functions that write to it. -/
inductive Op (α : Type) where
  | add (data : Option α)
  | putIdx (idx : Int) (data : Option α)

/-- What is written. -/
def Op.data : Op α → Option α
  | add data | putIdx _ data => data

def Op.apply (arr : ArrayList α) : Op α → Except ArrayListFault (ArrayList α)
  | add data => arr.add data
  | putIdx idx data => arr.putIdx idx data

/-- The array after a run of writes, from a new one on. -/
def run (ops : List (Op α)) : Except ArrayListFault (ArrayList α) := ops.foldlM Op.apply new

/-! ## The elements -/

/-- A write to a list, which is filled with `NULL`s up to the index. -/
def putSlot (slots : List (Option α)) (idx : Nat) (data : Option α) : List (Option α) :=
  if idx < slots.length then slots.set idx data
  else slots ++ nulls (idx - slots.length) ++ [data]

def Op.applyList (slots : List (Option α)) : Op α → List (Option α)
  | add data => slots ++ [data]
  | putIdx idx data => putSlot slots idx.toNat data

/-- The elements after a run, as the list that the writes describe. -/
def contents (ops : List (Op α)) : List (Option α) := ops.foldl Op.applyList []

/-- The array has the elements `slots`, and `NULL` behind them. -/
structure Represents (arr : ArrayList α) (slots : List (Option α)) : Prop where
  length : arr.length = slots.length
  fits : slots.length ≤ arr.size
  block : GrowableBlock.Holds arr.array (slots ++ nulls (arr.size - slots.length))
  size : arr.array.length = arr.size
  pos : 0 < arr.size
  int : arr.size < 2 ^ 31

variable {arr : ArrayList α} {slots : List (Option α)}

theorem length_nulls (n : Nat) : (nulls n : List (Option α)).length = n := List.length_replicate

theorem nulls_append (m n : Nat) : (nulls m ++ nulls n : List (Option α)) = nulls (m + n) :=
  List.replicate_append_replicate

theorem represents_new : (new : ArrayList α).Represents [] :=
  ⟨rfl, Nat.zero_le _, List.prefix_rfl, rfl, Nat.succ_pos 31, (by decide : 32 < 2 ^ 31)⟩

theorem Represents.length_block (h : arr.Represents slots) :
    (slots ++ nulls (arr.size - slots.length)).length = arr.size := by
  rw [List.length_append, length_nulls]
  exact Nat.add_sub_cancel' h.fits

/-- How large a block is made for an index: twice the size, or the index where that is more. -/
def sizeFor (size idx : Nat) : Nat := if idx < size then size else Nat.max (size * 2) idx

/-- The block grows, unless its size is no `int`, and the elements are as before. -/
theorem Represents.expandInternal (h : arr.Represents slots) (idx : Nat) :
    arr.expandInternal idx = .error .overflow ∧ 2 ^ 31 ≤ sizeFor arr.size idx ∨
      ∃ arr', arr.expandInternal idx = .ok arr' ∧ arr'.Represents slots ∧
        arr'.size = sizeFor arr.size idx ∧ arr'.freed = arr.freed := by
  unfold ArrayList.expandInternal sizeFor
  by_cases hlt : idx < arr.size
  · rw [if_pos (by omega), if_pos hlt]
    exact .inr ⟨arr, rfl, h, rfl, rfl⟩
  · rw [if_neg (by omega), if_neg hlt, Int.toNat_natCast]
    dsimp only
    split
    · rename_i hint
      have hge : arr.size ≤ Nat.max (arr.size * 2) idx :=
        (Nat.le_mul_of_pos_right _ (by decide)).trans (Nat.le_max_left _ _)
      generalize Nat.max (arr.size * 2) idx = newSize at hge hint ⊢
      have hrealloc : GrowableBlock.Holds (realloc arr.array newSize) _ :=
        h.block.realloc (h.length_block.trans_le hge)
      obtain ⟨array, hstore, hholds, hlength⟩ :=
        hrealloc.exists_store (nulls (newSize - arr.size)) (by
          rw [h.length_block, length_nulls, length_realloc]
          omega)
      rw [h.length_block] at hstore
      have hfits := h.fits
      refine .inr ⟨{ arr with array, size := newSize }, ?_, ⟨h.length, by dsimp only; omega, ?_,
        hlength.trans (length_realloc ..), h.pos.trans_le hge, hint⟩, rfl, rfl⟩
      · rw [write, hstore]
      · rw [List.append_assoc, nulls_append] at hholds
        have hsum : arr.size - slots.length + (newSize - arr.size) = newSize - slots.length := by
          omega
        rwa [hsum] at hholds
    · rename_i hge
      exact .inl ⟨rfl, not_lt.mp hge⟩

theorem sizeFor_le_iff {size idx : Nat} (hpos : 0 < size) :
    sizeFor size idx ≤ idx ↔ 2 * size ≤ idx := by
  unfold sizeFor
  split
  · omega
  · have hmax : Nat.max (size * 2) idx = max (size * 2) idx := rfl
    omega

theorem sizeFor_lt {size idx : Nat} (hsize : size < 2 ^ 30) (hidx : idx < 2 ^ 31) :
    sizeFor size idx < 2 ^ 31 := by
  unfold sizeFor
  split
  · omega
  · exact Nat.max_lt.mpr ⟨by omega, hidx⟩

/-- The element of an index, and `NULL` behind the last one, as `array_list_get_idx` has it. -/
def slotAt (slots : List (Option α)) (idx : Nat) : Option α := (slots[idx]?).join

theorem getElem?_block {n idx : Nat} (hidx : idx < slots.length + n) :
    (slots ++ nulls n)[idx]? = some (slotAt slots idx) := by
  unfold slotAt
  rcases Nat.lt_or_ge idx slots.length with hlt | hge
  · rw [List.getElem?_append_left hlt, List.getElem?_eq_getElem hlt]
    rfl
  · rw [List.getElem?_append_right hge, List.getElem?_eq_none hge, nulls,
      List.getElem?_replicate_of_lt (by omega)]
    rfl

theorem set_block {n idx : Nat} (hidx : idx < slots.length + n) (data : Option α) :
    (slots ++ nulls n).set idx data =
      putSlot slots idx data ++ nulls (slots.length + n - (putSlot slots idx data).length) := by
  unfold putSlot
  split
  · rename_i hlt
    rw [List.set_append_left _ _ hlt, List.length_set, Nat.add_sub_cancel_left]
  · rename_i hge
    obtain ⟨k, rfl⟩ := Nat.exists_eq_add_of_le (not_lt.mp hge)
    obtain ⟨r, rfl⟩ := Nat.exists_eq_add_of_lt (Nat.add_lt_add_iff_left.mp hidx)
    have hsplit : (nulls (k + r + 1) : List (Option α)) = nulls k ++ none :: nulls r := by
      rw [Nat.add_assoc, ← nulls_append]
      rfl
    have hlength : (slots ++ nulls k ++ [data]).length = slots.length + k + 1 := by
      rw [List.length_append, List.length_append, length_nulls, List.length_singleton]
    have hrest : slots.length + (k + r + 1) - (slots.length + k + 1) = r := by omega
    rw [Nat.add_sub_cancel_left, hlength, hrest, hsplit,
      List.set_append_right _ _ (Nat.le_add_right _ _), Nat.add_sub_cancel_left,
      List.set_append_right _ _ (length_nulls k).le, length_nulls, Nat.sub_self,
      List.set_cons_zero, List.append_assoc, List.append_assoc]
    rfl

theorem length_putSlot (slots : List (Option α)) (idx : Nat) (data : Option α) :
    (putSlot slots idx data).length = if idx < slots.length then slots.length else idx + 1 := by
  unfold putSlot
  split
  · exact List.length_set
  · rw [List.length_append, List.length_append, length_nulls, List.length_singleton]
    omega

/-- What a write leaves, or why it fails: an overflow of the size, or an index at the end of the
block. -/
inductive PutCases (arr : ArrayList α) (slots : List (Option α)) (idx : Nat) (data : Option α) :
    Except ArrayListFault (ArrayList α) → Prop where
  | done (arr' : ArrayList α) :
      arr'.Represents (putSlot slots idx data) → arr'.size = sizeFor arr.size idx →
      arr'.freed = arr.freed ++ (slotAt slots idx).toList → idx < 2 * arr.size →
      PutCases arr slots idx data (.ok arr')
  | overflow : 2 ^ 31 ≤ sizeFor arr.size idx → PutCases arr slots idx data (.error .overflow)
  | badAccess : 2 * arr.size ≤ idx → PutCases arr slots idx data (.error .badAccess)

/-- **A write** at an index takes the place of what is there.  It is outside the block
if the index is twice the size or more. -/
theorem Represents.putIdx (h : arr.Represents slots) (idx : Nat) (data : Option α) :
    PutCases arr slots idx data (arr.putIdx idx data) := by
  unfold ArrayList.putIdx
  rcases h.expandInternal idx with ⟨hfail, hsize⟩ | ⟨arr₁, hok, h₁, hsize, hfreed⟩
  · rw [hfail]
    exact .overflow hsize
  · have hlen := h₁.length_block
    rw [hok, Int.toNat_natCast]
    simp only [bind, Except.bind, if_pos (Int.natCast_nonneg idx)]
    rcases Nat.lt_or_ge idx arr₁.size with hlt | hge
    · rw [List.length_append, length_nulls] at hlen
      rw [← hlen] at hlt
      have hidx : idx < 2 * arr.size := by
        have := (@sizeFor_le_iff arr.size idx h.pos).not.mp (by omega)
        omega
      obtain ⟨array, hstore, hholds, hlength⟩ :=
        h₁.block.exists_set (i := idx) (by rwa [List.length_append, length_nulls]) data
      have hread : arr₁.read idx = .ok (slotAt slots idx) := by
        rw [read, h₁.block.getElem? (by rwa [List.length_append, length_nulls]),
          getElem?_block hlt]
      have hwrite : arr₁.write idx [data] = .ok { arr₁ with array } := by rw [write, hstore]
      rw [hread, hwrite]
      have hfits := h₁.fits
      refine .done _ ⟨?_, ?_, ?_, hlength.trans h₁.size, h₁.pos, h₁.int⟩ hsize
        (congrArg (· ++ _) hfreed) hidx
      · rw [length_putSlot]
        dsimp only
        rw [h₁.length]
        split <;> split <;> omega
      · rw [length_putSlot]
        dsimp only
        split <;> omega
      · rw [set_block hlt] at hholds
        dsimp only
        rwa [← hlen]
    · have hread : arr₁.read idx = .error .badAccess := by
        rw [read, List.getElem?_eq_none (h₁.size.trans_le hge)]
      rw [hread]
      exact .badAccess ((sizeFor_le_iff h.pos).mp (hsize ▸ hge))

/-! ## Objects that are released -/

/-- What a write puts in and takes out: the objects before and the new one are those after it and
the one released. -/
theorem perm_putSlot (slots : List (Option α)) (idx : Nat) (data : Option α) :
    ((slotAt slots idx).toList ++ (putSlot slots idx data).reduceOption).Perm
      (slots.reduceOption ++ data.toList) := by
  have hcons : ∀ (x : Option α) (xs : List (Option α)),
      (x :: xs).reduceOption = x.toList ++ xs.reduceOption := by
    intro x xs
    cases x <;> rfl
  unfold putSlot
  split
  · rename_i hlt
    have hsplit : slots = slots.take idx ++ slots[idx] :: slots.drop (idx + 1) := by
      rw [← List.drop_eq_getElem_cons hlt, List.take_append_drop]
    have hslot : slotAt slots idx = slots[idx] := by
      rw [slotAt, List.getElem?_eq_getElem hlt]
      rfl
    rw [hslot, List.set_eq_take_append_cons_drop, if_pos hlt, List.reduceOption_append, hcons]
    have hobjects : slots.reduceOption = (slots.take idx).reduceOption ++
        (slots[idx].toList ++ (slots.drop (idx + 1)).reduceOption) := by
      rw [← hcons, ← List.reduceOption_append, ← hsplit]
    rw [hobjects, ← Multiset.coe_eq_coe]
    simp only [← Multiset.coe_add]
    ac_rfl
  · rename_i hge
    have hnone : slotAt slots idx = none := by
      rw [slotAt, List.getElem?_eq_none (not_lt.mp hge)]
      rfl
    have hnulls : (nulls (idx - slots.length) : List (Option α)).reduceOption = [] :=
      List.reduceOption_replicate_none
    rw [hnone, List.reduceOption_append, List.reduceOption_append, hnulls, List.append_nil,
      List.reduceOption_singleton]
    rfl

/-! ## Runs -/

theorem Represents.getIdx_eq (h : arr.Represents slots) (i : Nat) :
    arr.getIdx i = .ok (slotAt slots i) := by
  have hfits := h.fits
  unfold getIdx
  rw [h.length]
  split
  · rename_i hge
    rw [slotAt, List.getElem?_eq_none (by omega)]
    rfl
  · rename_i hlt
    have hidx : i < slots.length + (arr.size - slots.length) := by omega
    rw [if_pos (Int.natCast_nonneg i), Int.toNat_natCast, read,
      h.block.getElem? (by rwa [List.length_append, length_nulls]), getElem?_block hidx]

/-- **Every object is released**: what was released before, and what is in the array. -/
theorem Represents.free_eq (h : arr.Represents slots) :
    arr.free = .ok (arr.freed ++ slots.reduceOption) := by
  rw [free, h.length, (h.block.of_append).load_eq]

theorem add_eq (h : arr.Represents slots) (data : Option α) :
    putSlot slots arr.length data = slots ++ [data] := by
  rw [putSlot, h.length, if_neg (lt_irrefl _), Nat.sub_self, nulls, List.replicate_zero,
    List.append_nil]

/-- What holds of the array after a run: it has the elements, and every object that was put into
it is there or has been released, once. -/
structure AfterRun (ops : List (Op α)) (arr : ArrayList α) : Prop where
  represents : arr.Represents (contents ops)
  objects : (arr.freed ++ (contents ops).reduceOption).Perm (ops.map Op.data).reduceOption

theorem putIdx_neg (h : arr.Represents slots) {idx : Int} (hneg : idx < 0) (data : Option α) :
    arr.putIdx idx data = .error .badAccess := by
  have hpos := h.pos
  rw [putIdx, expandInternal, if_pos (by omega)]
  simp only [bind, Except.bind, if_neg (not_le.mpr hneg)]

/-- A write that succeeds is one at an index that is not negative. -/
theorem apply_eq_ok (h : arr.Represents slots) {op : Op α} {arr' : ArrayList α}
    (hstep : op.apply arr = .ok arr') :
    ∃ idx : Nat, arr.putIdx idx op.data = .ok arr' ∧
      op.applyList slots = putSlot slots idx op.data := by
  cases op with
  | add data => exact ⟨arr.length, hstep, (add_eq h data).symm⟩
  | putIdx idx data =>
    rcases lt_or_ge idx 0 with hneg | hnonneg
    · cases (putIdx_neg h hneg data).symm.trans hstep
    · obtain ⟨n, rfl⟩ := Int.eq_ofNat_of_zero_le hnonneg
      exact ⟨n, hstep, rfl⟩

theorem contents_concat (ops : List (Op α)) (op : Op α) :
    contents (ops ++ [op]) = op.applyList (contents ops) := by
  rw [contents, List.foldl_append]
  rfl

/-- **One write.** -/
theorem AfterRun.step {ops : List (Op α)} (h : AfterRun ops arr) {op : Op α}
    {arr' : ArrayList α} (hstep : op.apply arr = .ok arr') : AfterRun (ops ++ [op]) arr' := by
  obtain ⟨idx, hput, hcontents⟩ := apply_eq_ok h.represents hstep
  rw [← contents_concat] at hcontents
  have hcases := h.represents.putIdx idx op.data
  rw [hput] at hcases
  cases hcases with
  | done _ hrepresents _ hfreed _ =>
    refine ⟨hcontents ▸ hrepresents, ?_⟩
    have hwrite := perm_putSlot (contents ops) idx op.data
    rw [hfreed, hcontents, List.map_append, List.reduceOption_append, List.append_assoc]
    refine (hwrite.append_left _).trans ?_
    rw [← List.append_assoc, List.map_singleton, List.reduceOption_singleton]
    exact h.objects.append_right _

theorem run_concat (ops : List (Op α)) (op : Op α) :
    run (ops ++ [op]) = (do
      let arr ← run ops
      op.apply arr) := by
  rw [run, List.foldlM_append]
  refine bind_congr fun arr => ?_
  rw [List.foldlM_cons]
  exact bind_pure _

theorem afterRun {ops : List (Op α)} (hrun : run ops = .ok arr) : AfterRun ops arr := by
  induction ops using List.reverseRecOn generalizing arr with
  | nil =>
    obtain rfl := Except.ok.inj hrun
    exact ⟨represents_new, List.Perm.refl _⟩
  | append_singleton ops op ih =>
    rw [run_concat, Fallible.bind_eq_ok] at hrun
    obtain ⟨arr₁, hrun₁, hstep⟩ := hrun
    exact (ih hrun₁).step hstep

/-- Additions only, and not too many of them, are in the block, so that such a run succeeds. -/
theorem exists_run_add {ops : List (Op α)} (hops : ∀ op ∈ ops, ∃ data, op = .add data)
    (hlen : ops.length ≤ 2 ^ 30) :
    ∃ arr, run ops = .ok arr ∧ (contents ops).length = ops.length := by
  induction ops using List.reverseRecOn with
  | nil => exact ⟨_, rfl, rfl⟩
  | append_singleton ops op ih =>
    rw [List.length_append, List.length_singleton] at hlen
    obtain ⟨arr, hrun, hcount⟩ :=
      ih (fun op hop => hops op (List.mem_append_left _ hop)) (by omega)
    obtain ⟨data, rfl⟩ := hops op (List.mem_append_right _ (List.mem_singleton_self op))
    have h := (afterRun hrun).represents
    have hcases := h.putIdx arr.length data
    have hfits := h.fits
    have hlength := h.length
    have hpos := h.pos
    cases hput : arr.putIdx arr.length data with
    | ok arr' =>
      refine ⟨arr', ?_, ?_⟩
      · rw [run_concat, hrun]
        exact hput
      · rw [contents_concat, Op.applyList, List.length_append, hcount, List.length_append]
        rfl
    | error e =>
      rw [hput] at hcases
      cases hcases with
      | overflow hsize =>
        have hint := h.int
        unfold sizeFor at hsize
        split at hsize
        · omega
        · have hmax : Nat.max (arr.size * 2) arr.length = arr.size * 2 :=
            Nat.max_eq_left (by omega)
          omega
      | badAccess hidx => omega

/-- **Runs of an array list.**  After a run, whatever was written, a read gives the last element
written to its index, and when the array goes every object that was put into it has been
released exactly once.  The next write, to an array of fewer than `2 ^ 30` cells and at an
index that is an `int`, is outside the block exactly if its index is negative or at least
twice the size.  A run of additions, of up to `2 ^ 30` elements, does not fail. -/
theorem arrayListRun_eq (ops : List (Op α)) :
    (∀ arr, run ops = .ok arr →
      arr.length = (contents ops).length ∧
      (∀ i : Nat, arr.getIdx i = .ok (slotAt (contents ops) i)) ∧
      (∃ released, arr.free = .ok released ∧
        released.Perm (ops.map Op.data).reduceOption) ∧
      ∀ (idx : Int) data, arr.size < 2 ^ 30 → idx < 2 ^ 31 →
        (arr.putIdx idx data = .error .badAccess ↔ idx < 0 ∨ 2 * arr.size ≤ idx)) ∧
    ((∀ op ∈ ops, ∃ data, op = .add data) → ops.length ≤ 2 ^ 30 → ∃ arr, run ops = .ok arr) := by
  refine ⟨fun arr hrun => ?_, fun hops hlen => ?_⟩
  · obtain ⟨h, hobjects⟩ := afterRun hrun
    refine ⟨h.length, h.getIdx_eq, ⟨_, h.free_eq, hobjects⟩, fun idx data hsize hidx => ?_⟩
    rcases lt_or_ge idx 0 with hneg | hnonneg
    · exact ⟨fun _ => .inl hneg, fun _ => putIdx_neg h hneg data⟩
    · obtain ⟨n, rfl⟩ := Int.eq_ofNat_of_zero_le hnonneg
      have hcases := h.putIdx n data
      constructor
      · intro hput
        rw [hput] at hcases
        cases hcases with
        | badAccess hle => exact .inr (by omega)
      · rintro (hneg | hle)
        · omega
        · cases hput : arr.putIdx n data with
          | ok arr' =>
            rw [hput] at hcases
            cases hcases with
            | done _ _ _ _ hlt => omega
          | error e =>
            rw [hput] at hcases
            cases hcases with
            | overflow hbig =>
              exact absurd (sizeFor_lt hsize (by omega)) (not_lt.mpr hbig)
            | badAccess _ => rfl
  · obtain ⟨arr, hrun, -⟩ := exists_run_add hops hlen
    exact ⟨arr, hrun⟩

/-- The pointer to a value, which is `NULL` for `null`, as the elements of an array are stored. -/
def pointer : Json → Option Json
  | .null => none
  | v => some v

theorem contents_add (slots : List (Option α)) :
    contents (slots.map Op.add) = slots := by
  induction slots using List.reverseRecOn with
  | nil => rfl
  | append_singleton slots x ih =>
    rw [List.map_append, List.map_singleton, contents_concat, ih]
    rfl

/-- **The array of a JSON value** is the list that the model of the values has. -/
theorem jsonArray_stands {elements : List Json} (hlen : elements.length ≤ 2 ^ 30) :
    ∃ arr, run ((elements.map pointer).map Op.add) = .ok arr ∧
      (Json.array elements).arrayLength = .ok arr.length ∧
      ∀ i : Nat, ∃ v, (Json.array elements).arrayGetIdx i = .ok v ∧
        arr.getIdx i = .ok (pointer v) := by
  have hadds : ∀ op ∈ (elements.map pointer).map Op.add, ∃ data, op = .add data := by
    intro op hop
    obtain ⟨data, -, rfl⟩ := List.mem_map.mp hop
    exact ⟨data, rfl⟩
  obtain ⟨arr, hrun, -⟩ := exists_run_add hadds (by rwa [List.length_map, List.length_map])
  have h := (afterRun hrun).represents
  rw [contents_add] at h
  have hlength := h.length
  rw [List.length_map] at hlength
  refine ⟨arr, hrun, congrArg Except.ok hlength.symm, fun i => ⟨_, rfl, ?_⟩⟩
  rw [h.getIdx_eq, slotAt, List.getElem?_map, List.getD_eq_getElem?_getD]
  cases elements[i]? with
  | none => rfl
  | some v => rfl

end ArrayList

end StatsdC
