import Mathlib.Data.List.Basic
import Mathlib.Data.List.TakeWhile

/-!
# Blocks of memory that grow

A container that grows keeps its elements at the front of a block, and moves them to a larger
block before it writes behind them.  A cell that was never written holds nothing: to read it is a
fault, and so is an access outside the block.  All operations are partial for this reason, and a
program over blocks is correct if it never meets `none`.

`Holds m xs` says that the elements `xs` are at the front of the block `m`, and nothing about the
cells behind them.  Three rules are enough for a container:

* a block that is reallocated keeps its elements while it has room for them (`Holds.realloc`);
* what is stored behind the elements is appended to them (`Holds.exists_store`), and what is
  stored over one of them replaces it (`Holds.exists_set`);
* what is loaded from the front is what the block holds (`Holds.load_eq`), and a search for an
  end mark finds the first one that is held (`Holds.readUntil_eq`).

How much a container asks for when it grows, and in which type it computes that, is left to it.
So is the question what happens when there is no more memory.
-/

namespace GrowableBlock

variable {α : Type*}

/-- The cells of a block, of which `none` has never been written. -/
abbrev Cells (α : Type*) := List (Option α)

/-- `malloc`, whose cells hold nothing that may be read. -/
def malloc (size : Nat) : Cells α := List.replicate size none

/-- `realloc`: the cells of both sizes keep what they hold. -/
def realloc (m : Cells α) (size : Nat) : Cells α :=
  m.take size ++ List.replicate (size - m.length) none

/-- `memcpy` into the block, from offset `p` on. -/
def store (m : Cells α) (p : Nat) (xs : List α) : Option (Cells α) :=
  if p + xs.length ≤ m.length then
    some (m.take p ++ xs.map some ++ m.drop (p + xs.length))
  else
    none

/-- The first `n` cells, all of which must have been written; else the read is not legal. -/
def load (m : Cells α) (n : Nat) : Option (List α) := (m.take n).mapM id

/-- The elements up to the first that ends them. -/
def readUntil (ends : α → Bool) : Cells α → Option (List α)
  | [] | none :: _ => none
  | some x :: m => if ends x then some [] else (readUntil ends m).map (x :: ·)

/-- The elements are at the front of the block, whatever is in the cells behind them. -/
def Holds (m : Cells α) (xs : List α) : Prop := xs.map some <+: m

variable {m m' : Cells α} {xs ys : List α}

@[simp] theorem length_malloc (size : Nat) : (malloc size : Cells α).length = size :=
  List.length_replicate

@[simp] theorem length_realloc (m : Cells α) (size : Nat) : (realloc m size).length = size := by
  rw [realloc, List.length_append, List.length_take, List.length_replicate]
  omega

theorem holds_nil (m : Cells α) : Holds m [] := List.nil_prefix

theorem Holds.length_le (h : Holds m xs) : xs.length ≤ m.length := by
  have hle := List.IsPrefix.length_le h
  rwa [List.length_map] at hle

theorem Holds.of_append (h : Holds m (xs ++ ys)) : Holds m xs := by
  rw [Holds, List.map_append] at h
  exact (List.prefix_append _ _).trans h

theorem Holds.getElem? (h : Holds m xs) {i : Nat} (hi : i < xs.length) :
    m[i]? = some xs[i]? := by
  obtain ⟨tail, rfl⟩ := h
  rw [List.getElem?_append_left (by rwa [List.length_map]), List.getElem?_map,
    List.getElem?_eq_getElem hi]
  rfl

theorem Holds.take_eq (h : Holds m xs) : m.take xs.length = xs.map some := by
  have hprefix := List.prefix_iff_eq_take.mp h
  rw [List.length_map] at hprefix
  exact hprefix.symm

theorem Holds.load_eq (h : Holds m xs) : load m xs.length = some xs := by
  rw [load, h.take_eq]
  clear h
  induction xs with
  | nil => rfl
  | cons x xs ih =>
    rw [List.map_cons, List.mapM_cons, ih]
    rfl

/-- Elements that have room in both blocks are kept by `realloc`. -/
theorem Holds.realloc (h : Holds m xs) {size : Nat} (hsize : xs.length ≤ size) :
    Holds (realloc m size) xs := by
  obtain ⟨tail, rfl⟩ := h
  have hlen : (xs.map some).length ≤ size := by rwa [List.length_map]
  rw [Holds, GrowableBlock.realloc, List.take_append, List.take_of_length_le hlen,
    List.append_assoc]
  exact List.prefix_append _ _

theorem length_store {p : Nat} (h : store m p xs = some m') : m'.length = m.length := by
  unfold store at h
  split at h
  · obtain rfl := Option.some.inj h
    simp only [List.length_append, List.length_take, List.length_map, List.length_drop]
    omega
  · cases h

/-- **What is stored behind the elements is appended to them.** -/
theorem Holds.exists_store (h : Holds m xs) (ys : List α)
    (hroom : xs.length + ys.length ≤ m.length) :
    ∃ m', store m xs.length ys = some m' ∧ Holds m' (xs ++ ys) ∧ m'.length = m.length := by
  have hstore : store m xs.length ys =
      some (m.take xs.length ++ ys.map some ++ m.drop (xs.length + ys.length)) := if_pos hroom
  refine ⟨_, hstore, ?_, length_store hstore⟩
  rw [h.take_eq, Holds, List.map_append]
  exact List.prefix_append _ _

/-- What is stored over an element takes its place. -/
theorem Holds.exists_set (h : Holds m xs) {i : Nat} (hi : i < xs.length) (y : α) :
    ∃ m', store m i [y] = some m' ∧ Holds m' (xs.set i y) ∧ m'.length = m.length := by
  have hroom : i + [y].length ≤ m.length := hi.trans_le h.length_le
  have hstore : store m i [y] = some (m.take i ++ [y].map some ++ m.drop (i + [y].length)) :=
    if_pos hroom
  refine ⟨_, hstore, ?_, length_store hstore⟩
  have hm : m.set i (some y) = m.take i ++ [y].map some ++ m.drop (i + [y].length) := by
    rw [List.set_eq_take_append_cons_drop, if_pos (hi.trans_le h.length_le), List.append_assoc]
    rfl
  obtain ⟨tail, rfl⟩ := h
  rw [← hm, List.set_append_left _ _ (by rwa [List.length_map]), ← List.map_set]
  exact List.prefix_append _ _

/-- The elements are read up to the first that ends them, if one does. -/
theorem Holds.readUntil_eq {ends : α → Bool} {z : α} (h : Holds m (xs ++ [z]))
    (hz : ends z = true) : readUntil ends m = some (xs.takeWhile fun x => !ends x) := by
  obtain ⟨tail, rfl⟩ := h
  rw [List.map_append, List.append_assoc, List.map_singleton, List.singleton_append]
  induction xs with
  | nil => simp [readUntil, hz]
  | cons x xs ih =>
    rw [List.map_cons, List.cons_append, readUntil]
    cases hx : ends x with
    | true => simp [hx]
    | false => simp [hx, ih]

end GrowableBlock
