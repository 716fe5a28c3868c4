import Mathlib.Algebra.Group.Nat.Defs
import Mathlib.Data.List.Induction
import StatsdC.Lib.GrowableBlock

/-!
# The dynamic array

`utarray.h` keeps the samples of a timer in a block of `n` slots, `i` of which are in use.  Both are
`unsigned`.  A push that finds the block full doubles `n`, from 8 on, until there is room.

So `n` is a power of two, and a push never writes outside the block.  The last doubling is that to
`2 ^ 31`: the next one gives 0, and the loop begins again with 8, without an end.  An array takes
`2 ^ 31` elements, and hangs on one more (`utArrayRun_eq`).  The arithmetic is that of 32 bits, with
its wrap, and the loop is followed in it.

`Represents` says which list an array stands for.  Every operation of the header that the program
uses is one on lists: a push appends, a clear empties, a sort sorts, and a walk with
`utarray_next` goes through the elements (`walk`).  A run is any sequence of them, and the theorem
says of a run on a new array that it gives what the run on lists gives, and that it comes to an end
exactly if there are never more elements than fit.

The elements are values of any type and not bytes, which is right for a type that needs no copy and
no destructor, as the `double` of the samples.  What `qsort` does is a parameter; that it keeps the
number of the elements is all that is used of it here.
-/

namespace StatsdC
open GrowableBlock

/-- What keeps a macro from its end: a loop that goes on, or an access that is not legal. -/
inductive UtArrayFault where
  /-- A loop that is still running. -/
  | outOfFuel
  /-- An access outside the block, or to a slot that was never written. -/
  | badAccess
  deriving DecidableEq

/-- `UT_array`, but for its `icd`: the number of elements, the number of slots, and the block. -/
structure UtArray (α : Type) where
  i : Nat
  n : Nat
  d : Cells α

namespace UtArray
variable {α β : Type}

/-- `utarray_new`, which allocates no block yet. -/
def new : UtArray α := ⟨0, 0, []⟩

/-- `((a)->n ? (2*(a)->n) : 8)`. -/
def widen (n : Nat) : Nat := if n ≠ 0 then 2 * n % UInt32.size else 8

/-- The loop of `utarray_reserve`, for `fuel` rounds at most: until there are `need` slots. -/
def reserveLoop (need : Nat) : Nat → Nat → Except UtArrayFault Nat
  | 0, _ => .error .outOfFuel
  | fuel + 1, n => if n < need then reserveLoop need fuel (widen n) else .ok n

/-- `utarray_reserve(a,1)`, with the sums of type `unsigned`.  The block grows by doubling until the
next element has room. -/
def reserve (fuel : Nat) (a : UtArray α) : Except UtArrayFault (UtArray α) := do
  let need := (a.i + 1) % UInt32.size
  if a.n < need then
    let n ← reserveLoop need fuel a.n
    return { a with n, d := realloc a.d n }
  else
    return a

/-- `memcpy` to a slot and those behind it, which fails outside the block. -/
def copyTo (a : UtArray α) (j : Nat) (xs : List α) : Except UtArrayFault (UtArray α) :=
  match store a.d j xs with
  | some d => .ok { a with d }
  | none => .error .badAccess

/-- `utarray_push_back`, which writes behind the last element once there is a slot for it. -/
def pushBack (fuel : Nat) (a : UtArray α) (x : α) : Except UtArrayFault (UtArray α) := do
  let a ← a.reserve fuel
  let a ← a.copyTo a.i [x]
  return { a with i := (a.i + 1) % UInt32.size }

/-- `utarray_clear`, which keeps the block and its size. -/
def clear (a : UtArray α) : UtArray α := if 0 < a.i then { a with i := 0 } else a

/-- What is in a slot, which must have been written before. -/
def read (a : UtArray α) (j : Nat) : Except UtArrayFault α :=
  match a.d[j]? with
  | some (some x) => .ok x
  | _ => .error .badAccess

/-- `utarray_sort`, where `qsort` does `sort` to the elements.  The elements are sorted in place. -/
def sort (sort : List α → List α) (a : UtArray α) : Except UtArrayFault (UtArray α) :=
  match load a.d a.i with
  | some xs => a.copyTo 0 (sort xs)
  | none => .error .badAccess

/-- `utarray_next`, on the index of an element instead of its address. -/
def next (a : UtArray α) : Option Nat → Option Nat
  | none => if 0 < a.i then some 0 else none
  | some e => if e + 1 < a.i then some (e + 1) else none

/-- `while ( (e = utarray_next(a, e)) && goesOn )`, with `body` on the element, for `fuel`
rounds at most. -/
def whileNext (a : UtArray α) (goesOn : β → Bool) (body : β → α → β) :
    Nat → Option Nat → β → Except UtArrayFault β
  | 0, _, _ => .error .outOfFuel
  | fuel + 1, e, s =>
    match a.next e with
    | none => .ok s
    | some e =>
      if goesOn s then do
        let x ← a.read e
        whileNext a goesOn body fuel (some e) (body s x)
      else
        .ok s

/-- The loop from the first element on, as long as the condition holds. -/
def loop (a : UtArray α) (goesOn : β → Bool) (body : β → α → β) (s : β) :
    Except UtArrayFault β :=
  a.whileNext goesOn body (a.i + 1) none s

/-- The elements that a loop meets, from the first to the last. -/
def elements (a : UtArray α) : Except UtArrayFault (List α) :=
  a.loop (fun _ => true) (fun xs x => xs ++ [x]) []

/-- What is done to an array: the three operations that change its elements. -/
inductive Op (α : Type) where
  | pushBack (x : α)
  | clear
  | sort

/-- An operation, on the array. -/
def Op.apply (sort : List α → List α) (fuel : Nat) (a : UtArray α) :
    Op α → Except UtArrayFault (UtArray α)
  | .pushBack x => a.pushBack fuel x
  | .clear => .ok a.clear
  | .sort => a.sort sort

/-- An operation, on the elements. -/
def Op.applyList (sort : List α → List α) (xs : List α) : Op α → List α
  | .pushBack x => xs ++ [x]
  | .clear => []
  | .sort => sort xs

/-- The array after a run, from a new one on and with fuel for the loops that double the size. -/
def run (sort : List α → List α) (fuel : Nat) (ops : List (Op α)) :
    Except UtArrayFault (UtArray α) :=
  ops.foldlM (Op.apply sort fuel) new

/-- The elements after a run, as the list that the operations describe. -/
def contents (sort : List α → List α) (ops : List (Op α)) : List α :=
  ops.foldl (Op.applyList sort) []

/-! ## The sizes of a block -/

/-- What `n` can be: nothing, or 8 doubled some number of times within 32 bits. -/
def Sized (n : Nat) : Prop := n = 0 ∨ ∃ k, 3 ≤ k ∧ k ≤ 31 ∧ n = 2 ^ k

theorem Sized.le {n : Nat} (h : Sized n) : n ≤ 2 ^ 31 := by
  rcases h with rfl | ⟨k, -, hk, rfl⟩
  · exact Nat.zero_le _
  · exact Nat.pow_le_pow_right (by decide) hk

theorem widen_two_pow {k : Nat} (hk : k < 31) : widen (2 ^ k) = 2 ^ (k + 1) := by
  have hlt : 2 ^ (k + 1) < UInt32.size :=
    lt_of_le_of_lt (Nat.pow_le_pow_right (by decide) hk) (by decide)
  rw [widen, if_pos (Nat.pow_pos (by decide)).ne', ← Nat.pow_succ', Nat.mod_eq_of_lt hlt]

theorem Sized.widen {n : Nat} (h : Sized n) : Sized (widen n) := by
  rcases h with rfl | ⟨k, hlo, hhi, rfl⟩
  · exact .inr ⟨3, le_rfl, by decide, rfl⟩
  · rcases hhi.lt_or_eq with hlt | rfl
    · exact .inr ⟨k + 1, by omega, hlt, widen_two_pow hlt⟩
    · exact .inl (by decide)

/-- What the loop ends with, if it does: the first size in the sequence of doublings that is enough.
-/
theorem reserveLoop_cases {need n : Nat} (h : Sized n) (fuel : Nat) :
    reserveLoop need fuel n = .error .outOfFuel ∨
      ∃ n', reserveLoop need fuel n = .ok n' ∧ need ≤ n' ∧ Sized n' := by
  induction fuel generalizing n with
  | zero => exact .inl rfl
  | succ fuel ih =>
    unfold reserveLoop
    split
    · exact ih h.widen
    · rename_i hle
      exact .inr ⟨n, rfl, not_lt.mp hle, h⟩

theorem reserveLoop_two_pow {need : Nat} (hneed : need ≤ 2 ^ 31) {k fuel : Nat} (hk : k ≤ 31)
    (hfuel : 32 ≤ k + fuel) : reserveLoop need fuel (2 ^ k) ≠ .error .outOfFuel := by
  induction fuel generalizing k with
  | zero => omega
  | succ fuel ih =>
    unfold reserveLoop
    split
    · rename_i hlt
      have hk' : k < 31 := lt_of_le_of_ne hk fun heq => absurd (heq ▸ hlt) (not_lt.mpr hneed)
      rw [widen_two_pow hk']
      exact ih hk' (by omega)
    · rintro ⟨⟩

/-- **The loop ends** if there is a size for what is needed, which is at most 29 rounds
away. -/
theorem reserveLoop_ends {need n fuel : Nat} (hneed : need ≤ 2 ^ 31) (h : Sized n)
    (hfuel : 30 ≤ fuel) : reserveLoop need fuel n ≠ .error .outOfFuel := by
  rcases h with rfl | ⟨k, hlo, hhi, rfl⟩
  · obtain ⟨fuel, rfl⟩ := Nat.exists_eq_add_of_le' (by omega : 1 ≤ fuel)
    unfold reserveLoop
    split
    · exact reserveLoop_two_pow hneed (k := 3) (by decide) (by omega)
    · rintro ⟨⟩
  · exact reserveLoop_two_pow hneed hhi (by omega)

/-! ## Operations -/

/-- The array has the elements `xs`, in a block of its size. -/
structure Represents (a : UtArray α) (xs : List α) : Prop where
  i : a.i = xs.length
  n : a.d.length = a.n
  sized : Sized a.n
  holds : GrowableBlock.Holds a.d xs

variable {a : UtArray α} {xs : List α} {fuel : Nat}

theorem represents_new : (new : UtArray α).Represents [] := ⟨rfl, rfl, .inl rfl, holds_nil _⟩

theorem Represents.length_le (h : a.Represents xs) : xs.length ≤ 2 ^ 31 := by
  have hle := h.holds.length_le
  rw [h.n] at hle
  exact hle.trans h.sized.le

/-- The number of the next element does not wrap, since a block has at most `2 ^ 31` slots. -/
theorem Represents.need_eq (h : a.Represents xs) : (a.i + 1) % UInt32.size = xs.length + 1 := by
  have hle := h.length_le
  have hsize : (2 : Nat) ^ 31 + 1 < UInt32.size := by decide
  rw [h.i, Nat.mod_eq_of_lt (by omega)]

/-- The outcome is the array with the elements `xs`, unless a loop is still running, and it is never
an illegal access. -/
def Yields (x : Except UtArrayFault (UtArray α)) (xs : List α) : Prop :=
  x = .error .outOfFuel ∨ ∃ a, x = .ok a ∧ a.Represents xs

/-- A slot for one more element, or a loop that is still running. -/
theorem Represents.reserve_cases (h : a.Represents xs) (fuel : Nat) :
    a.reserve fuel = .error .outOfFuel ∨
      ∃ a', a.reserve fuel = .ok a' ∧ a'.Represents xs ∧ xs.length < a'.n := by
  unfold reserve
  rw [h.need_eq]
  dsimp only
  split
  · rcases @reserveLoop_cases (xs.length + 1) _ h.sized fuel with hloop |
      ⟨n, hloop, hneed, hsized⟩
    · rw [hloop]
      exact .inl rfl
    · rw [hloop]
      exact .inr ⟨_, rfl, ⟨h.i, length_realloc .., hsized, h.holds.realloc (by omega)⟩, hneed⟩
  · exact .inr ⟨a, rfl, h, by omega⟩

/-- **A push** appends the element, once there is room. -/
theorem Represents.pushBack (h : a.Represents xs) (fuel : Nat) (x : α) :
    Yields (a.pushBack fuel x) (xs ++ [x]) := by
  rcases h.reserve_cases fuel with hreserve | ⟨a₁, hreserve, h₁, hroom⟩
  · rw [UtArray.pushBack, hreserve]
    exact .inl rfl
  · obtain ⟨d, hstore, hholds, hlength⟩ := h₁.holds.exists_store [x] (by rw [h₁.n]; exact hroom)
    have hcopy : a₁.copyTo a₁.i [x] = .ok { a₁ with d } := by
      rw [copyTo, h₁.i, hstore]
    refine .inr ⟨{ a₁ with i := (a₁.i + 1) % UInt32.size, d }, ?_, ?_, hlength.trans h₁.n,
      h₁.sized, hholds⟩
    · simp only [UtArray.pushBack, hreserve, hcopy, bind, Except.bind, pure, Except.pure]
    · rw [List.length_append, List.length_singleton]
      exact h₁.need_eq

theorem Represents.pushBack_ends (h : a.Represents xs) (hfuel : 30 ≤ fuel)
    (hlt : xs.length < 2 ^ 31) (x : α) : a.pushBack fuel x ≠ .error .outOfFuel := by
  have hcopy : ∀ a' : UtArray α, (do
      let a' ← a'.copyTo a'.i [x]
      return { a' with i := (a'.i + 1) % UInt32.size }) ≠ .error UtArrayFault.outOfFuel := by
    intro a'
    unfold copyTo
    split
    · rintro ⟨⟩
    · rintro ⟨⟩
  unfold UtArray.pushBack reserve
  rw [h.need_eq]
  dsimp only
  split
  · have hends := @reserveLoop_ends (xs.length + 1) _ _ hlt h.sized hfuel
    cases hloop : reserveLoop (xs.length + 1) fuel a.n with
    | error e =>
      intro heq
      obtain rfl := Except.error.inj heq
      exact hends hloop
    | ok n => exact hcopy _
  · exact hcopy _

theorem Represents.clear (h : a.Represents xs) : a.clear.Represents [] := by
  unfold UtArray.clear
  split
  · exact ⟨rfl, h.n, h.sized, holds_nil _⟩
  · have hnil : xs = [] := List.length_eq_zero_iff.mp (by rw [← h.i]; omega)
    exact hnil ▸ h

theorem Represents.read_eq (h : a.Represents xs) {j : Nat} {x : α} (hx : xs[j]? = some x) :
    a.read j = .ok x := by
  obtain ⟨hj, rfl⟩ := List.getElem?_eq_some_iff.mp hx
  rw [read, h.holds.getElem? hj, List.getElem?_eq_getElem hj]

/-- A sort of the elements, as many as before, in the block that was there. -/
theorem Represents.sort (h : a.Represents xs) {sort : List α → List α}
    (hlen : (sort xs).length = xs.length) :
    ∃ a', a.sort sort = .ok a' ∧ a'.Represents (sort xs) := by
  obtain ⟨d, hstore, hholds, hlength⟩ := (holds_nil a.d).exists_store (sort xs) (by
    rw [List.length_nil, Nat.zero_add, hlen]
    exact h.holds.length_le)
  refine ⟨{ a with d }, ?_, h.i.trans hlen.symm, hlength.trans h.n, h.sized, hholds⟩
  have hzero : store a.d 0 (sort xs) = some d := hstore
  have hload : load a.d a.i = some xs := h.i ▸ h.holds.load_eq
  simp only [UtArray.sort, hload, copyTo, hzero]

/-! ## Loops over the elements -/

/-- A fold that stops where the condition fails, as the loops over arrays do. -/
def foldWhile (goesOn : β → Bool) (body : β → α → β) : List α → β → β
  | [], s => s
  | x :: xs, s => if goesOn s then foldWhile goesOn body xs (body s x) else s

/-- How many elements are before the next one. -/
def passed : Option Nat → Nat
  | none => 0
  | some e => e + 1

theorem Represents.next_eq (h : a.Represents xs) (e : Option Nat) :
    a.next e = if passed e < xs.length then some (passed e) else none := by
  cases e <;> rw [next, h.i] <;> rfl

/-- The rounds from an element on. -/
theorem Represents.whileNext_eq (h : a.Represents xs) {goesOn : β → Bool} {body : β → α → β}
    {e : Option Nat} {s : β} (hfuel : xs.length - passed e < fuel) :
    a.whileNext goesOn body fuel e s = .ok (foldWhile goesOn body (xs.drop (passed e)) s) := by
  induction fuel generalizing e s with
  | zero => omega
  | succ fuel ih =>
    unfold whileNext
    rw [h.next_eq]
    by_cases hlt : passed e < xs.length
    · rw [if_pos hlt, List.drop_eq_getElem_cons hlt, foldWhile]
      dsimp only
      split
      · have hpassed : passed (some (passed e)) = passed e + 1 := rfl
        rw [h.read_eq (List.getElem?_eq_getElem hlt)]
        exact ih (e := some (passed e)) (by omega)
      · rfl
    · rw [if_neg hlt, List.drop_eq_nil_of_le (not_lt.mp hlt)]
      rfl

/-- **A loop over the array** is one over its elements. -/
theorem Represents.loop_eq (h : a.Represents xs) (goesOn : β → Bool) (body : β → α → β) (s : β) :
    a.loop goesOn body s = .ok (foldWhile goesOn body xs s) :=
  h.whileNext_eq (e := none) (by rw [h.i]; unfold passed; omega)

theorem foldWhile_true (body : β → α → β) (xs : List α) (s : β) :
    foldWhile (fun _ => true) body xs s = xs.foldl body s := by
  induction xs generalizing s with
  | nil => rfl
  | cons x xs ih => exact ih (body s x)

theorem Represents.elements_eq (h : a.Represents xs) : a.elements = .ok xs := by
  have happend : ∀ ys : List α, xs.foldl (fun ys x => ys ++ [x]) ys = ys ++ xs := by
    intro ys
    rw [List.foldl_append_eq_append, ← List.flatMap_def, List.flatMap_singleton']
  rw [elements, h.loop_eq, foldWhile_true, happend, List.nil_append]

/-! ## Runs -/

variable {sort : List α → List α}

theorem Represents.apply (h : a.Represents xs)
    (hsort : ∀ ys : List α, (sort ys).length = ys.length) (fuel : Nat) (op : Op α) :
    Yields (op.apply sort fuel a) (op.applyList sort xs) := by
  cases op with
  | pushBack x => exact h.pushBack fuel x
  | clear => exact .inr ⟨_, rfl, h.clear⟩
  | sort => exact .inr (h.sort (hsort xs))

/-- An operation ends unless it makes the array too long: 30 rounds of doubling are always enough.
-/
theorem Represents.apply_ends (h : a.Represents xs) (hfuel : 30 ≤ fuel) (op : Op α)
    (hle : (op.applyList sort xs).length ≤ 2 ^ 31) :
    op.apply sort fuel a ≠ .error .outOfFuel := by
  cases op with
  | pushBack x =>
    rw [Op.applyList, List.length_append, List.length_singleton] at hle
    exact h.pushBack_ends hfuel hle x
  | clear => rintro ⟨⟩
  | sort =>
    simp only [Op.apply, UtArray.sort, copyTo]
    repeat' split
    all_goals rintro ⟨⟩

theorem contents_concat (ops : List (Op α)) (op : Op α) :
    contents sort (ops ++ [op]) = op.applyList sort (contents sort ops) := by
  rw [contents, List.foldl_append]
  rfl

theorem run_concat (fuel : Nat) (ops : List (Op α)) (op : Op α) :
    run sort fuel (ops ++ [op]) = (do
      let a ← run sort fuel ops
      op.apply sort fuel a) := by
  rw [run, List.foldlM_append]
  refine bind_congr fun a => ?_
  rw [List.foldlM_cons]
  exact bind_pure _

/-- A run that ends has the elements in the array. -/
theorem run_yields (hsort : ∀ ys : List α, (sort ys).length = ys.length) (fuel : Nat)
    (ops : List (Op α)) : Yields (run sort fuel ops) (contents sort ops) := by
  induction ops using List.reverseRecOn with
  | nil => exact .inr ⟨_, rfl, represents_new⟩
  | append_singleton ops op ih =>
    rw [run_concat, contents_concat]
    rcases ih with hrun | ⟨a, hrun, h⟩
    · rw [hrun]
      exact .inl rfl
    · rw [hrun]
      exact h.apply hsort fuel op

/-- It does end if no state of it is too long. -/
theorem run_ends (hsort : ∀ ys : List α, (sort ys).length = ys.length) (hfuel : 30 ≤ fuel)
    {ops : List (Op α)} (hle : ∀ pre, pre <+: ops → (contents sort pre).length ≤ 2 ^ 31) :
    run sort fuel ops ≠ .error .outOfFuel := by
  induction ops using List.reverseRecOn with
  | nil => rintro ⟨⟩
  | append_singleton ops op ih =>
    have hops := ih fun pre hpre => hle pre (hpre.trans (List.prefix_append _ _))
    rcases run_yields hsort fuel ops with hrun | ⟨a, hrun, h⟩
    · exact absurd hrun hops
    · have hall := hle _ List.prefix_rfl
      rw [contents_concat] at hall
      rw [run_concat, hrun]
      exact h.apply_ends hfuel op hall

/-- **Runs of an array.**  Whatever is pushed, cleared and sorted, a run comes to an end
exactly if there are never more than `2 ^ 31` elements, no access is outside what was
allocated and written, and a loop over the array meets the elements in their order. -/
theorem utArrayRun_eq (sort : List α → List α)
    (hsort : ∀ ys : List α, (sort ys).length = ys.length) (ops : List (Op α)) :
    (∀ fuel, run sort fuel ops ≠ .error .badAccess) ∧
      (∀ fuel a, run sort fuel ops = .ok a → a.elements = .ok (contents sort ops)) ∧
      ((∀ pre, pre <+: ops → (contents sort pre).length ≤ 2 ^ 31) ↔
        ∀ fuel, 30 ≤ fuel → run sort fuel ops ≠ .error .outOfFuel) := by
  refine ⟨fun fuel => ?_, fun fuel a hrun => ?_, fun hle fuel hfuel => run_ends hsort hfuel hle,
    fun hends pre hpre => ?_⟩
  · rcases run_yields hsort fuel ops with hrun | ⟨a, hrun, -⟩
    · rw [hrun]
      rintro ⟨⟩
    · rw [hrun]
      rintro ⟨⟩
  · rcases run_yields hsort fuel ops with hrun' | ⟨a', hrun', h⟩
    · cases hrun.symm.trans hrun'
    · obtain rfl := Except.ok.inj (hrun'.symm.trans hrun)
      exact h.elements_eq
  · obtain ⟨rest, rfl⟩ := hpre
    -- what comes before ends as well
    have hpre : run sort 30 pre ≠ .error .outOfFuel := by
      intro hrun
      refine hends 30 le_rfl ?_
      rw [run, List.foldlM_append]
      show (run sort 30 pre >>= _) = _
      rw [hrun]
      rfl
    rcases run_yields hsort 30 pre with hrun | ⟨a, -, h⟩
    · exact absurd hrun hpre
    · exact h.length_le

/-- Two pushes, and a sort that puts the second element first. -/
theorem utArrayRun_eq_reversed :
    (∀ fuel, run List.reverse fuel [.pushBack 5, .pushBack 3, .sort] ≠ .error .badAccess) ∧
      (∀ fuel a, run List.reverse fuel [.pushBack 5, .pushBack 3, .sort] = .ok a →
        a.elements = .ok [3, 5]) ∧
      ((∀ pre, pre <+: [.pushBack 5, .pushBack 3, .sort] →
          (contents List.reverse pre).length ≤ 2 ^ 31) ↔
        ∀ fuel, 30 ≤ fuel →
          run List.reverse fuel [.pushBack 5, .pushBack 3, .sort] ≠ .error .outOfFuel) :=
  utArrayRun_eq List.reverse (fun _ => List.length_reverse) [.pushBack 5, .pushBack 3, .sort]

end UtArray

end StatsdC
