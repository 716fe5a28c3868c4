import Mathlib.Data.List.Nodup
import Mathlib.Logic.Function.Basic

/-!
# Doubly linked lists

A list threaded through nodes by `next` and `prev`, with its two ends in `head` and `tail`.  A
pointer is an `Option`, and following `none` is a fault of the operation, which then has no
result.  The nodes are the keys of two functions, so that the same statements serve nodes on a
heap and nodes in the slots of a table.

`Segment` says that consecutive nodes are linked both ways, and what stands at the seams of the
segment: the pointer into it from the left and the pointer out of it to the right.  It splits at
any point (`segment_append`) and looks at its own nodes only (`Segment.congr`).  So an operation on
a list is computed on the two or three segments it touches, and the rest of the list is carried
along unchanged.

`Holds` is a segment between the two ends of a list.  The operations are the ones that a table
linked in insertion order needs: a node is appended (`Holds.pushBack`), and a node is taken out
from wherever it stands (`Holds.unlink`), with its four cases of a node at either end, at both, or
in between.  A walk along `next` goes through the nodes in their order (`Holds.walk`).
-/

namespace LinkedOrder
variable {ι : Type}

/-- The pointers of a list: its ends, and for every node the one behind it and the one before. -/
structure Links (ι : Type) where
  head : Option ι
  tail : Option ι
  next : ι → Option ι
  prev : ι → Option ι

namespace Links

/-- No nodes, and every pointer is `NULL`. -/
def empty : Links ι := ⟨none, none, fun _ => none, fun _ => none⟩

section Update
variable [DecidableEq ι]

/-- A node at the end.  It fails where the list has a first node and no last one. -/
def pushBack (l : Links ι) (x : ι) : Option (Links ι) :=
  match l.head with
  | none => some ⟨some x, some x, Function.update l.next x none, Function.update l.prev x none⟩
  | some _ =>
    l.tail.map fun t =>
      { l with
        next := Function.update (Function.update l.next t (some x)) x none
        prev := Function.update l.prev x (some t)
        tail := some x }

/-- A node taken out, with its own pointers cleared.  It fails where a neighbour is missing. -/
def unlink (l : Links ι) (x : ι) : Option (Links ι) :=
  let cleared (l : Links ι) : Links ι :=
    { l with next := Function.update l.next x none, prev := Function.update l.prev x none }
  if l.tail = some x ∧ l.head = some x then some (cleared { l with head := none, tail := none })
  else if l.head = some x then
    (l.next x).map fun n => cleared { l with prev := Function.update l.prev n none, head := some n }
  else if l.tail = some x then
    (l.prev x).map fun p => cleared { l with next := Function.update l.next p none, tail := some p }
  else
    match l.prev x, l.next x with
    | some p, some n =>
      some (cleared { l with
        next := Function.update l.next p (some n), prev := Function.update l.prev n (some p) })
    | _, _ => none

end Update

/-- The nodes from `cur` on, if the end is reached within `fuel` of them. -/
def walk (l : Links ι) : Nat → Option ι → Option (List ι)
  | _, none => some []
  | 0, some _ => none
  | fuel + 1, some x => (l.walk fuel (l.next x)).map (x :: ·)

end Links

/-- The nodes `xs` are linked in this order, behind `p` and before `q`. -/
def Segment (next prev : ι → Option ι) (q : Option ι) : Option ι → List ι → Prop
  | _, [] => True
  | p, x :: xs => prev x = p ∧ next x = xs.head?.or q ∧ Segment next prev q (some x) xs

/-- **The list holds `xs`**: its ends are those of `xs`, and the pointers lead from each node to the
next and back. -/
structure Holds (l : Links ι) (xs : List ι) : Prop where
  head : l.head = xs.head?
  tail : l.tail = xs.getLast?
  nodup : xs.Nodup
  segment : Segment l.next l.prev none none xs

section Segments
variable {next prev next' prev' : ι → Option ι} {p q : Option ι} {xs ys : List ι} {x y : ι}

/-- A segment looks at its own nodes only, so that other pointers may change. -/
theorem Segment.congr (h : Segment next prev q p xs) (hnext : ∀ x ∈ xs, next' x = next x)
    (hprev : ∀ x ∈ xs, prev' x = prev x) : Segment next' prev' q p xs := by
  induction xs generalizing p with
  | nil => trivial
  | cons x xs ih =>
    obtain ⟨hx, hnx, hrest⟩ := h
    obtain ⟨hnext₀, hnext⟩ := List.forall_mem_cons.mp hnext
    obtain ⟨hprev₀, hprev⟩ := List.forall_mem_cons.mp hprev
    exact ⟨hprev₀.trans hx, hnext₀.trans hnx, ih hrest hnext hprev⟩

/-- **The two halves of a segment**, and what each sees at the seam. -/
theorem segment_append :
    Segment next prev q p (xs ++ ys) ↔
      Segment next prev (ys.head?.or q) p xs ∧ Segment next prev q (xs.getLast?.or p) ys := by
  induction xs generalizing p with
  | nil => simp [Segment]
  | cons x xs ih =>
    have hlast : (x :: xs).getLast?.or p = xs.getLast?.or (some x) := by
      cases xs with
      | nil => rfl
      | cons y xs =>
        rw [List.getLast?_cons_cons, List.getLast?_cons, Option.some_or, Option.some_or]
    have hhead : (xs ++ ys).head?.or q = xs.head?.or (ys.head?.or q) := by
      rw [List.head?_append, Option.or_assoc]
    simp only [List.cons_append, Segment, ih, hlast, hhead, and_assoc]

theorem segment_singleton : Segment next prev q p [x] ↔ prev x = p ∧ next x = q := by
  simp [Segment]

section Updates
variable [DecidableEq ι] {v w : Option ι}

/-- The pointers of a node outside a segment do not matter to it. -/
theorem Segment.update (h : Segment next prev q p xs) (hx : x ∉ xs) :
    Segment (Function.update next x v) (Function.update prev x w) q p xs := by
  have hne : ∀ y ∈ xs, y ≠ x := fun y hy => ne_of_mem_of_not_mem hy hx
  exact h.congr (fun y hy => Function.update_of_ne (hne y hy) ..)
    fun y hy => Function.update_of_ne (hne y hy) ..

/-- A segment linked to another node at its end is the same one otherwise. -/
theorem Segment.relinkLast (h : Segment next prev q p (xs ++ [x])) (hx : x ∉ xs) :
    Segment (Function.update next x v) prev v p (xs ++ [x]) := by
  obtain ⟨hfront, hlast⟩ := segment_append.mp h
  refine segment_append.mpr ⟨hfront.congr (fun y hy => ?_) fun _ _ => rfl, ?_⟩
  · exact Function.update_of_ne (ne_of_mem_of_not_mem hy hx) ..
  · exact segment_singleton.mpr ⟨(segment_singleton.mp hlast).1, Function.update_self ..⟩

/-- A segment linked to another node at its start is the same one otherwise. -/
theorem Segment.relinkFirst (h : Segment next prev q p (x :: xs)) (hx : x ∉ xs) :
    Segment next (Function.update prev x v) q v (x :: xs) := by
  obtain ⟨-, hnext, hrest⟩ := h
  refine ⟨Function.update_self .., hnext, hrest.congr (fun _ _ => rfl) fun y hy => ?_⟩
  exact Function.update_of_ne (ne_of_mem_of_not_mem hy hx) ..

end Updates

end Segments

variable {l : Links ι} {xs as bs : List ι} {x : ι}

theorem holds_empty : Holds (Links.empty : Links ι) [] := ⟨rfl, rfl, List.nodup_nil, trivial⟩

/-- Walking the list gives its nodes, if there is fuel for all of them. -/
theorem Segment.walk {p : Option ι} (h : Segment l.next l.prev none p xs) {fuel : Nat}
    (hfuel : xs.length ≤ fuel) : l.walk fuel xs.head? = some xs := by
  induction xs generalizing p fuel with
  | nil => cases fuel <;> rfl
  | cons x xs ih =>
    obtain ⟨-, hnext, hrest⟩ := h
    obtain ⟨fuel, rfl⟩ : ∃ n, fuel = n + 1 := ⟨fuel - 1, by rw [List.length_cons] at hfuel; omega⟩
    rw [List.length_cons, Nat.add_le_add_iff_right] at hfuel
    rw [Option.or_none] at hnext
    rw [List.head?_cons, Links.walk, hnext, ih hrest hfuel, Option.map_some]

/-- **Walking a list** gives its nodes in their order, if there is fuel for all of them. -/
theorem Holds.walk (h : Holds l xs) {fuel : Nat} (hfuel : xs.length ≤ fuel) :
    l.walk fuel l.head = some xs := by
  rw [h.head]
  exact h.segment.walk hfuel

variable [DecidableEq ι]

/-- **A new node goes to the end**, and the others stay where they are. -/
theorem Holds.pushBack (h : Holds l xs) (hx : x ∉ xs) :
    ∃ l', l.pushBack x = some l' ∧ Holds l' (xs ++ [x]) := by
  have hnodup : (xs ++ [x]).Nodup := List.nodup_append.mpr
    ⟨h.nodup, List.nodup_singleton x, fun a ha b hb hab =>
      hx (List.mem_singleton.mp hb ▸ hab ▸ ha)⟩
  rcases List.eq_nil_or_concat xs with rfl | ⟨ys, t, rfl⟩
  · have hhead : l.head = none := h.head
    refine ⟨_, by rw [Links.pushBack, hhead], rfl, rfl, hnodup, ?_⟩
    exact segment_singleton.mpr ⟨Function.update_self .., Function.update_self ..⟩
  · rw [List.concat_eq_append] at *
    have hhead : (ys ++ [t] ++ [x]).head? = (ys ++ [t]).head? := by
      cases ys <;> rfl
    obtain ⟨a, ha⟩ : ∃ a, (ys ++ [t]).head? = some a := by
      cases ys <;> exact ⟨_, rfl⟩
    have htail : l.tail = some t := by rw [h.tail, List.getLast?_concat]
    have htx : t ≠ x := fun htx => hx (htx ▸ List.mem_append_right ys (List.mem_singleton_self t))
    have hys : ∀ y ∈ ys, y ≠ x ∧ y ≠ t := by
      intro y hy
      refine ⟨fun hyx => hx (hyx ▸ List.mem_append_left [t] hy), fun hyt => ?_⟩
      exact (List.nodup_append.mp h.nodup).2.2 y hy t (List.mem_singleton_self t) hyt
    obtain ⟨hfront, hlast⟩ := segment_append.mp h.segment
    obtain ⟨hprev, -⟩ := segment_singleton.mp hlast
    refine ⟨_, by rw [Links.pushBack, h.head, ha, htail, Option.map_some], ?_, ?_, hnodup, ?_⟩
    · exact ha.symm.trans hhead.symm
    · exact List.getLast?_concat.symm
    · dsimp only
      refine segment_append.mpr ⟨segment_append.mpr ⟨hfront.congr ?_ ?_, ?_⟩, ?_⟩
      · intro y hy
        rw [Function.update_of_ne (hys y hy).1, Function.update_of_ne (hys y hy).2]
      · intro y hy
        exact Function.update_of_ne (hys y hy).1 ..
      · refine segment_singleton.mpr ⟨?_, ?_⟩
        · rw [Function.update_of_ne htx, hprev]
        · rw [Function.update_of_ne htx, Function.update_self]
          rfl
      · refine segment_singleton.mpr ⟨?_, Function.update_self ..⟩
        rw [Function.update_self, List.getLast?_concat]
        rfl

/-- **A node is taken out**, wherever it is, and the others keep their order. -/
theorem Holds.unlink (h : Holds l (as ++ x :: bs)) :
    ∃ l', l.unlink x = some l' ∧ Holds l' (as ++ bs) := by
  obtain ⟨hnodup, hx⟩ := List.nodup_middle.mp h.nodup |> List.nodup_cons.mp |>.symm
  have has : x ∉ as := fun hm => hx (List.mem_append_left bs hm)
  have hbs : x ∉ bs := fun hm => hx (List.mem_append_right as hm)
  obtain ⟨hfront, hprev, hnext, hback⟩ := segment_append.mp h.segment
  rw [Option.or_none] at hprev hnext
  have hdisjoint := (List.nodup_append.mp hnodup).2.2
  have hhead : l.head = some x ↔ as = [] := by
    rw [h.head]
    cases as with
    | nil => simp
    | cons a as => simpa using (List.ne_of_not_mem_cons has).symm
  have htail : l.tail = some x ↔ bs = [] := by
    rw [h.tail]
    rcases List.eq_nil_or_concat bs with rfl | ⟨ds, d, rfl⟩
    · simp
    · rw [List.concat_eq_append] at hbs ⊢
      rw [show as ++ x :: (ds ++ [d]) = (as ++ x :: ds) ++ [d] by simp, List.getLast?_concat]
      simpa using ne_of_mem_of_not_mem (List.mem_append_right ds (List.mem_singleton_self d)) hbs
  rcases List.eq_nil_or_concat as with rfl | ⟨as, a, rfl⟩
  · cases bs with
    | nil =>
      refine ⟨_, by rw [Links.unlink, if_pos ⟨htail.mpr rfl, hhead.mpr rfl⟩], ?_⟩
      exact ⟨rfl, rfl, List.nodup_nil, trivial⟩
    | cons b bs =>
      have hb : b ∉ bs := (List.nodup_cons.mp hnodup).1
      refine ⟨_, by
        rw [Links.unlink, if_neg (fun hboth => nomatch htail.mp hboth.1), if_pos (hhead.mpr rfl),
          hnext, List.head?_cons, Option.map_some], rfl, ?_, hnodup, ?_⟩
      · exact h.tail
      · exact (hback.relinkFirst hb).update hbs
  · rw [List.concat_eq_append] at *
    have ha : a ∉ as := fun hm => (List.nodup_append.mp (List.nodup_append.mp hnodup).1).2.2 a hm a
      (List.mem_singleton_self a) rfl
    have hhead' : ¬ l.head = some x := fun hl => by simpa using hhead.mp hl
    rw [List.getLast?_concat] at hprev
    cases bs with
    | nil =>
      refine ⟨_, by
        rw [Links.unlink, if_neg (fun hboth => hhead' hboth.2), if_neg hhead',
          if_pos (htail.mpr rfl), hprev, Option.map_some], ?_, ?_, hnodup, ?_⟩
      · show l.head = _
        rw [h.head]
        cases as <;> simp
      · simp
      · rw [List.append_nil] at *
        exact (hfront.relinkLast ha).update has
    | cons b bs =>
      have hb : b ∉ bs := (List.nodup_cons.mp (List.nodup_append.mp hnodup).2.1).1
      have htail' : ¬ l.tail = some x := fun hl => nomatch htail.mp hl
      rw [List.head?_cons] at hnext
      refine ⟨_, by
        rw [Links.unlink, if_neg (fun hboth => hhead' hboth.2), if_neg hhead', if_neg htail',
          hprev, hnext], ?_, ?_, hnodup, ?_⟩
      · show l.head = _
        rw [h.head]
        cases as <;> simp
      · show l.tail = _
        rw [h.tail]
        simp
      · dsimp only
        have hab : a ∉ b :: bs := fun hm => hdisjoint a (List.mem_append_right as
          (List.mem_singleton_self a)) a hm rfl
        have hba : b ∉ as ++ [a] := fun hm => hdisjoint b hm b (List.mem_cons_self ..) rfl
        refine Segment.update (segment_append.mpr ⟨?_, ?_⟩) hx
        · refine (hfront.relinkLast ha).congr (fun _ _ => rfl) fun y hy => ?_
          exact Function.update_of_ne (ne_of_mem_of_not_mem hy hba) ..
        · rw [List.getLast?_concat]
          refine (hback.relinkFirst hb).congr (fun y hy => ?_) fun _ _ => rfl
          exact Function.update_of_ne (ne_of_mem_of_not_mem hy hab) ..

end LinkedOrder
