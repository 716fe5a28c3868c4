import Mathlib.Data.List.Induction
import StatsdC.Lib.CircularBuffer
import StatsdC.Lib.TransitionSystem

/-!
# The packet queue

`queue.c`: a fixed array of packet pointers with a store position and a retrieve position, each
wrapping on its own.  The store side wraps *before* a write, the pop side *after* an increment, and
neither looks at the other's position: a store never asks whether the slot it writes is still
occupied, and a pop asks only whether the slot at the retrieve position is `NULL`.

As long as no store runs with all the slots occupied, the array is a circular buffer (`Represents`)
and a pop returns `NULL` only from an empty queue (`reachable_neverHides`).  The condition is one
on the steps of a run (`StoreHasRoom`), and the invariant is that of `StatsdC.Lib.CircularBuffer`:
a store appends, and a pop returns the oldest packet and removes it.

One store too many breaks this for good: the store position has then overtaken the retrieve
position, and a later packet is put behind the slot the pops are waiting at (`overtaken_hides`).
The run that shows it fills the array, stores one more packet, pops everything and stores once
more.  It is too long to be evaluated, and its four parts are lemmas about sequences of stores and
of pops (`applyCalls_stores_represents`, `drain_shifted`).

Calls are whole here, one after another.  The same functions, taken apart into their reads and
writes and run by two threads, are in `StatsdC.QueueThreads`.  A packet is any type of pointer, and
its memory is not modelled.
-/

namespace StatsdC
open CircularBuffer

/-- `MAX_QUEUE_SIZE`, the number of slots.  It is irreducible so that no proof ever unfolds a
million slots. -/
@[irreducible] def maxQueueSize : Nat := 1024 * 1024

theorem two_lt_maxQueueSize : 2 < maxQueueSize := by
  unfold maxQueueSize
  omega

theorem one_lt_maxQueueSize : 1 < maxQueueSize := Nat.lt_of_succ_lt two_lt_maxQueueSize

theorem maxQueueSize_pos : 0 < maxQueueSize := Nat.lt_of_succ_lt one_lt_maxQueueSize

/-- The globals of `queue.c`.  A pointer is an `Option`, of which `none` is `NULL`, and the array is
a function from positions, as `StatsdC.Lib.CircularBuffer` has it. -/
structure PacketQueue (α : Type) where
  queueStorePos : Nat
  queueRetrievePos : Nat
  queue : Nat → Option α

variable {α : Type}

/-- `queue_init`, which sets both positions to the first slot and every slot to `NULL`. -/
def queueInit : PacketQueue α where
  queueStorePos := 0
  queueRetrievePos := 0
  queue := fun _ => none

/-- `queue_store`: the position wraps before the slot is written, so that between two calls it may
stand behind the last slot. -/
def queueStore (q : PacketQueue α) (ptr : Option α) : PacketQueue α :=
  let pos := if q.queueStorePos = maxQueueSize then 0 else q.queueStorePos
  { q with queue := write q.queue pos ptr, queueStorePos := pos + 1 }

/-- `queue_pop_first`: the returned pointer and the queue afterwards.  An empty slot ends it at
once, and here the position wraps after the increment. -/
def queuePopFirst (q : PacketQueue α) : Option α × PacketQueue α :=
  match q.queue q.queueRetrievePos with
  | none => (none, q)
  | some tmpptr =>
    let pos := q.queueRetrievePos + 1
    (some tmpptr,
      { q with
        queue := write q.queue q.queueRetrievePos none
        queueRetrievePos := if pos = maxQueueSize then 0 else pos })

/-- A call made on the queue: a store of a non-`NULL` pointer, or a pop.  The daemon makes no other
calls once `queue_init` has run. -/
inductive QueueCall (α : Type) where
  | store (ptr : α)
  | pop

/-- The queue after a call, with what a pop returns dropped. -/
def QueueCall.apply (q : PacketQueue α) : QueueCall α → PacketQueue α
  | .store ptr => queueStore q (some ptr)
  | .pop => (queuePopFirst q).2

/-- Sequences of calls from `queue_init`, each finished before the next begins.  Their statements
are interleaved in `StatsdC.QueueThreads`. -/
def queueSystem (α : Type) : TransitionSystem (PacketQueue α) (QueueCall α) where
  init q := q = queueInit
  step q c q' := c.apply q = q'

/-- A pop returns `NULL` only if every slot of the array is `NULL`: a consumer that stops at `NULL`
has then seen everything. -/
def NeverHides (q : PacketQueue α) : Prop :=
  (queuePopFirst q).1 = none → ∀ i, i < maxQueueSize → q.queue i = none

theorem queuePopFirst_eq_none {q : PacketQueue α} :
    (queuePopFirst q).1 = none ↔ q.queue q.queueRetrievePos = none := by
  unfold queuePopFirst
  split <;> simp [*]

/-! ## The queue as a circular buffer -/

/-- The queue holds the packets `xs`, oldest first: they occupy the slots from the
retrieve position on, and the next store goes behind the last of them. -/
structure Represents (q : PacketQueue α) (xs : List α) : Prop where
  holds : Holds maxQueueSize q.queue q.queueRetrievePos xs
  retrieve_lt : q.queueRetrievePos < maxQueueSize
  store_le : q.queueStorePos ≤ maxQueueSize
  store_mod : q.queueStorePos % maxQueueSize = (q.queueRetrievePos + xs.length) % maxQueueSize

theorem queueInit_represents : Represents (queueInit (α := α)) [] :=
  ⟨Holds.empty _ _, maxQueueSize_pos, Nat.zero_le _, rfl⟩

/-- The position a store writes to, after the wrap test. -/
theorem store_position {s : Nat} (h : s ≤ maxQueueSize) :
    (if s = maxQueueSize then 0 else s) = s % maxQueueSize := by
  split
  · rename_i he
    rw [he, Nat.mod_self]
  · exact (Nat.mod_eq_of_lt (by omega)).symm

/-- With room left, a store appends to the sequence, whether the store position wraps or not. -/
theorem queueStore_represents {q : PacketQueue α} {xs : List α} (h : Represents q xs)
    (hroom : xs.length < maxQueueSize) (x : α) :
    Represents (queueStore q (some x)) (xs ++ [x]) := by
  have hlt : q.queueStorePos % maxQueueSize < maxQueueSize := Nat.mod_lt _ maxQueueSize_pos
  unfold queueStore
  simp only [store_position h.store_le]
  refine ⟨?_, h.retrieve_lt, by simp only; omega, ?_⟩
  · simp only [h.store_mod]
    exact h.holds.push hroom x
  · simp only [h.store_mod, List.length_append, List.length_singleton]
    rw [Nat.mod_add_mod, Nat.add_assoc]

/-- The retrieve position after its increment and wrap test, which is never behind the last slot. -/
theorem retrieve_position {r : Nat} (h : r < maxQueueSize) :
    (if r + 1 = maxQueueSize then 0 else r + 1) = (r + 1) % maxQueueSize :=
  store_position h

/-- A pop returns the oldest packet and removes it; on the empty sequence it returns `NULL` and
changes nothing. -/
theorem queuePopFirst_represents {q : PacketQueue α} {xs : List α} (h : Represents q xs) :
    (queuePopFirst q).1 = xs.head? ∧ Represents (queuePopFirst q).2 xs.tail := by
  have hhead : q.queue q.queueRetrievePos = xs[0]? := by
    have hslot := h.holds.head maxQueueSize_pos
    rwa [Nat.mod_eq_of_lt h.retrieve_lt] at hslot
  cases xs with
  | nil =>
    have hnone : q.queue q.queueRetrievePos = none := hhead
    simp only [queuePopFirst, hnone]
    exact ⟨rfl, h⟩
  | cons x xs =>
    have hsome : q.queue q.queueRetrievePos = some x := hhead
    simp only [queuePopFirst, hsome, retrieve_position h.retrieve_lt]
    have hpop := h.holds.pop
    rw [Nat.mod_eq_of_lt h.retrieve_lt] at hpop
    refine ⟨rfl, hpop.start_mod, Nat.mod_lt _ maxQueueSize_pos, h.store_le, ?_⟩
    simp only [List.tail_cons, h.store_mod, List.length_cons, Nat.mod_add_mod]
    congr 1
    omega

/-- A queue that represents a sequence hides nothing, since the oldest packet is at the retrieve
position. -/
theorem Represents.neverHides {q : PacketQueue α} {xs : List α} (h : Represents q xs) :
    NeverHides q := by
  intro hnone i hi
  rw [queuePopFirst_eq_none] at hnone
  refine h.holds.all_none maxQueueSize_pos ?_ hi
  rwa [Nat.mod_eq_of_lt h.retrieve_lt]

/-- The condition under which a call cannot overtake: a store runs only while some
slot is `NULL`. -/
def StoreHasRoom (q : PacketQueue α) (c : QueueCall α) : Prop :=
  (∃ ptr, c = .store ptr) → ∃ i, i < maxQueueSize ∧ q.queue i = none

theorem apply_represents {q : PacketQueue α} {xs : List α} {c : QueueCall α}
    (h : Represents q xs) (hroom : StoreHasRoom q c) : ∃ ys, Represents (c.apply q) ys := by
  cases c with
  | store ptr =>
    have hlt : xs.length < maxQueueSize := h.holds.exists_none_iff.mp (hroom ⟨ptr, rfl⟩)
    exact ⟨xs ++ [ptr], queueStore_represents h hlt ptr⟩
  | pop => exact ⟨xs.tail, (queuePopFirst_represents h).2⟩

/-- **Without overflow no packet is hidden.**  In every run, of any length, whose
stores all run while some slot is `NULL`, a pop returns `NULL` in the state reached
only if every slot is `NULL`. -/
theorem reachable_neverHides {q : PacketQueue α}
    (h : ((queueSystem α).restrict StoreHasRoom).Reachable q) : NeverHides q := by
  have hrep : ∃ xs, Represents q xs := by
    refine h.invariant (I := fun q => ∃ xs, Represents q xs) ?_ ?_
    · rintro q rfl
      exact ⟨[], queueInit_represents⟩
    · rintro q c q' ⟨xs, hxs⟩ ⟨rfl, hroom⟩
      exact apply_represents hxs hroom
  obtain ⟨xs, hxs⟩ := hrep
  exact hxs.neverHides

/-- One store and one pop keep to the condition, and the queue is empty again. -/
theorem reachable_neverHides_store_pop :
    NeverHides (queuePopFirst (queueStore (queueInit : PacketQueue Nat) (some 7))).2 := by
  have hstore : ((queueSystem Nat).restrict StoreHasRoom).step queueInit (.store 7)
      (queueStore queueInit (some 7)) := ⟨rfl, fun _ => ⟨0, maxQueueSize_pos, rfl⟩⟩
  have hpop : ((queueSystem Nat).restrict StoreHasRoom).step (queueStore queueInit (some 7)) .pop
      (queuePopFirst (queueStore queueInit (some 7))).2 := ⟨rfl, fun ⟨_, h⟩ => nomatch h⟩
  exact reachable_neverHides (((TransitionSystem.Reachable.start rfl).next hstore).next hpop)

/-! ## Overflow -/

section Overflow
variable (p : α)

/-- The run that overtakes by one: the array is filled, one more packet is stored,
everything is popped, and one packet is stored again. -/
def overtakingCalls : List (QueueCall α) :=
  List.replicate (maxQueueSize + 1) (.store p) ++ List.replicate maxQueueSize .pop ++ [.store p]

/-- The queue after a list of calls, from any queue on. -/
def applyCalls (q : PacketQueue α) (cs : List (QueueCall α)) : PacketQueue α :=
  cs.foldl QueueCall.apply q

theorem applyCalls_append (q : PacketQueue α) (cs ds : List (QueueCall α)) :
    applyCalls q (cs ++ ds) = applyCalls (applyCalls q cs) ds := List.foldl_append

theorem applyCalls_singleton (q : PacketQueue α) (c : QueueCall α) :
    applyCalls q [c] = c.apply q := rfl

theorem run_applyCalls (cs : List (QueueCall α)) :
    (queueSystem α).Run cs (applyCalls queueInit cs) := by
  induction cs using List.reverseRecOn with
  | nil => exact .start rfl
  | append_singleton cs c ih =>
    refine ih.next ?_
    rw [applyCalls_append, applyCalls_singleton]
    rfl

/-- Packets that fit are stored one behind the other, from the first slot on. -/
theorem applyCalls_stores_represents {ps : List α} (h : ps.length ≤ maxQueueSize) :
    Represents (applyCalls queueInit (ps.map .store)) ps ∧
      (applyCalls queueInit (ps.map .store)).queueRetrievePos = 0 := by
  induction ps using List.reverseRecOn with
  | nil => exact ⟨queueInit_represents, rfl⟩
  | append_singleton ps p ih =>
    rw [List.length_append, List.length_singleton] at h
    obtain ⟨hrep, hpos⟩ := ih (by omega)
    rw [List.map_append, List.map_singleton, applyCalls_append, applyCalls_singleton]
    exact ⟨queueStore_represents hrep (by omega) p, hpos⟩

/-- The sequence `xs` is in the array as it should be, but the store position is
`d` slots further on. -/
structure Shifted (d : Nat) (q : PacketQueue α) (xs : List α) : Prop where
  holds : Holds maxQueueSize q.queue q.queueRetrievePos xs
  retrieve_lt : q.queueRetrievePos < maxQueueSize
  store : q.queueStorePos = d

/-- Pops drain the sequence wherever the store position is, since they never look at it. -/
theorem drain_shifted {d : Nat} {q : PacketQueue α} {xs : List α} (h : Shifted d q xs) :
    Shifted d (applyCalls q (List.replicate xs.length .pop)) [] ∧
      (applyCalls q (List.replicate xs.length .pop)).queueRetrievePos =
        (q.queueRetrievePos + xs.length) % maxQueueSize := by
  induction xs generalizing q with
  | nil => exact ⟨h, (Nat.mod_eq_of_lt h.retrieve_lt).symm⟩
  | cons x xs ih =>
    have hhead := h.holds.head maxQueueSize_pos
    rw [Nat.mod_eq_of_lt h.retrieve_lt] at hhead
    have hsome : q.queue q.queueRetrievePos = some x := hhead
    have hpop := h.holds.pop
    rw [Nat.mod_eq_of_lt h.retrieve_lt] at hpop
    have hq : (queuePopFirst q).2 =
        { q with queue := write q.queue q.queueRetrievePos none
                 queueRetrievePos := (q.queueRetrievePos + 1) % maxQueueSize } := by
      simp only [queuePopFirst, hsome, retrieve_position h.retrieve_lt]
    have hnext : Shifted d (queuePopFirst q).2 xs := by
      rw [hq]
      exact ⟨hpop.start_mod, Nat.mod_lt _ maxQueueSize_pos, h.store⟩
    obtain ⟨hdrained, hpos⟩ := ih hnext
    rw [List.length_cons, List.replicate_succ, ← List.singleton_append, applyCalls_append,
      applyCalls_singleton]
    refine ⟨hdrained, hpos.trans ?_⟩
    rw [hq]
    simp only [Nat.mod_add_mod]
    congr 1
    omega

/-- A store into a full array whose slots all hold `p` changes only the store
position. -/
theorem store_full {q : PacketQueue α} (h : Represents q (List.replicate maxQueueSize p))
    (hpos : q.queueRetrievePos = 0) :
    Shifted 1 (queueStore q (some p)) (List.replicate maxQueueSize p) ∧
      (queueStore q (some p)).queueRetrievePos = 0 := by
  have hstore : q.queueStorePos % maxQueueSize = 0 := by
    rw [h.store_mod, hpos, List.length_replicate, Nat.zero_add, Nat.mod_self]
  unfold queueStore
  simp only [store_position h.store_le, hstore]
  refine ⟨⟨⟨h.holds.fits, fun k hk => ?_⟩, h.retrieve_lt, rfl⟩, hpos⟩
  simp only [write]
  split
  · rw [List.getElem?_replicate, if_pos hk]
  · exact h.holds.slot k hk

/-- With the store position one ahead of the empty slot the pops wait at, a stored
packet is hidden. -/
theorem shifted_hides {q : PacketQueue α} (h : Shifted 1 q []) (hpos : q.queueRetrievePos = 0) :
    ¬ NeverHides (queueStore q (some p)) := by
  have hne : ¬ 1 = maxQueueSize := Nat.ne_of_lt one_lt_maxQueueSize
  have h0 : q.queue 0 = none := by
    have hhead := h.holds.head maxQueueSize_pos
    rwa [hpos, Nat.zero_mod] at hhead
  have hslots : (queueStore q (some p)).queue = write q.queue 1 (some p) := by
    simp only [queueStore, h.store, if_neg hne]
  intro hnever
  have hpop : (queuePopFirst (queueStore q (some p))).1 = none := by
    rw [queuePopFirst_eq_none, hslots, show (queueStore q (some p)).queueRetrievePos = 0 from hpos,
      write_ne Nat.zero_ne_one, h0]
  have h1 := hnever hpop 1 one_lt_maxQueueSize
  rw [hslots, write_self] at h1
  cases h1

end Overflow

/-- **A packet can be hidden.**  After one store more than the array holds, a drain
and one more store, a pop returns `NULL` although a packet is in the array. -/
theorem overtaken_hides :
    ∃ q, (queueSystem Nat).Run (overtakingCalls 7) q ∧ ¬ NeverHides q := by
  obtain ⟨hfull, hpos⟩ := @applyCalls_stores_represents Nat (List.replicate maxQueueSize 7)
    (by rw [List.length_replicate])
  rw [List.map_replicate] at hfull hpos
  obtain ⟨hover, hpos⟩ := store_full 7 hfull hpos
  obtain ⟨hdrained, hret⟩ := drain_shifted hover
  rw [hpos, List.length_replicate, Nat.zero_add, Nat.mod_self] at hret
  rw [List.length_replicate] at hdrained
  refine ⟨_, run_applyCalls _, ?_⟩
  rw [overtakingCalls, List.replicate_succ', applyCalls_append, applyCalls_append,
    applyCalls_append, applyCalls_singleton, applyCalls_singleton]
  exact shifted_hides 7 hdrained hret

end StatsdC
