import Mathlib.Data.List.ReduceOption
import StatsdC.Queue

/-!
# The queue between two threads

The UDP thread calls `queue_store` and the queue thread calls `queue_pop_first` with the mutex
commented out.

**What is one step.**  Every read or write of a slot or of a position variable is a step of its
own, in program order, and the two threads interleave freely.  The registers a statement keeps
between its reads and its write are the arguments of the program counters.  Accesses of one thread
are seen by the other in the order in which they were made; what a compiler or a processor might
reorder is not modelled.

The run carries three observations: the pointers written to slots, in order (`stored`), how many
slots the pops have cleared (`cleared`), and what the finished pops returned (`results`).  A pointer
is noted as stored at the write of its slot, and a pop's result when it returns.  Uninterrupted, the
steps of a call are the function of `StatsdC.Queue` (`store_alone`, `pop_alone`), which ties the
observations to the calls.

The invariant (`Consistent`) says that the array is a circular buffer holding the stored packets
not yet cleared, and what each program counter implies about its thread's position variable.  It
survives every interleaving in which a slot is written only while fewer than `MAX_QUEUE_SIZE`
packets are stored and not cleared (`SlotWriteHasRoom`).  From it follows that what the pops have
returned is the front of what was stored (`fifo`), and that a pop which returns `NULL` has found
nothing that was stored before.
-/

namespace StatsdC
open CircularBuffer

/-- Where the storing thread is.  Each constructor is one access to a shared variable, with the
values read before it. -/
inductive StorePc (α : Type) where
  /-- Outside `queue_store`. -/
  | idle
  /-- `if (queue_store_pos == MAX_QUEUE_SIZE)` -/
  | testPos (ptr : α)
  /-- `queue_store_pos = 0` -/
  | wrapPos (ptr : α)
  /-- Reads `queue_store_pos` for `queue[ queue_store_pos ] = ptr`. -/
  | readSlotPos (ptr : α)
  /-- Writes slot `pos`. -/
  | writeSlot (ptr : α) (pos : Nat)
  /-- Reads `queue_store_pos` for `queue_store_pos ++`. -/
  | readIncr
  /-- Writes `queue_store_pos`, and returns. -/
  | writeIncr (pos : Nat)

/-- Where the popping thread is, again with one constructor for each access to a shared variable. -/
inductive PopPc (α : Type) where
  /-- Outside `queue_pop_first`. -/
  | idle
  /-- Reads `queue_retrieve_pos` for the test of the slot. -/
  | readTestPos
  /-- `if (queue[ pos ] == NULL) return NULL` -/
  | testSlot (pos : Nat)
  /-- Reads `queue_retrieve_pos` for `tmpptr = queue[ queue_retrieve_pos ]`. -/
  | readTakePos
  /-- Reads slot `pos` into `tmpptr`. -/
  | takeSlot (pos : Nat)
  /-- Reads `queue_retrieve_pos` for `queue[ queue_retrieve_pos ] = NULL`. -/
  | readClearPos (tmpptr : Option α)
  /-- Clears slot `pos`. -/
  | clearSlot (tmpptr : Option α) (pos : Nat)
  /-- Reads `queue_retrieve_pos` for `queue_retrieve_pos ++`. -/
  | readIncr (tmpptr : Option α)
  /-- Writes `queue_retrieve_pos`. -/
  | writeIncr (tmpptr : Option α) (pos : Nat)
  /-- `if (queue_retrieve_pos == MAX_QUEUE_SIZE)`, and returns if it is not. -/
  | testWrap (tmpptr : Option α)
  /-- `queue_retrieve_pos = 0`, and returns. -/
  | wrapPos (tmpptr : Option α)

/-- The shared queue, the two threads, and what a run has done so far.  The last three fields only
observe, and no step reads them. -/
structure QueueThreads (α : Type) where
  shared : PacketQueue α
  storePc : StorePc α
  popPc : PopPc α
  /-- The pointers written to slots, oldest first. -/
  stored : List α
  /-- How many slots have been cleared. -/
  cleared : Nat
  /-- What the finished pops returned, oldest first. -/
  results : List (Option α)

namespace QueueThreads
variable {α : Type}

/-- After `queue_init`, both threads outside the queue and nothing stored or returned. -/
def initial : QueueThreads α :=
  ⟨queueInit, .idle, .idle, [], 0, []⟩

/-- One atomic step of a running `queue_store`.  The increment is a read and a write, between which
the other thread may run. -/
def storeStep (s : QueueThreads α) : Option (QueueThreads α) :=
  match s.storePc with
  | .idle => none
  | .testPos ptr =>
    some { s with
      storePc := if s.shared.queueStorePos = maxQueueSize then .wrapPos ptr else .readSlotPos ptr }
  | .wrapPos ptr =>
    some { s with shared := { s.shared with queueStorePos := 0 }, storePc := .readSlotPos ptr }
  | .readSlotPos ptr => some { s with storePc := .writeSlot ptr s.shared.queueStorePos }
  | .writeSlot ptr pos =>
    some { s with
      shared := { s.shared with queue := write s.shared.queue pos (some ptr) }
      storePc := .readIncr
      stored := s.stored ++ [ptr] }
  | .readIncr => some { s with storePc := .writeIncr s.shared.queueStorePos }
  | .writeIncr pos =>
    some { s with shared := { s.shared with queueStorePos := pos + 1 }, storePc := .idle }

/-- One atomic step of a running `queue_pop_first`.  It reads the retrieve position anew for each of
its statements. -/
def popStep (s : QueueThreads α) : Option (QueueThreads α) :=
  match s.popPc with
  | .idle => none
  | .readTestPos => some { s with popPc := .testSlot s.shared.queueRetrievePos }
  | .testSlot pos =>
    match s.shared.queue pos with
    | none => some { s with popPc := .idle, results := s.results ++ [none] }
    | some _ => some { s with popPc := .readTakePos }
  | .readTakePos => some { s with popPc := .takeSlot s.shared.queueRetrievePos }
  | .takeSlot pos => some { s with popPc := .readClearPos (s.shared.queue pos) }
  | .readClearPos tmpptr => some { s with popPc := .clearSlot tmpptr s.shared.queueRetrievePos }
  | .clearSlot tmpptr pos =>
    some { s with
      shared := { s.shared with queue := write s.shared.queue pos none }
      popPc := .readIncr tmpptr
      cleared := s.cleared + 1 }
  | .readIncr tmpptr => some { s with popPc := .writeIncr tmpptr s.shared.queueRetrievePos }
  | .writeIncr tmpptr pos =>
    some { s with
      shared := { s.shared with queueRetrievePos := pos + 1 }, popPc := .testWrap tmpptr }
  | .testWrap tmpptr =>
    if s.shared.queueRetrievePos = maxQueueSize then
      some { s with popPc := .wrapPos tmpptr }
    else
      some { s with popPc := .idle, results := s.results ++ [tmpptr] }
  | .wrapPos tmpptr =>
    some { s with
      shared := { s.shared with queueRetrievePos := 0 }
      popPc := .idle
      results := s.results ++ [tmpptr] }

/-- What a schedule can do next. -/
inductive Action (α : Type) where
  /-- The storing thread calls `queue_store(ptr)`. -/
  | callStore (ptr : α)
  /-- The storing thread takes a step of its call. -/
  | store
  /-- The popping thread calls `queue_pop_first()`. -/
  | callPop
  /-- The popping thread takes a step of its call. -/
  | pop

/-- The state after an action; `none` when the thread cannot take it, such as a call inside a call.
-/
def act (s : QueueThreads α) : Action α → Option (QueueThreads α)
  | .callStore ptr =>
    match s.storePc with
    | .idle => some { s with storePc := .testPos ptr }
    | _ => none
  | .store => s.storeStep
  | .callPop =>
    match s.popPc with
    | .idle => some { s with popPc := .readTestPos }
    | _ => none
  | .pop => s.popStep

/-- All the interleavings of the two threads, with one store and one pop running at a time. -/
def system (α : Type) : TransitionSystem (QueueThreads α) (Action α) where
  init s := s = initial
  step s a s' := s.act a = some s'

/-- Each slot write happens while fewer than `MAX_QUEUE_SIZE` stored packets have
not yet been cleared from their slot. -/
def SlotWriteHasRoom (s : QueueThreads α) (a : Action α) : Prop :=
  match a, s.storePc with
  | .store, .writeSlot _ _ => s.stored.length < s.cleared + maxQueueSize
  | _, _ => True

/-- The non-`NULL` results of the pops, oldest first, which are the packets that reach the consumer.
-/
def returned (s : QueueThreads α) : List α := s.results.reduceOption

/-! ## The invariant -/

/-- What the storing thread's program counter says about the store position, when
`w` slots have been written. -/
def StoreAt (pos w : Nat) : StorePc α → Prop
  | .idle | .testPos _ => pos ≤ maxQueueSize ∧ pos % maxQueueSize = w % maxQueueSize
  | .wrapPos _ => w % maxQueueSize = 0
  | .readSlotPos _ => pos = w % maxQueueSize
  | .writeSlot _ p => pos = w % maxQueueSize ∧ p = pos
  | .readIncr => ∃ v, w = v + 1 ∧ pos = v % maxQueueSize
  | .writeIncr p => ∃ v, w = v + 1 ∧ pos = v % maxQueueSize ∧ p = pos

/-- What the popping thread's program counter says about the retrieve position and
about the packets returned, when `c` slots have been cleared. -/
def PopAt (pos c : Nat) (stored returned : List α) : PopPc α → Prop
  | .idle | .readTestPos => pos = c % maxQueueSize ∧ returned = stored.take c
  | .testSlot p => pos = c % maxQueueSize ∧ returned = stored.take c ∧ p = pos
  | .readTakePos =>
    pos = c % maxQueueSize ∧ returned = stored.take c ∧ c < stored.length
  | .takeSlot p =>
    pos = c % maxQueueSize ∧ returned = stored.take c ∧ c < stored.length ∧ p = pos
  | .readClearPos t =>
    pos = c % maxQueueSize ∧ returned = stored.take c ∧ c < stored.length ∧ t = stored[c]?
  | .clearSlot t p =>
    pos = c % maxQueueSize ∧ returned = stored.take c ∧ c < stored.length ∧ t = stored[c]? ∧
      p = pos
  | .readIncr t =>
    ∃ b, c = b + 1 ∧ pos = b % maxQueueSize ∧ returned = stored.take b ∧ t = stored[b]?
  | .writeIncr t p =>
    ∃ b, c = b + 1 ∧ pos = b % maxQueueSize ∧ returned = stored.take b ∧ t = stored[b]? ∧ p = pos
  | .testWrap t =>
    ∃ b, c = b + 1 ∧ pos = b % maxQueueSize + 1 ∧ returned = stored.take b ∧ t = stored[b]?
  | .wrapPos t =>
    ∃ b, c = b + 1 ∧ c % maxQueueSize = 0 ∧ returned = stored.take b ∧ t = stored[b]?

/-- **The invariant.** The slots from the one not yet cleared on hold the packets stored, and each
thread is where its position variables say. -/
structure Consistent (s : QueueThreads α) : Prop where
  holds : Holds maxQueueSize s.shared.queue s.cleared (s.stored.drop s.cleared)
  cleared_le : s.cleared ≤ s.stored.length
  store : StoreAt s.shared.queueStorePos s.stored.length s.storePc
  pop : PopAt s.shared.queueRetrievePos s.cleared s.stored s.returned s.popPc

theorem initial_consistent : (initial (α := α)).Consistent where
  holds := Holds.empty _ _
  cleared_le := Nat.le_refl _
  store := ⟨Nat.zero_le _, rfl⟩
  pop := ⟨(Nat.zero_mod _).symm, rfl⟩

/-- A later slot write changes nothing the popping thread relies on: the packets before it keep
their numbers. -/
theorem PopAt.append {pos c : Nat} {stored returned : List α} {pc : PopPc α}
    (h : PopAt pos c stored returned pc) (hc : c ≤ stored.length) (x : α) :
    PopAt pos c (stored ++ [x]) returned pc := by
  have htake : ∀ k, k ≤ stored.length → (stored ++ [x]).take k = stored.take k :=
    fun k hk => List.take_append_of_le_length hk
  have hget : ∀ k, k < stored.length → (stored ++ [x])[k]? = stored[k]? :=
    fun k hk => List.getElem?_append_left hk
  have hlen : (stored ++ [x]).length = stored.length + 1 := by simp
  cases pc with
  | idle | readTestPos | testSlot | readTakePos | takeSlot =>
    simp only [PopAt, htake c hc, hlen] at h ⊢
    grind
  | readClearPos | clearSlot =>
    simp only [PopAt, htake c hc, hlen] at h ⊢
    rw [hget c (by omega)]
    grind
  | readIncr | writeIncr | testWrap | wrapPos =>
    obtain ⟨b, rfl, h⟩ := h
    refine ⟨b, rfl, ?_⟩
    rwa [htake b (by omega), hget b (by omega)]

/-- The increment of a position variable that was `v` modulo the size, before the wrap test. -/
theorem succ_mod_size (v : Nat) :
    v % maxQueueSize + 1 ≤ maxQueueSize ∧
      (v % maxQueueSize + 1) % maxQueueSize = (v + 1) % maxQueueSize :=
  ⟨Nat.mod_lt v maxQueueSize_pos, Nat.mod_add_mod v maxQueueSize 1⟩

theorem storeStep_consistent {s s' : QueueThreads α} (h : s.Consistent)
    (hroom : SlotWriteHasRoom s .store) (hs : s.storeStep = some s') : s'.Consistent := by
  have hst := h.store
  unfold storeStep at hs
  cases hpc : s.storePc with
  | idle => simp [hpc] at hs
  | testPos ptr =>
    simp only [hpc, Option.some.injEq, StoreAt] at hs hst
    subst hs
    refine ⟨h.holds, h.cleared_le, ?_, h.pop⟩
    simp only
    split
    · rename_i he
      rw [he, Nat.mod_self] at hst
      exact hst.2.symm
    · exact (Nat.mod_eq_of_lt (by omega)).symm.trans hst.2
  | wrapPos ptr =>
    simp only [hpc, Option.some.injEq, StoreAt] at hs hst
    subst hs
    exact ⟨h.holds, h.cleared_le, hst.symm, h.pop⟩
  | readSlotPos ptr =>
    simp only [hpc, Option.some.injEq, StoreAt] at hs hst
    subst hs
    exact ⟨h.holds, h.cleared_le, ⟨hst, rfl⟩, h.pop⟩
  | writeSlot ptr pos =>
    simp only [hpc, Option.some.injEq, StoreAt, SlotWriteHasRoom] at hs hst hroom
    subst hs
    obtain ⟨hpos, rfl⟩ := hst
    have hle := h.cleared_le
    have hlen : (s.stored.drop s.cleared).length = s.stored.length - s.cleared :=
      List.length_drop
    -- there is room, so the slot behind the last packet is free
    have hpush := h.holds.push (by omega) ptr
    rw [hlen, Nat.add_sub_cancel' hle, ← hpos] at hpush
    refine ⟨?_, by simp only [List.length_append]; omega, ?_, h.pop.append hle ptr⟩
    · rwa [List.drop_append_of_le_length h.cleared_le]
    · exact ⟨s.stored.length, by simp, hpos⟩
  | readIncr =>
    simp only [hpc, Option.some.injEq, StoreAt] at hs hst
    subst hs
    obtain ⟨v, hw, hpos⟩ := hst
    exact ⟨h.holds, h.cleared_le, ⟨v, hw, hpos, rfl⟩, h.pop⟩
  | writeIncr pos =>
    simp only [hpc, Option.some.injEq, StoreAt] at hs hst
    subst hs
    obtain ⟨v, hw, hpos, rfl⟩ := hst
    refine ⟨h.holds, h.cleared_le, ?_, h.pop⟩
    simp only [StoreAt, hpos, hw]
    exact succ_mod_size v

/-- The slot at the retrieve position holds the first stored packet not yet cleared, and is empty if
there is none. -/
theorem Consistent.slot {s : QueueThreads α} (h : s.Consistent) :
    s.shared.queue (s.cleared % maxQueueSize) = s.stored[s.cleared]? := by
  rw [h.holds.head maxQueueSize_pos, List.getElem?_drop, Nat.add_zero]

/-- The finished pop of the `b`-th packet extends the returned prefix by it. -/
theorem returned_append {s : QueueThreads α} {b : Nat} {t : Option α}
    (hret : s.returned = s.stored.take b) (ht : t = s.stored[b]?) :
    (s.results ++ [t]).reduceOption = s.stored.take (b + 1) := by
  rw [List.reduceOption_append, show s.results.reduceOption = s.stored.take b from hret,
    List.take_add_one, ht]
  cases s.stored[b]? <;> rfl

theorem popStep_consistent {s s' : QueueThreads α} (h : s.Consistent)
    (hs : s.popStep = some s') : s'.Consistent := by
  have hpop := h.pop
  unfold popStep at hs
  cases hpc : s.popPc with
  | idle => simp [hpc] at hs
  | readTestPos =>
    simp only [hpc, Option.some.injEq, PopAt] at hs hpop
    subst hs
    exact ⟨h.holds, h.cleared_le, h.store, hpop.1, hpop.2, rfl⟩
  | testSlot pos =>
    simp only [hpc, PopAt] at hs hpop
    obtain ⟨hpos, hret, rfl⟩ := hpop
    have hslot := h.slot
    rw [← hpos] at hslot
    split at hs
    · simp only [Option.some.injEq] at hs
      subst hs
      refine ⟨h.holds, h.cleared_le, h.store, hpos, ?_⟩
      rw [returned, List.reduceOption_append, ← hret]
      exact List.append_nil _
    · rename_i x hx
      simp only [Option.some.injEq] at hs
      subst hs
      rw [hx] at hslot
      obtain ⟨hlt, -⟩ := List.getElem?_eq_some_iff.mp hslot.symm
      exact ⟨h.holds, h.cleared_le, h.store, hpos, hret, hlt⟩
  | readTakePos =>
    simp only [hpc, Option.some.injEq, PopAt] at hs hpop
    subst hs
    exact ⟨h.holds, h.cleared_le, h.store, hpop.1, hpop.2.1, hpop.2.2, rfl⟩
  | takeSlot pos =>
    simp only [hpc, Option.some.injEq, PopAt] at hs hpop
    subst hs
    obtain ⟨hpos, hret, hlt, rfl⟩ := hpop
    refine ⟨h.holds, h.cleared_le, h.store, hpos, hret, hlt, ?_⟩
    rw [hpos]
    exact h.slot
  | readClearPos t =>
    simp only [hpc, Option.some.injEq, PopAt] at hs hpop
    subst hs
    obtain ⟨hpos, hret, hlt, ht⟩ := hpop
    exact ⟨h.holds, h.cleared_le, h.store, hpos, hret, hlt, ht, rfl⟩
  | clearSlot t pos =>
    simp only [hpc, Option.some.injEq, PopAt] at hs hpop
    subst hs
    obtain ⟨hpos, hret, hlt, ht, rfl⟩ := hpop
    -- the packet is gone, and the position still points to its slot
    have hholds := h.holds
    rw [List.drop_eq_getElem_cons hlt] at hholds
    refine ⟨?_, hlt, h.store, s.cleared, rfl, hpos, hret, ht⟩
    simp only [hpos]
    exact hholds.pop
  | readIncr t =>
    simp only [hpc, Option.some.injEq, PopAt] at hs hpop
    subst hs
    obtain ⟨b, hc, hpos, hret, ht⟩ := hpop
    exact ⟨h.holds, h.cleared_le, h.store, b, hc, hpos, hret, ht, rfl⟩
  | writeIncr t pos =>
    simp only [hpc, Option.some.injEq, PopAt] at hs hpop
    subst hs
    obtain ⟨b, hc, hpos, hret, ht, rfl⟩ := hpop
    exact ⟨h.holds, h.cleared_le, h.store, b, hc, by rw [hpos], hret, ht⟩
  | testWrap t =>
    simp only [hpc, PopAt] at hs hpop
    obtain ⟨b, hc, hpos, hret, ht⟩ := hpop
    obtain ⟨hle, hmod⟩ := succ_mod_size b
    -- behind the last slot comes the first
    rw [← hpos, ← hc] at hmod
    split at hs
    · rename_i he
      simp only [Option.some.injEq] at hs
      subst hs
      rw [he, Nat.mod_self] at hmod
      exact ⟨h.holds, h.cleared_le, h.store, b, hc, hmod.symm, hret, ht⟩
    · simp only [Option.some.injEq] at hs
      subst hs
      refine ⟨h.holds, h.cleared_le, h.store, ?_, ?_⟩
      · rw [← hmod, Nat.mod_eq_of_lt (by omega)]
      · rw [hc]
        exact returned_append hret ht
  | wrapPos t =>
    simp only [hpc, Option.some.injEq, PopAt] at hs hpop
    subst hs
    obtain ⟨b, hc, hmod, hret, ht⟩ := hpop
    refine ⟨h.holds, h.cleared_le, h.store, hmod.symm, ?_⟩
    rw [hc]
    exact returned_append hret ht

theorem act_consistent {s s' : QueueThreads α} {a : Action α} (h : s.Consistent)
    (hroom : SlotWriteHasRoom s a) (hs : s.act a = some s') : s'.Consistent := by
  cases a with
  | callStore ptr =>
    simp only [act] at hs
    split at hs
    · rename_i hpc
      have hst := h.store
      simp only [hpc, Option.some.injEq, StoreAt] at hs hst
      subst hs
      exact ⟨h.holds, h.cleared_le, hst, h.pop⟩
    · cases hs
  | store => exact storeStep_consistent h hroom hs
  | callPop =>
    simp only [act] at hs
    split at hs
    · rename_i hpc
      have hpop := h.pop
      simp only [hpc, Option.some.injEq, PopAt] at hs hpop
      subst hs
      exact ⟨h.holds, h.cleared_le, h.store, hpop⟩
    · cases hs
  | pop => exact popStep_consistent h hs

theorem reachable_consistent {s : QueueThreads α}
    (h : ((system α).restrict SlotWriteHasRoom).Reachable s) : s.Consistent := by
  refine h.invariant ?_ ?_
  · rintro s rfl
    exact initial_consistent
  · rintro s a s' hinv ⟨hs, hroom⟩
    exact act_consistent hinv hroom hs

/-! ## FIFO -/

/-- The packets returned are always the first ones stored. -/
theorem Consistent.returned_prefix {s : QueueThreads α} (h : s.Consistent) :
    s.returned <+: s.stored := by
  have hpop := h.pop
  cases hpc : s.popPc with
  | idle | readTestPos =>
    simp only [hpc, PopAt] at hpop
    exact hpop.2 ▸ List.take_prefix _ _
  | testSlot | readTakePos | takeSlot | readClearPos | clearSlot =>
    simp only [hpc, PopAt] at hpop
    exact hpop.2.1 ▸ List.take_prefix _ _
  | readIncr | testWrap =>
    simp only [hpc, PopAt] at hpop
    obtain ⟨b, -, -, hret, -⟩ := hpop
    exact hret ▸ List.take_prefix _ _
  | writeIncr =>
    simp only [hpc, PopAt] at hpop
    obtain ⟨b, -, -, hret, -, -⟩ := hpop
    exact hret ▸ List.take_prefix _ _
  | wrapPos =>
    simp only [hpc, PopAt] at hpop
    obtain ⟨b, -, -, hret, -⟩ := hpop
    exact hret ▸ List.take_prefix _ _

/-- A pop step that returns `NULL` found the slot at the retrieve position empty,
so every stored packet has been cleared. -/
theorem Consistent.returns_null {s s' : QueueThreads α} (h : s.Consistent)
    (hs : s.popStep = some s') (hres : s'.results = s.results ++ [none]) :
    s.returned = s.stored := by
  have hpop := h.pop
  -- a pop that took a packet returns it, so only the test of the slot returns `NULL`
  have htook : ∀ {b : Nat} {t : Option α}, s.cleared = b + 1 → t = s.stored[b]? →
      s.results ++ [t] ≠ s.results ++ [none] := by
    intro b t hc ht he
    have hnone : t = none := by simpa using he
    rw [hnone, eq_comm, List.getElem?_eq_none_iff] at ht
    have := h.cleared_le
    omega
  have hkept : s.results ≠ s.results ++ [none] := by simp
  unfold popStep at hs
  cases hpc : s.popPc with
  | idle => simp [hpc] at hs
  | testSlot pos =>
    simp only [hpc, PopAt] at hs hpop
    obtain ⟨hpos, hret, rfl⟩ := hpop
    have hslot := h.slot
    rw [← hpos] at hslot
    split at hs
    · rename_i hnone
      rw [hnone, eq_comm, List.getElem?_eq_none_iff] at hslot
      rw [hret, List.take_of_length_le hslot]
    · simp only [Option.some.injEq] at hs
      subst hs
      exact absurd hres hkept
  | testWrap t =>
    simp only [hpc, PopAt] at hs hpop
    obtain ⟨b, hc, -, -, ht⟩ := hpop
    split at hs <;> simp only [Option.some.injEq] at hs <;> subst hs
    · exact absurd hres hkept
    · exact absurd hres (htook hc ht)
  | wrapPos t =>
    simp only [hpc, Option.some.injEq, PopAt] at hs hpop
    obtain ⟨b, hc, -, -, ht⟩ := hpop
    subst hs
    exact absurd hres (htook hc ht)
  | _ =>
    simp only [hpc, Option.some.injEq] at hs
    subst hs
    exact absurd hres hkept

/-- **The queue is a FIFO between one producer and one consumer.**  In every
interleaving, with any number of wraps, whose slot writes have room, the non-`NULL`
results of the pops are a prefix of the stored pointers; and a pop returns `NULL`
only when every pointer written to a slot has been returned — which, when no store
runs at the same time, is every stored packet. -/
theorem fifo {s : QueueThreads α} (h : ((system α).restrict SlotWriteHasRoom).Reachable s) :
    s.returned <+: s.stored ∧
      ∀ s', s.act .pop = some s' → s'.results = s.results ++ [none] → s.returned = s.stored :=
  have hinv := reachable_consistent h
  ⟨hinv.returned_prefix, fun _ hs hres => hinv.returns_null hs hres⟩

/-! ## A call with nothing in between

Run without interruption, the atomic steps are the calls of `Queue`. -/

/-- The interleavings whose slot writes have room, which are those that the result is about. -/
abbrev roomySystem (α : Type) := (system α).restrict SlotWriteHasRoom

theorem reachable_act {s s' : QueueThreads α} (h : (roomySystem α).Reachable s) (a : Action α)
    (hs : s.act a = some s') (hroom : SlotWriteHasRoom s a) : (roomySystem α).Reachable s' :=
  h.next ⟨hs, hroom⟩

/-- An uninterrupted `queue_store` is `queueStore`: the statements compose to the function of
`StatsdC.Queue`. -/
theorem store_alone {s : QueueThreads α} (h : (roomySystem α).Reachable s)
    (hidle : s.storePc = .idle) (hroom : s.stored.length < s.cleared + maxQueueSize) (ptr : α) :
    (roomySystem α).Reachable
      { s with shared := queueStore s.shared (some ptr), stored := s.stored ++ [ptr] } := by
  obtain ⟨⟨sp, rp, slots⟩, storePc, popPc, stored, cleared, results⟩ := s
  obtain rfl : storePc = .idle := hidle
  have hcall := reachable_act h (.callStore ptr) rfl trivial
  have htest := reachable_act hcall .store rfl trivial
  by_cases hwrap : sp = maxQueueSize
  · simp only [if_pos hwrap] at htest
    have h0 := reachable_act htest .store rfl trivial
    have h1 := reachable_act h0 .store rfl trivial
    have h2 := reachable_act h1 .store rfl hroom
    have h3 := reachable_act h2 .store rfl trivial
    have h4 := reachable_act h3 .store rfl trivial
    simpa only [queueStore, if_pos hwrap] using h4
  · simp only [if_neg hwrap] at htest
    have h1 := reachable_act htest .store rfl trivial
    have h2 := reachable_act h1 .store rfl hroom
    have h3 := reachable_act h2 .store rfl trivial
    have h4 := reachable_act h3 .store rfl trivial
    simpa only [queueStore, if_neg hwrap] using h4

/-- An uninterrupted `queue_pop_first` that finds a packet is `queuePopFirst`, and its result is the
packet. -/
theorem pop_alone {s : QueueThreads α} (h : (roomySystem α).Reachable s)
    (hidle : s.popPc = .idle) {x : α} (hx : s.shared.queue s.shared.queueRetrievePos = some x) :
    (roomySystem α).Reachable
      { s with
        shared := (queuePopFirst s.shared).2
        cleared := s.cleared + 1
        results := s.results ++ [(queuePopFirst s.shared).1] } := by
  obtain ⟨⟨sp, rp, slots⟩, storePc, popPc, stored, cleared, results⟩ := s
  obtain rfl : popPc = .idle := hidle
  replace hx : slots rp = some x := hx
  have hcall := reachable_act h .callPop rfl trivial
  have hread := reachable_act hcall .pop rfl trivial
  have htest : (roomySystem α).Reachable
      ⟨⟨sp, rp, slots⟩, storePc, .readTakePos, stored, cleared, results⟩ :=
    reachable_act hread .pop (by simp [act, popStep, hx]) trivial
  have htake := reachable_act (reachable_act htest .pop rfl trivial) .pop rfl trivial
  have hclear := reachable_act (reachable_act htake .pop rfl trivial) .pop rfl trivial
  have hincr := reachable_act (reachable_act hclear .pop rfl trivial) .pop rfl trivial
  simp only [hx] at hincr
  simp only [queuePopFirst, hx]
  by_cases hwrap : rp + 1 = maxQueueSize
  · have hw : (roomySystem α).Reachable ⟨⟨sp, rp + 1, write slots rp none⟩, storePc,
        .wrapPos (some x), stored, cleared + 1, results⟩ :=
      reachable_act hincr .pop (by simp [act, popStep, hwrap]) trivial
    have hdone := reachable_act hw .pop rfl trivial
    simpa only [if_pos hwrap] using hdone
  · have hdone : (roomySystem α).Reachable ⟨⟨sp, rp + 1, write slots rp none⟩, storePc,
        .idle, stored, cleared + 1, results ++ [some x]⟩ :=
      reachable_act hincr .pop (by simp [act, popStep, hwrap]) trivial
    simpa only [if_neg hwrap] using hdone

/-- The queue after `7` and `8` were stored, then after one pop, and after two. -/
def twoStored : PacketQueue Nat := queueStore (queueStore queueInit (some 7)) (some 8)
def onePopped : PacketQueue Nat := (queuePopFirst twoStored).2
def bothPopped : PacketQueue Nat := (queuePopFirst onePopped).2

theorem twoStored_eq : twoStored = ⟨2, 0, write (write (fun _ => none) 0 (some 7)) 1 (some 8)⟩ := by
  have hzero : ¬ 0 = maxQueueSize := Nat.ne_of_lt maxQueueSize_pos
  have hone : ¬ 1 = maxQueueSize := Nat.ne_of_lt one_lt_maxQueueSize
  simp [twoStored, queueStore, queueInit, hzero, hone]

theorem queuePopFirst_twoStored :
    queuePopFirst twoStored = (some 7, ⟨2, 1, write twoStored.queue 0 none⟩) := by
  have hone : ¬ 1 = maxQueueSize := Nat.ne_of_lt one_lt_maxQueueSize
  simp [twoStored_eq, queuePopFirst, write, hone]

theorem onePopped_eq :
    onePopped = ⟨2, 1, write (write (write (fun _ => none) 0 (some 7)) 1 (some 8)) 0 none⟩ := by
  rw [onePopped, queuePopFirst_twoStored, twoStored_eq]

theorem queuePopFirst_onePopped :
    queuePopFirst onePopped = (some 8, ⟨2, 2, write onePopped.queue 1 none⟩) := by
  have htwo : ¬ 2 = maxQueueSize := Nat.ne_of_lt two_lt_maxQueueSize
  simp [onePopped_eq, queuePopFirst, write, htwo]

/-- After both packets, a third pop is to test its slot. -/
def twoPopped : QueueThreads Nat :=
  ⟨bothPopped, .idle, .testSlot 2, [7, 8], 2, [some 7, some 8]⟩

theorem reachable_twoPopped : (roomySystem Nat).Reachable twoPopped := by
  have hseven := store_alone (TransitionSystem.Reachable.start rfl) rfl
    (Nat.lt_add_left 0 maxQueueSize_pos) (7 : Nat)
  have height := store_alone hseven rfl (Nat.lt_add_left 0 one_lt_maxQueueSize) 8
  have hslot : twoStored.queue twoStored.queueRetrievePos = some 7 := by
    rw [twoStored_eq]
    rfl
  have hfirst := pop_alone height rfl hslot
  have hslot' : onePopped.queue onePopped.queueRetrievePos = some 8 := by
    rw [onePopped_eq]
    rfl
  have hsecond := pop_alone hfirst rfl hslot'
  have htest := reachable_act (reachable_act hsecond .callPop rfl trivial) .pop rfl trivial
  have heq : twoPopped = ⟨bothPopped, .idle, .testSlot bothPopped.queueRetrievePos, [7, 8], 2,
      [(queuePopFirst twoStored).1, (queuePopFirst onePopped).1]⟩ := by
    rw [twoPopped, bothPopped, queuePopFirst_onePopped, queuePopFirst_twoStored]
  rw [heq]
  exact htest

/-- The theorem for two packets, and a pop after them, which returns `NULL`. -/
theorem fifo_two_packets :
    twoPopped.returned <+: twoPopped.stored ∧
      ∃ s', twoPopped.act .pop = some s' ∧ s'.results = twoPopped.results ++ [none] ∧
        twoPopped.returned = twoPopped.stored := by
  obtain ⟨horder, hnull⟩ := fifo reachable_twoPopped
  have hslot : bothPopped.queue 2 = none := by
    rw [bothPopped, queuePopFirst_onePopped, onePopped_eq]
    rfl
  have hact : twoPopped.act .pop =
      some { twoPopped with popPc := .idle, results := twoPopped.results ++ [none] } := by
    simp only [act, popStep, twoPopped, hslot]
  exact ⟨horder, _, hact, rfl, hnull _ hact rfl⟩

end QueueThreads
end StatsdC
