import StatsdC.Lib.Subsequence
import StatsdC.Queue

/-!
# The order of the packets

What `queue_pop_first` returns over a whole run, compared with what was stored.  The `k`-th packet
stored goes to slot `k % MAX_QUEUE_SIZE`, whether or not an older packet is still there, and pops
go round the slots in the same direction.  So packets come out in order except at one kind of pop:
one that follows the pop of the newest packet and meets a packet that the store position has not
reached again.  Such a pop can be told from the state alone (`TurnsBack`), and a run keeps the
order exactly if it has none (`returned_sublist_iff`).

That a run keeps the order means that what its pops have returned is a subsequence of what was
stored: packets may be lost, but none comes before one that was stored earlier.  For this the
packets have to be told apart, so they are distinct in the theorem; a packet is a pointer, and the
ones in the queue are blocks of memory of their own.

Two invariants carry the proof.  `Numbered` says for every slot which packet is in it, also after
an overflow; `LastReturned` says where the pops stand, relative to the last packet returned.  From
them, a pop that does not turn back returns a packet with a higher number
(`lt_of_not_turnsBack`), and one that does returns one with a lower number
(`lt_of_turnsBack`), so that both directions of the theorem are about the same numbers.  One packet
more than fit is enough to reorder (`overflow_reorders`).
-/

namespace StatsdC
open CircularBuffer Subsequence

variable {α : Type}

/-- The pointers that the calls store, in the order of the calls. -/
def stored (cs : List (QueueCall α)) : List α :=
  cs.filterMap fun c =>
    match c with
    | .store ptr => some ptr
    | .pop => none

/-- What a call returns, for a store nothing that matters.  It depends on the queue the call finds.
-/
def QueueCall.result (q : PacketQueue α) : QueueCall α → Option α
  | .store _ => none
  | .pop => (queuePopFirst q).1

/-- The pointers other than `NULL` that the pops among the calls return, in the order of the pops.
-/
def returned (q : PacketQueue α) : List (QueueCall α) → List α
  | [] => []
  | c :: cs => (c.result q).toList ++ returned (c.apply q) cs

/-- The store position and the retrieve position are the same, there is a packet at
it, and the slot before it is `NULL`: the newest packet has been popped, and a pop
goes on with the oldest. -/
def TurnsBack (q : PacketQueue α) : Prop :=
  q.queueStorePos % maxQueueSize = q.queueRetrievePos ∧
    (∃ ptr, q.queue q.queueRetrievePos = some ptr) ∧
    q.queue ((q.queueRetrievePos + (maxQueueSize - 1)) % maxQueueSize) = none

/-- A call that is no pop in such a state, and so does not turn back: the condition that a run has
to keep to. -/
def KeepsOrder (q : PacketQueue α) (c : QueueCall α) : Prop := c = .pop → ¬ TurnsBack q

/-! ## Calls one behind the other -/

theorem returned_append (q : PacketQueue α) (cs ds : List (QueueCall α)) :
    returned q (cs ++ ds) = returned q cs ++ returned (applyCalls q cs) ds := by
  induction cs generalizing q with
  | nil => rfl
  | cons c cs ih =>
    have hih := ih (c.apply q)
    rw [List.cons_append, returned, hih, returned, List.append_assoc]
    rfl

theorem returned_snoc (q : PacketQueue α) (cs : List (QueueCall α)) (c : QueueCall α) :
    returned q (cs ++ [c]) = returned q cs ++ (c.result (applyCalls q cs)).toList := by
  rw [returned_append, returned, returned, List.append_nil]

theorem stored_snoc_store (cs : List (QueueCall α)) (ptr : α) :
    stored (cs ++ [.store ptr]) = stored cs ++ [ptr] := List.filterMap_append

theorem stored_snoc_pop (cs : List (QueueCall α)) : stored (cs ++ [.pop]) = stored cs := by
  rw [stored, List.filterMap_append]
  exact List.append_nil _

/-- A run is determined by its calls. -/
theorem eq_applyCalls_of_run {cs : List (QueueCall α)} {q : PacketQueue α}
    (h : (queueSystem α).Run cs q) : q = applyCalls queueInit cs := by
  induction h with
  | start hq => exact hq
  | next _ hstep ih =>
    rw [applyCalls_append, applyCalls_singleton, ← ih]
    exact hstep.symm

/-! ## Packets by their numbers -/

variable {ps : List α} {ks : List Nat} {q : PacketQueue α}

/-- The packets `ps` have been stored: each slot is empty or holds the newest packet whose number
falls on it, as `Latest` says. -/
structure Numbered (ps : List α) (q : PacketQueue α) : Prop where
  latest : Latest maxQueueSize q.queue ps
  store_le : q.queueStorePos ≤ maxQueueSize
  store_mod : q.queueStorePos % maxQueueSize = ps.length % maxQueueSize
  retrieve_lt : q.queueRetrievePos < maxQueueSize

/-- The last packet returned is `ps[k]`: the next pop is at the slot behind, and the
newest packet is gone exactly if it is that one. -/
structure LastReturned (ps : List α) (ks : List Nat) (q : PacketQueue α) : Prop where
  last : ∀ k ∈ ks.getLast?, k < ps.length ∧ q.queueRetrievePos = (k + 1) % maxQueueSize
  newest : ∀ k, k + 1 = ps.length →
    (q.queue (k % maxQueueSize) = none ↔ ks.getLast? = some k)

theorem numbered_queueInit : Numbered ([] : List α) queueInit :=
  ⟨Latest.empty _, Nat.zero_le _, rfl, maxQueueSize_pos⟩

theorem lastReturned_queueInit : LastReturned ([] : List α) [] queueInit :=
  ⟨by rintro k ⟨⟩, by rintro k ⟨⟩⟩

theorem queueStore_eq (h : Numbered ps q) (x : α) :
    queueStore q (some x) =
      { q with queue := write q.queue (ps.length % maxQueueSize) (some x)
               queueStorePos := ps.length % maxQueueSize + 1 } := by
  unfold queueStore
  rw [store_position h.store_le, h.store_mod]

theorem Numbered.queueStore (h : Numbered ps q) (x : α) :
    Numbered (ps ++ [x]) (queueStore q (some x)) := by
  have hlt : ps.length % maxQueueSize < maxQueueSize := Nat.mod_lt _ maxQueueSize_pos
  rw [queueStore_eq h]
  refine ⟨h.latest.push x, hlt, ?_, h.retrieve_lt⟩
  rw [Nat.mod_add_mod, List.length_append, List.length_singleton]

theorem LastReturned.queueStore (h : LastReturned ps ks q) (hq : Numbered ps q) (x : α) :
    LastReturned (ps ++ [x]) ks (queueStore q (some x)) := by
  rw [queueStore_eq hq]
  refine ⟨fun k hk => ?_, fun k hk => ?_⟩
  · obtain ⟨hlt, hpos⟩ := h.last k hk
    rw [List.length_append, List.length_singleton]
    exact ⟨by omega, hpos⟩
  · -- the newest packet is the one just stored
    rw [List.length_append, List.length_singleton] at hk
    obtain rfl : k = ps.length := by omega
    refine iff_of_false ?_ fun hlast => ?_
    · simp only [write_self, reduceCtorEq, not_false_eq_true]
    · exact absurd (h.last _ hlast).1 (Nat.lt_irrefl _)

/-- A pop that finds a packet at the retrieve position returns it and goes on by one. -/
theorem queuePopFirst_some {ptr : α} (hq : Numbered ps q)
    (hptr : q.queue q.queueRetrievePos = some ptr) :
    queuePopFirst q = (some ptr,
      { q with queue := write q.queue q.queueRetrievePos none
               queueRetrievePos := (q.queueRetrievePos + 1) % maxQueueSize }) := by
  simp only [queuePopFirst, hptr, retrieve_position hq.retrieve_lt]

/-- A pop that finds none returns `NULL` and moves no position. -/
theorem queuePopFirst_none (hptr : q.queue q.queueRetrievePos = none) :
    queuePopFirst q = (none, q) := by
  simp only [queuePopFirst, hptr]

theorem Numbered.queuePopFirst (h : Numbered ps q) : Numbered ps (queuePopFirst q).2 := by
  cases hptr : q.queue q.queueRetrievePos with
  | none =>
    rw [queuePopFirst_none hptr]
    exact h
  | some ptr =>
    rw [queuePopFirst_some h hptr]
    exact ⟨h.latest.erase _, h.store_le, h.store_mod, Nat.mod_lt _ maxQueueSize_pos⟩

/-- Of two numbers less than the capacity apart, the slots differ: with the same slot they are the
same number. -/
theorem eq_of_mod_eq {N j k : Nat} (hmod : j % N = k % N) (hle : j ≤ k) (hlt : k < j + N) :
    j = k := by
  obtain ⟨d, rfl⟩ := Nat.exists_eq_add_of_le hle
  have hdvd : (j + d) ≡ j + 0 [MOD N] := hmod.symm
  have hd : d % N = 0 % N := Nat.ModEq.add_left_cancel' j hdvd
  rw [Nat.mod_eq_of_lt (by omega), Nat.zero_mod] at hd
  omega

/-- The slot before the one of number `k + 1` is that of number `k`. -/
theorem slot_before (k : Nat) :
    ((k + 1) % maxQueueSize + (maxQueueSize - 1)) % maxQueueSize = k % maxQueueSize := by
  have hpos := maxQueueSize_pos
  rw [Nat.mod_add_mod, show k + 1 + (maxQueueSize - 1) = k + maxQueueSize by omega,
    Nat.add_mod_right]

/-- The newest packet is in the slot before the store position. -/
theorem slot_before_store {k : Nat} (hq : Numbered ps q) (hk : k + 1 = ps.length)
    (hmod : q.queueStorePos % maxQueueSize = q.queueRetrievePos) :
    (q.queueRetrievePos + (maxQueueSize - 1)) % maxQueueSize = k % maxQueueSize := by
  rw [← hmod, hq.store_mod, ← hk]
  exact slot_before k

/-- A pop that goes on forwards returns a packet behind the last one, since only the newest is
followed by an older one. -/
theorem lt_of_not_turnsBack {k j : Nat} {ptr : α} (hq : Numbered ps q)
    (h : LastReturned ps ks q) (hptr : q.queue q.queueRetrievePos = some ptr)
    (hturns : ¬ TurnsBack q) (hk : k ∈ ks.getLast?) (hj : j % maxQueueSize = q.queueRetrievePos)
    (hle : ps.length ≤ j + maxQueueSize) : k < j := by
  by_contra hge
  obtain ⟨hlt, hpos⟩ := h.last k hk
  -- `j` is a whole round before `k + 1`, so that `k` is the newest packet
  have hround : j + maxQueueSize ≤ k + 1 := by
    by_contra hless
    have heq := eq_of_mod_eq (hj.trans hpos) (by omega) (by omega)
    omega
  have hnewest : k + 1 = ps.length := by omega
  have hmod : q.queueStorePos % maxQueueSize = q.queueRetrievePos := by
    rw [hq.store_mod, ← hnewest, hpos]
  refine hturns ⟨hmod, ⟨ptr, hptr⟩, ?_⟩
  rw [slot_before_store hq hnewest hmod]
  exact (h.newest k hnewest).mpr hk

/-- A pop that turns back returns a packet before the last one, since the newest has been returned
already. -/
theorem lt_of_turnsBack {j : Nat} (hq : Numbered ps q) (h : LastReturned ps ks q)
    (hturns : TurnsBack q) (hj : j % maxQueueSize = q.queueRetrievePos) (hlt : j < ps.length) :
    ∃ k, k ∈ ks.getLast? ∧ j < k := by
  obtain ⟨hmod, ⟨ptr, hptr⟩, hnone⟩ := hturns
  obtain ⟨k, hk⟩ : ∃ k, k + 1 = ps.length := ⟨ps.length - 1, by omega⟩
  rw [slot_before_store hq hk hmod] at hnone
  refine ⟨k, (h.newest k hk).mp hnone, ?_⟩
  have hne : j ≠ k := by
    rintro rfl
    rw [hj, hptr] at hnone
    cases hnone
  omega

/-- What is known of the last packet returned, after a pop that goes on forwards. -/
theorem LastReturned.queuePopFirst {j : Nat} {ptr : α} (h : LastReturned ps ks q)
    (hq : Numbered ps q) (hptr : q.queue q.queueRetrievePos = some ptr) (hturns : ¬ TurnsBack q)
    (hj : j % maxQueueSize = q.queueRetrievePos) (hlt : j < ps.length)
    (hle : ps.length ≤ j + maxQueueSize) :
    LastReturned ps (ks ++ [j]) (queuePopFirst q).2 := by
  rw [queuePopFirst_some hq hptr]
  refine ⟨fun k hk => ?_, fun k hk => ?_⟩
  · rw [List.getLast?_concat] at hk
    obtain rfl := Option.some.inj hk
    exact ⟨hlt, by simp only [← hj, Nat.mod_add_mod]⟩
  · rw [List.getLast?_concat, Option.some.injEq]
    by_cases hslot : k % maxQueueSize = q.queueRetrievePos
    · -- the pop is that of the newest packet
      have heq : j = k := eq_of_mod_eq (hj.trans hslot.symm) (by omega) (by omega)
      simp only [hslot, write_self, heq]
    · have hne : j ≠ k := fun heq => hslot (heq ▸ hj)
      simp only [write_ne hslot, hne, iff_false]
      -- the newest packet would be gone already, and this pop would turn back
      intro hnone
      have hlast := (h.newest k hk).mp hnone
      have hmod : q.queueStorePos % maxQueueSize = q.queueRetrievePos := by
        rw [hq.store_mod, ← hk, (h.last k hlast).2]
      refine hturns ⟨hmod, ⟨ptr, hptr⟩, ?_⟩
      rw [slot_before_store hq hk hmod]
      exact hnone

/-! ## Runs -/

variable {cs : List (QueueCall α)}

/-- The packets stored in a run are numbered in the state it reaches. -/
theorem numbered_of_run (h : (queueSystem α).Run cs q) : Numbered (stored cs) q := by
  induction h with
  | start hq =>
    obtain rfl := hq
    exact numbered_queueInit
  | @next cs q q' c _ hstep ih =>
    obtain rfl := hstep
    cases c with
    | store ptr =>
      rw [stored_snoc_store]
      exact ih.queueStore ptr
    | pop =>
      rw [stored_snoc_pop]
      exact ih.queuePopFirst

/-- What a run that keeps the order has returned: packets with increasing numbers, of which the last
is known. -/
structure InOrder (cs : List (QueueCall α)) (ks : List Nat) (q : PacketQueue α) : Prop where
  positions : Positions (stored cs) (returned queueInit cs) ks
  pairwise : ks.Pairwise (· < ·)
  last : LastReturned (stored cs) ks q

theorem returned_snoc_of_run (h : (queueSystem α).Run cs q) (c : QueueCall α) :
    returned queueInit (cs ++ [c]) = returned queueInit cs ++ (c.result q).toList := by
  rw [returned_snoc, ← eq_applyCalls_of_run h]

theorem InOrder.store {ptr : α} (h : InOrder cs ks q) (hrun : (queueSystem α).Run cs q) :
    InOrder (cs ++ [.store ptr]) ks (queueStore q (some ptr)) := by
  refine ⟨?_, h.pairwise, ?_⟩
  · rw [stored_snoc_store, returned_snoc_of_run hrun]
    simpa [QueueCall.result] using h.positions.append_right ptr
  · rw [stored_snoc_store]
    exact h.last.queueStore (numbered_of_run hrun) ptr

theorem InOrder.pop (h : InOrder cs ks q) (hrun : (queueSystem α).Run cs q)
    (hturns : ¬ TurnsBack q) : ∃ ks', InOrder (cs ++ [.pop]) ks' (queuePopFirst q).2 := by
  have hq := numbered_of_run hrun
  cases hptr : q.queue q.queueRetrievePos with
  | none =>
    have hpop := queuePopFirst_none hptr
    refine ⟨ks, ?_, h.pairwise, ?_⟩
    · rw [stored_snoc_pop, returned_snoc_of_run hrun]
      simpa [QueueCall.result, hpop] using h.positions
    · rw [stored_snoc_pop, hpop]
      exact h.last
  | some ptr =>
    obtain ⟨j, hj, hlt, hle, hget⟩ := hq.latest _ hq.retrieve_lt ptr hptr
    have hpop := queuePopFirst_some hq hptr
    refine ⟨ks ++ [j], ?_, ?_, ?_⟩
    · rw [stored_snoc_pop, returned_snoc_of_run hrun]
      simpa [QueueCall.result, hpop] using h.positions.snoc hget
    · refine pairwise_snoc h.pairwise fun k hk => ?_
      exact lt_of_not_turnsBack hq h.last hptr hturns hk hj hle
    · rw [stored_snoc_pop]
      exact h.last.queuePopFirst hq hptr hturns hj hlt hle

/-- A run without a pop that turns back returns packets in order, by induction over its calls. -/
theorem inOrder_of_keepsOrder (h : ((queueSystem α).restrict KeepsOrder).Run cs q) :
    ∃ ks, InOrder cs ks q := by
  induction h with
  | start hq =>
    obtain rfl := hq
    exact ⟨[], Positions.nil _, .nil, lastReturned_queueInit⟩
  | @next cs q q' c hrun hstep ih =>
    obtain ⟨ks, hks⟩ := ih
    obtain ⟨rfl, hkeeps⟩ := hstep
    cases c with
    | store ptr => exact ⟨ks, hks.store hrun.of_restrict⟩
    | pop => exact hks.pop hrun.of_restrict (hkeeps rfl)

/-- The positions of what a run returns, and that they increase only if no pop turns
back. -/
theorem keepsOrder_of_pairwise (h : (queueSystem α).Run cs q) :
    ∃ ks, Positions (stored cs) (returned queueInit cs) ks ∧
      (ks.Pairwise (· < ·) → ((queueSystem α).restrict KeepsOrder).Run cs q ∧
        LastReturned (stored cs) ks q) := by
  induction h with
  | start hq =>
    refine ⟨[], Positions.nil _, fun _ => ⟨.start hq, ?_⟩⟩
    obtain rfl := hq
    exact lastReturned_queueInit
  | @next cs q q' c hrun hstep ih =>
    obtain ⟨ks, hpos, hkeeps⟩ := ih
    have hq := numbered_of_run hrun
    cases c with
    | store ptr =>
      refine ⟨ks, ?_, fun hpw => ?_⟩
      · rw [stored_snoc_store, returned_snoc_of_run hrun]
        simpa [QueueCall.result] using hpos.append_right ptr
      · obtain ⟨hrun', hlast⟩ := hkeeps hpw
        obtain rfl := hstep
        refine ⟨hrun'.next ⟨rfl, by rintro ⟨⟩⟩, ?_⟩
        rw [stored_snoc_store]
        exact hlast.queueStore hq ptr
    | pop =>
      obtain rfl := hstep
      cases hptr : q.queue q.queueRetrievePos with
      | none =>
        -- nothing is returned, and the position stays
        have hpop := queuePopFirst_none hptr
        refine ⟨ks, ?_, fun hpw => ?_⟩
        · rw [stored_snoc_pop, returned_snoc_of_run hrun]
          simpa [QueueCall.result, hpop] using hpos
        · obtain ⟨hrun', hlast⟩ := hkeeps hpw
          refine ⟨hrun'.next ⟨rfl, ?_⟩, ?_⟩
          · rintro - ⟨-, ⟨ptr, hsome⟩, -⟩
            rw [hptr] at hsome
            cases hsome
          · rw [stored_snoc_pop, show QueueCall.pop.apply q = q by rw [QueueCall.apply, hpop]]
            exact hlast
      | some ptr =>
        obtain ⟨j, hj, hlt, hle, hget⟩ := hq.latest _ hq.retrieve_lt ptr hptr
        have hpop := queuePopFirst_some hq hptr
        refine ⟨ks ++ [j], ?_, fun hpw => ?_⟩
        · rw [stored_snoc_pop, returned_snoc_of_run hrun]
          simpa [QueueCall.result, hpop] using hpos.snoc hget
        · obtain ⟨hpw', -, hlast'⟩ := List.pairwise_append.mp hpw
          obtain ⟨hrun', hlast⟩ := hkeeps hpw'
          -- to turn back is to return an older packet than the last one
          have hturns : ¬ TurnsBack q := by
            intro hturns
            obtain ⟨k, hk, hjk⟩ := lt_of_turnsBack hq hlast hturns hj hlt
            have hkj := hlast' k (List.mem_of_getLast? hk) j (List.mem_singleton_self _)
            omega
          refine ⟨hrun'.next ⟨rfl, fun _ => hturns⟩, ?_⟩
          rw [stored_snoc_pop]
          exact hlast.queuePopFirst hq hptr hturns hj hlt hle

/-- **Which runs keep the order.**  In a run with distinct packets, of any length and
with any overflow, what the pops return is a subsequence of what was stored exactly if
no pop turns back. -/
theorem returned_sublist_iff (h : (queueSystem α).Run cs q) (hdistinct : (stored cs).Nodup) :
    (returned queueInit cs).Sublist (stored cs) ↔
      ((queueSystem α).restrict KeepsOrder).Run cs q := by
  constructor
  · intro hsub
    obtain ⟨ks, hpos, hkeeps⟩ := keepsOrder_of_pairwise h
    exact (hkeeps (hpos.pairwise_of_sublist hdistinct hsub)).1
  · intro hrun
    obtain ⟨ks, hks⟩ := inOrder_of_keepsOrder hrun
    exact hks.positions.sublist hks.pairwise

/-- A packet that is stored and popped comes out in order. -/
theorem returned_sublist_store_pop :
    (returned queueInit [.store 7, .pop]).Sublist (stored [.store 7, .pop]) := by
  have hone : 1 % maxQueueSize = 1 := Nat.mod_eq_of_lt one_lt_maxQueueSize
  have hne : ¬ 0 = maxQueueSize := Nat.ne_of_lt maxQueueSize_pos
  have hstore : ((queueSystem Nat).restrict KeepsOrder).step queueInit (.store 7)
      (queueStore queueInit (some 7)) := ⟨rfl, by rintro ⟨⟩⟩
  have hpop : ((queueSystem Nat).restrict KeepsOrder).step (queueStore queueInit (some 7)) .pop
      (queuePopFirst (queueStore queueInit (some 7))).2 := by
    refine ⟨rfl, ?_⟩
    -- the store position is one ahead
    rintro - ⟨hmod, -⟩
    have hpos : (queueStore (queueInit : PacketQueue Nat) (some 7)).queueStorePos = 1 := by
      rw [queueStore, queueInit, if_neg hne]
    rw [hpos, hone] at hmod
    exact Nat.one_ne_zero hmod
  have hrun := TransitionSystem.Run.next (.next (.start rfl) hstore) hpop
  exact (returned_sublist_iff hrun.of_restrict (List.nodup_singleton 7)).mpr hrun

/-! ## Overflow by one -/

/-- The calls that store `0` to `MAX_QUEUE_SIZE`, one packet more than fit, and then
pop two. -/
def overflowingCalls : List (QueueCall Nat) :=
  (List.range maxQueueSize).map .store ++ [.store maxQueueSize] ++ [.pop] ++ [.pop]

theorem stored_overflowingCalls : stored overflowingCalls = List.range (maxQueueSize + 1) := by
  have hmap : ∀ ps : List Nat, stored (ps.map .store) = ps := by
    intro ps
    rw [stored, List.filterMap_map]
    exact List.filterMap_some
  rw [overflowingCalls, stored_snoc_pop, stored_snoc_pop, stored_snoc_store, hmap, List.range_succ]

/-- A packet stored in a full queue is popped first, and then the oldest one left. -/
theorem pops_after_overflow {q : PacketQueue α} {p₁ p : α} {ps : List α}
    (h : Represents q ps) (hfull : ps.length = maxQueueSize) (hpos : q.queueRetrievePos = 0)
    (hp₁ : ps[1]? = some p₁) :
    (queuePopFirst (queueStore q (some p))).1 = some p ∧
      (queuePopFirst (queuePopFirst (queueStore q (some p))).2).1 = some p₁ := by
  have hslot : q.queue 1 = some p₁ := by
    have hslot := h.holds.slot 1 one_lt_maxQueueSize
    rwa [hpos, Nat.zero_add, Nat.mod_eq_of_lt one_lt_maxQueueSize, hp₁] at hslot
  have hstore : queueStore q (some p) =
      { q with queue := write q.queue 0 (some p), queueStorePos := 0 + 1 } := by
    rw [queueStore, store_position h.store_le, h.store_mod, hpos, hfull, Nat.zero_add, Nat.mod_self]
  have hpop : queuePopFirst (queueStore q (some p)) =
      (some p, ⟨0 + 1, 1, write (write q.queue 0 (some p)) 0 none⟩) := by
    have hne : ¬ 0 + 1 = maxQueueSize := Nat.ne_of_lt one_lt_maxQueueSize
    simp only [hstore, queuePopFirst, hpos, write_self, if_neg hne]
  refine ⟨by rw [hpop], ?_⟩
  rw [hpop]
  simp only [queuePopFirst, write_ne Nat.one_ne_zero, hslot]

/-- Stores return nothing, however many of them overrun the array. -/
theorem returned_stores (q : PacketQueue α) (ps : List α) : returned q (ps.map .store) = [] := by
  induction ps generalizing q with
  | nil => rfl
  | cons p ps ih => exact ih _

/-- One packet more than fit, and two pops: the last packet comes out first, and then the second
one. -/
theorem returned_overflow {p₁ p : α} {ps : List α} (hfull : ps.length = maxQueueSize)
    (hp₁ : ps[1]? = some p₁) :
    returned queueInit (ps.map .store ++ [.store p] ++ [.pop] ++ [.pop]) = [p, p₁] := by
  have hle : ps.length ≤ maxQueueSize := Nat.le_of_eq hfull
  obtain ⟨hrep, hpos⟩ := applyCalls_stores_represents hle
  obtain ⟨hfirst, hsecond⟩ := pops_after_overflow (p := p) hrep hfull hpos hp₁
  rw [returned_snoc, returned_snoc, returned_snoc, returned_stores]
  simp only [applyCalls_append, applyCalls_singleton, QueueCall.result, QueueCall.apply, hfirst,
    hsecond]
  rfl

theorem returned_overflowingCalls : returned queueInit overflowingCalls = [maxQueueSize, 1] :=
  returned_overflow List.length_range (List.getElem?_range one_lt_maxQueueSize)

/-- **Overflow reorders.**  The run stores distinct packets, and what it returns is no
subsequence of them. -/
theorem overflow_reorders :
    (queueSystem Nat).Run overflowingCalls (applyCalls queueInit overflowingCalls) ∧
      (stored overflowingCalls).Nodup ∧
      ¬ (returned queueInit overflowingCalls).Sublist (stored overflowingCalls) := by
  refine ⟨run_applyCalls _, ?_, fun hsub => ?_⟩
  · rw [stored_overflowingCalls]
    exact List.nodup_range
  · rw [stored_overflowingCalls, returned_overflowingCalls] at hsub
    have hpw := List.pairwise_lt_range.sublist hsub
    have hlt : maxQueueSize < 1 := List.rel_of_pairwise_cons hpw (List.mem_singleton_self 1)
    exact Nat.lt_asymm one_lt_maxQueueSize hlt

end StatsdC
