import StatsdC.Daemon
import StatsdC.QueueThreads
import StatsdC.Restarts
import StatsdC.UdpReceive

/-!
# From the socket to the tables

The UDP thread, the queue and the queue thread together: a datagram is read, its text is stored in
the queue, popped, and processed, while the flush thread makes its passes.

**What is one step.**  The accesses to the queue are taken apart as in `QueueThreads`: a read or a
write of a slot or of a position variable is one step.  The tables are not taken apart.  Handling a
packet is one step, and so is a whole flush pass, although the queue thread and the flush thread do
interleave inside both: a packet with a count and a sample that is handled between a pass's loops
over the counters and the timers leaves tables that no order of the two gives.  What comes of that
is the subject of `CounterThreads` and `TimerThreads`, and nothing is said about it here.  A `read`
that finds the socket readable and the start of the call of `queue_store` are one step as well,
because only the UDP thread has anything to do with them.

**What is proved.**  Whatever the order of the steps, the packets that were processed are the first
of the datagrams that were read, in their order, each of them once (`pipeline_delivers`): as long
as the queue has room, none is lost, none is processed twice and none overtakes another.  With the
steps as coarse as they are, the tables are then those of the daemon after the packets processed
and the flushes, in the order in which they were; this part holds by the way the steps are made,
and is there so that what is known of the daemon's states can be used.

**What is left out.**  Signals and the snapshot, the management thread, and the sleep of the queue
thread when there is nothing to pop.
-/

namespace StatsdC
open CString

/-- The threads from the socket to the tables, and what they have done so far: what was read, what
is queued, and what the tables have seen. -/
structure Pipeline where
  /-- What `p_thread_udp` has read from its socket, oldest first. -/
  reads : List UdpRead
  receiver : UdpReceiver
  queue : QueueThreads CString
  /-- The packet that `p_thread_queue` has popped and is to process. -/
  packet : Option CString
  tables : Tables Num
  /-- What has happened to the tables, oldest first. -/
  events : List DaemonEvent

/-- What a thread does next.  The flush thread has only the pass as a whole, which uses the tables
and no queue. -/
inductive PipelineAction where
  /-- `p_thread_udp` finds its socket readable. -/
  | read (r : UdpRead)
  /-- It takes a step of `queue_store`. -/
  | store
  /-- `p_thread_queue` calls `queue_pop_first`. -/
  | callPop
  /-- It takes a step of it. -/
  | pop
  /-- It processes the packet that it has popped. -/
  | process (now : Int)
  | flush (cfg : FlushConfig) (env : FlushEnv)

namespace Pipeline

/-- Before the first datagram, with the queue as `queue_init` leaves it and the given tables. -/
def start (tables : Tables Num) : Pipeline := ⟨[], .start, .initial, none, tables, []⟩

/-- A step of one of the threads.  The queue is accessed one shared variable at a time, while a
packet and a pass are one step each. -/
inductive Step (firstByte : Num → Int) : Pipeline → PipelineAction → Pipeline → Prop
  /-- A datagram with a byte in it. -/
  | read {s : Pipeline} {r : UdpRead} {text : CString} {queue : QueueThreads CString} :
      s.receiver.running = true →
      (s.receiver.round (.readable r)).calls = s.receiver.calls ++ [.store text] →
      s.queue.act (.callStore text) = some queue →
      Step firstByte s (.read r)
        { s with
          reads := s.reads ++ [r], receiver := s.receiver.round (.readable r), queue }
  /-- Anything else, on which the loop is left. -/
  | stop {s : Pipeline} {r : UdpRead} :
      s.receiver.running = true → s.queue.storePc = .idle →
      (s.receiver.round (.readable r)).running = false →
      Step firstByte s (.read r)
        { s with reads := s.reads ++ [r], receiver := s.receiver.round (.readable r) }
  | store {s : Pipeline} {queue : QueueThreads CString} :
      s.queue.act .store = some queue → Step firstByte s .store { s with queue }
  | callPop {s : Pipeline} {queue : QueueThreads CString} :
      s.packet = none → s.queue.act .callPop = some queue →
      Step firstByte s .callPop { s with queue }
  | pop {s : Pipeline} {queue : QueueThreads CString} :
      s.queue.act .pop = some queue → queue.results = s.queue.results →
      Step firstByte s .pop { s with queue }
  /-- The step that returns. -/
  | popReturns {s : Pipeline} {queue : QueueThreads CString} {packet : Option CString} :
      s.queue.act .pop = some queue → queue.results = s.queue.results ++ [packet] →
      Step firstByte s .pop { s with queue, packet }
  | process {s : Pipeline} {p : QueuedPacket} {now : Int} {t : Tables Num} :
      s.packet = some p.text → (DaemonEvent.packet p now).apply firstByte s.tables = .ok t →
      Step firstByte s (.process now)
        { s with packet := none, tables := t, events := s.events ++ [.packet p now] }
  | flush {s : Pipeline} {cfg : FlushConfig} {env : FlushEnv} {t : Tables Num} :
      (DaemonEvent.flush cfg env).apply firstByte s.tables = .ok t →
      Step firstByte s (.flush cfg env)
        { s with tables := t, events := s.events ++ [.flush cfg env] }

/-- All the interleavings of these steps, from the start of a process, with or without a snapshot.
-/
def system (firstByte : Num → Int) : TransitionSystem Pipeline PipelineAction where
  init s := ∃ t, (daemon firstByte).init t ∧ s = start t
  step s a s' := Step firstByte s a s'

/-- The queue has room for what is stored: a slot write falls on a slot that has been popped. -/
def HasRoom (s : Pipeline) : PipelineAction → Prop
  | .store => QueueThreads.SlotWriteHasRoom s.queue .store
  | _ => True

/-- The datagrams that were read, but for empty ones, as the texts that are queued. -/
def received (s : Pipeline) : List CString :=
  s.reads.filterMap fun
    | .datagram d => if d.bytes = [] then none else some d.text
    | .fails => none

/-- The packets that were processed, in the order in which the tables saw them. -/
def processed (s : Pipeline) : List CString :=
  s.events.filterMap fun
    | .packet p _ => some p.text
    | _ => none

end Pipeline

/-! ## Steps of the queue -/

namespace QueueThreads
variable {α : Type} {s s' : QueueThreads α}

/-- The pointer that a running `queue_store` has not written yet, so that it is received but not in
the queue. -/
def pending (s : QueueThreads α) : List α :=
  match s.storePc with
  | .testPos ptr | .wrapPos ptr | .readSlotPos ptr | .writeSlot ptr _ => [ptr]
  | .idle | .readIncr | .writeIncr _ => []

theorem pending_eq_nil (h : s.storePc = .idle) : s.pending = [] := by
  rw [pending, h]

theorem callStore_cases {ptr : α} (h : s.act (.callStore ptr) = some s') :
    s.pending = [] ∧ s'.pending = [ptr] ∧ s'.stored = s.stored ∧ s'.results = s.results ∧
      s'.popPc = s.popPc := by
  simp only [act] at h
  split at h
  · rename_i hpc
    obtain rfl := Option.some.inj h
    exact ⟨by rw [pending, hpc], rfl, rfl, rfl, rfl⟩
  · cases h

theorem store_cases (h : s.act .store = some s') :
    s'.stored ++ s'.pending = s.stored ++ s.pending ∧ s'.results = s.results ∧
      s'.popPc = s.popPc := by
  simp only [act, storeStep] at h
  cases hpc : s.storePc with
  | idle => simp [hpc] at h
  | testPos ptr =>
    simp only [hpc, Option.some.injEq] at h
    subst h
    refine ⟨?_, rfl, rfl⟩
    unfold pending
    rw [hpc]
    split <;> rfl
  | writeSlot ptr pos =>
    simp only [hpc, Option.some.injEq] at h
    subst h
    refine ⟨?_, rfl, rfl⟩
    unfold pending
    rw [hpc]
    exact List.append_nil _
  | wrapPos ptr | readSlotPos ptr | readIncr | writeIncr pos =>
    simp only [hpc, Option.some.injEq] at h
    subst h
    refine ⟨?_, rfl, rfl⟩
    unfold pending
    rw [hpc]

theorem callPop_cases (h : s.act .callPop = some s') :
    s'.stored = s.stored ∧ s'.pending = s.pending ∧ s'.results = s.results := by
  simp only [act] at h
  split at h
  · obtain rfl := Option.some.inj h
    exact ⟨rfl, rfl, rfl⟩
  · cases h

/-- A step of a running pop, which returns with it or goes on.  In both cases nothing is stored. -/
theorem pop_cases (h : s.act .pop = some s') :
    s.popPc ≠ .idle ∧ s'.stored = s.stored ∧ s'.pending = s.pending ∧
      (s'.results = s.results ∨ ∃ r, s'.results = s.results ++ [r] ∧ s'.popPc = .idle) := by
  simp only [act, popStep] at h
  cases hpc : s.popPc with
  | idle => simp [hpc] at h
  | testSlot pos =>
    simp only [hpc] at h
    split at h <;> simp only [Option.some.injEq] at h <;> subst h
    · exact ⟨by rintro ⟨⟩, rfl, rfl, .inr ⟨none, rfl, rfl⟩⟩
    · exact ⟨by rintro ⟨⟩, rfl, rfl, .inl rfl⟩
  | testWrap t =>
    simp only [hpc] at h
    split at h <;> simp only [Option.some.injEq] at h <;> subst h
    · exact ⟨by rintro ⟨⟩, rfl, rfl, .inl rfl⟩
    · exact ⟨by rintro ⟨⟩, rfl, rfl, .inr ⟨t, rfl, rfl⟩⟩
  | wrapPos t =>
    simp only [hpc, Option.some.injEq] at h
    subst h
    exact ⟨by rintro ⟨⟩, rfl, rfl, .inr ⟨t, rfl, rfl⟩⟩
  | _ =>
    simp only [hpc, Option.some.injEq] at h
    subst h
    exact ⟨by rintro ⟨⟩, rfl, rfl, .inl rfl⟩

end QueueThreads

/-! ## The invariant -/

namespace Pipeline
variable {firstByte : Num → Int} {s s' : Pipeline}

/-- **The invariant**: every datagram that was read is stored, or still to be written to its
slot, and every packet that was popped is processed, or in the hands of the thread. -/
structure Delivers (firstByte : Num → Int) (s : Pipeline) : Prop where
  daemon : (daemon firstByte).Run s.events s.tables
  queue : s.queue.Consistent
  stored : s.queue.stored ++ s.queue.pending = s.received
  returned : s.queue.returned = s.processed ++ s.packet.toList
  /-- `queue_pop_first` is not called again before the packet is processed. -/
  popping : s.packet ≠ none → s.queue.popPc = .idle

/-- A round that goes on has stored the text of the datagram it read, which has a byte in it. -/
theorem round_stores {u : UdpReceiver} {r : UdpRead} {text : CString}
    (h : (u.round (.readable r)).calls = u.calls ++ [.store text]) :
    ∃ d : Datagram, r = .datagram d ∧ d.bytes ≠ [] ∧ text = d.text := by
  cases r with
  | datagram d =>
    by_cases hd : d.bytes = []
    · rw [UdpReceiver.round_empty hd] at h
      simp at h
    · rw [UdpReceiver.round_nonempty hd] at h
      exact ⟨d, rfl, hd, by simpa using h.symm⟩
  | fails => simp [UdpReceiver.round, UdpRead.apply] at h

/-- A round on which the loop is left has not read a byte, so that nothing that was received is lost
by it. -/
theorem round_stops {u : UdpReceiver} {r : UdpRead} (hrun : u.running = true)
    (h : (u.round (.readable r)).running = false) :
    ∀ d : Datagram, r = .datagram d → d.bytes = [] := by
  rintro d rfl
  by_contra hd
  rw [UdpReceiver.round_nonempty hd] at h
  simp [hrun] at h

theorem delivers_start {t : Tables Num} (h : (StatsdC.daemon firstByte).init t) :
    Delivers firstByte (start t) where
  daemon := .start h
  queue := QueueThreads.initial_consistent
  stored := rfl
  returned := rfl
  popping := fun hne => absurd rfl hne

theorem Delivers.step {a : PipelineAction} (h : Delivers firstByte s)
    (hroom : HasRoom s a) (hs : Step firstByte s a s') : Delivers firstByte s' := by
  cases hs with
  | @read r text queue _ hcalls hact =>
    obtain ⟨d, rfl, hd, rfl⟩ := round_stores hcalls
    obtain ⟨hnone, hpending, hstored, hresults, hpc⟩ := QueueThreads.callStore_cases hact
    have hreceived : s.queue.stored = s.received := by
      rw [← h.stored, hnone, List.append_nil]
    have hqueue := QueueThreads.act_consistent (a := .callStore d.text) h.queue trivial hact
    refine ⟨h.daemon, hqueue, ?_, ?_, ?_⟩
    · simp only [received, List.filterMap_append]
      rw [hstored, hpending, hreceived]
      simp [received, hd]
    · exact (congrArg List.reduceOption hresults).trans h.returned
    · exact fun hne => hpc.trans (h.popping hne)
  | @stop r hrun _ hstops =>
    refine ⟨h.daemon, h.queue, ?_, h.returned, h.popping⟩
    rw [h.stored]
    have hnothing := round_stops hrun hstops
    cases r with
    | datagram d => simp [received, hnothing d rfl]
    | fails => simp [received]
  | store hact =>
    obtain ⟨hstored, hresults, hpc⟩ := QueueThreads.store_cases hact
    refine ⟨h.daemon, QueueThreads.act_consistent h.queue hroom hact, hstored.trans h.stored, ?_,
      fun hne => hpc.trans (h.popping hne)⟩
    exact (congrArg List.reduceOption hresults).trans h.returned
  | callPop hpacket hact =>
    obtain ⟨hstored, hpending, hresults⟩ := QueueThreads.callPop_cases hact
    have hqueue := QueueThreads.act_consistent (a := .callPop) h.queue trivial hact
    refine ⟨h.daemon, hqueue, ?_, ?_, fun hne => absurd hpacket hne⟩
    · rw [hstored, hpending]
      exact h.stored
    · exact (congrArg List.reduceOption hresults).trans h.returned
  | pop hact hresults =>
    obtain ⟨hpc, hstored, hpending, -⟩ := QueueThreads.pop_cases hact
    have hqueue := QueueThreads.act_consistent (a := .pop) h.queue trivial hact
    refine ⟨h.daemon, hqueue, ?_, ?_, fun hne => absurd (h.popping hne) hpc⟩
    · rw [hstored, hpending]
      exact h.stored
    · exact (congrArg List.reduceOption hresults).trans h.returned
  | @popReturns queue packet hact hresults =>
    obtain ⟨hpc, hstored, hpending, hreturns⟩ := QueueThreads.pop_cases hact
    -- a pop that runs was called with no packet left to process
    have hpacket : s.packet = none := by_contra fun hne => hpc (h.popping hne)
    have hqueue := QueueThreads.act_consistent (a := .pop) h.queue trivial hact
    refine ⟨h.daemon, hqueue, ?_, ?_, fun _ => ?_⟩
    · rw [hstored, hpending]
      exact h.stored
    · have hreturned : s.queue.returned = s.processed := by
        rw [h.returned, hpacket]
        exact List.append_nil _
      rw [QueueThreads.returned, hresults, List.reduceOption_append,
        show s.queue.results.reduceOption = s.processed from hreturned]
      cases packet <;> rfl
    · rcases hreturns with hsame | ⟨_, -, hidle⟩
      · rw [hsame] at hresults
        simp at hresults
      · exact hidle
  | @process p now t hpacket happly =>
    refine ⟨h.daemon.next happly, h.queue, h.stored, ?_, fun hne => absurd rfl hne⟩
    rw [h.returned, hpacket]
    simp [processed]
  | @flush cfg env t happly =>
    refine ⟨h.daemon.next happly, h.queue, h.stored, ?_, h.popping⟩
    rw [h.returned]
    simp [processed]

theorem reachable_delivers (h : ((system firstByte).restrict HasRoom).Reachable s) :
    Delivers firstByte s := by
  refine h.invariant ?_ ?_
  · rintro s ⟨t, ht, rfl⟩
    exact delivers_start ht
  · rintro s a s' hinv ⟨hs, hroom⟩
    exact hinv.step hroom hs

/-- What was read and is not processed: a packet in the hands of the queue thread, those it
has not popped, and one that is still to be written to its slot. -/
theorem Delivers.received_eq (h : Delivers firstByte s) :
    ∃ waiting, s.received = s.processed ++ waiting := by
  obtain ⟨rest, hrest⟩ := h.queue.returned_prefix
  refine ⟨s.packet.toList ++ rest ++ s.queue.pending, ?_⟩
  rw [← h.stored, ← hrest, h.returned]
  simp only [List.append_assoc]

/-- A pop that returns `NULL` while nothing is being stored has left nothing to process. -/
theorem Delivers.drained (h : Delivers firstByte s) {queue : QueueThreads CString}
    (hact : s.queue.act .pop = some queue) (hidle : s.queue.storePc = .idle)
    (hnull : queue.results = s.queue.results ++ [none]) : s.processed = s.received := by
  have hpc := (QueueThreads.pop_cases hact).1
  have hpacket : s.packet = none := by_contra fun hne => hpc (h.popping hne)
  calc s.processed = s.queue.returned := by rw [h.returned, hpacket]; exact (List.append_nil _).symm
    _ = s.queue.stored := h.queue.returns_null hact hnull
    _ = s.received := by rw [← h.stored, QueueThreads.pending_eq_nil hidle, List.append_nil]

end Pipeline

/-- **From the socket to the tables.**  In every interleaving of the threads, access by access
to the queue but with a packet handled and a flush pass made in one step each, whose slot
writes have room: the tables are those that the daemon has after the packets processed and
the flushes, in their order; the packets processed are the first datagrams read, in their order,
each of them once; and when a pop finds the queue empty, and nothing is being stored, they
are all the datagrams read. -/
theorem pipeline_delivers {firstByte : Num → Int} {s : Pipeline}
    (h : ((Pipeline.system firstByte).restrict Pipeline.HasRoom).Reachable s) :
    (daemon firstByte).Run s.events s.tables ∧
      (∃ waiting, s.received = s.processed ++ waiting) ∧
        ∀ queue, s.queue.act .pop = some queue → s.queue.storePc = .idle →
          queue.results = s.queue.results ++ [none] → s.processed = s.received :=
  have hinv := Pipeline.reachable_delivers h
  ⟨hinv.daemon, hinv.received_eq, fun _ hact hidle hnull => hinv.drained hact hidle hnull⟩

/-! ## A packet with nothing in between -/

namespace Pipeline
variable {firstByte : Num → Int} {s : Pipeline}

/-- The interleavings whose slot writes have room, which are those that the result is about. -/
abbrev roomySystem (firstByte : Num → Int) := (system firstByte).restrict HasRoom

theorem reachable_store (h : (roomySystem firstByte).Reachable s) {queue : QueueThreads CString}
    (hact : s.queue.act .store = some queue) (hroom : HasRoom s .store) :
    (roomySystem firstByte).Reachable { s with queue } := h.next ⟨.store hact, hroom⟩

theorem reachable_pop (h : (roomySystem firstByte).Reachable s) {queue : QueueThreads CString}
    (hact : s.queue.act .pop = some queue) (hresults : queue.results = s.queue.results) :
    (roomySystem firstByte).Reachable { s with queue } := h.next ⟨.pop hact hresults, trivial⟩

theorem reachable_popReturns (h : (roomySystem firstByte).Reachable s)
    {queue : QueueThreads CString} {packet : Option CString} (hact : s.queue.act .pop = some queue)
    (hresults : queue.results = s.queue.results ++ [packet]) :
    (roomySystem firstByte).Reachable { s with queue, packet } :=
  h.next ⟨.popReturns hact hresults, trivial⟩

/-- A datagram is read and stored without interruption: such a run exists from every state with an
idle store and room. -/
theorem read_alone (h : (roomySystem firstByte).Reachable s) {d : Datagram} (hd : d.bytes ≠ [])
    (hrun : s.receiver.running = true) (hidle : s.queue.storePc = .idle)
    (hroom : s.queue.stored.length < s.queue.cleared + maxQueueSize) :
    (roomySystem firstByte).Reachable
      { s with
        reads := s.reads ++ [.datagram d]
        receiver := s.receiver.round (.readable (.datagram d))
        queue := { s.queue with
          shared := queueStore s.queue.shared (some d.text)
          stored := s.queue.stored ++ [d.text] } } := by
  obtain ⟨reads, receiver, ⟨⟨sp, rp, slots⟩, storePc, popPc, stored, cleared, results⟩, packet,
    tables, events⟩ := s
  obtain rfl : storePc = .idle := hidle
  have hcalls : (receiver.round (.readable (.datagram d))).calls =
      receiver.calls ++ [.store d.text] := by
    rw [UdpReceiver.round_nonempty hd]
  have hread := h.next ⟨.read hrun hcalls rfl, trivial⟩
  have htest := reachable_store hread rfl trivial
  by_cases hwrap : sp = maxQueueSize
  · simp only [if_pos hwrap] at htest
    have h0 := reachable_store htest rfl trivial
    have h1 := reachable_store h0 rfl trivial
    have h2 := reachable_store h1 rfl hroom
    have h3 := reachable_store h2 rfl trivial
    have h4 := reachable_store h3 rfl trivial
    simpa only [queueStore, if_pos hwrap] using h4
  · simp only [if_neg hwrap] at htest
    have h1 := reachable_store htest rfl trivial
    have h2 := reachable_store h1 rfl hroom
    have h3 := reachable_store h2 rfl trivial
    have h4 := reachable_store h3 rfl trivial
    simpa only [queueStore, if_neg hwrap] using h4

/-- A packet is popped without interruption, from every state in which one is waiting and none is
held. -/
theorem pop_alone (h : (roomySystem firstByte).Reachable s) (hpacket : s.packet = none)
    (hidle : s.queue.popPc = .idle) {text : CString}
    (hx : s.queue.shared.queue s.queue.shared.queueRetrievePos = some text) :
    (roomySystem firstByte).Reachable
      { s with
        queue := { s.queue with
          shared := (queuePopFirst s.queue.shared).2
          cleared := s.queue.cleared + 1
          results := s.queue.results ++ [some text] }
        packet := some text } := by
  obtain ⟨reads, receiver, ⟨⟨sp, rp, slots⟩, storePc, popPc, stored, cleared, results⟩, packet,
    tables, events⟩ := s
  obtain rfl : popPc = .idle := hidle
  replace hx : slots rp = some text := hx
  have hcall := h.next ⟨.callPop hpacket rfl, trivial⟩
  have hread := reachable_pop hcall rfl rfl
  have htest : (roomySystem firstByte).Reachable ⟨reads, receiver,
      ⟨⟨sp, rp, slots⟩, storePc, .readTakePos, stored, cleared, results⟩, packet, tables,
        events⟩ :=
    reachable_pop hread (by simp [QueueThreads.act, QueueThreads.popStep, hx]) rfl
  have htake := reachable_pop (reachable_pop htest rfl rfl) rfl rfl
  have hclear := reachable_pop (reachable_pop htake rfl rfl) rfl rfl
  have hincr := reachable_pop (reachable_pop hclear rfl rfl) rfl rfl
  simp only [hx] at hincr
  simp only [queuePopFirst, hx]
  by_cases hwrap : rp + 1 = maxQueueSize
  · have hw : (roomySystem firstByte).Reachable ⟨reads, receiver,
        ⟨⟨sp, rp + 1, CircularBuffer.write slots rp none⟩, storePc, .wrapPos (some text), stored,
          cleared + 1, results⟩, packet, tables, events⟩ :=
      reachable_pop hincr (by simp [QueueThreads.act, QueueThreads.popStep, hwrap]) rfl
    have hdone := reachable_popReturns hw rfl rfl
    simpa only [if_pos hwrap] using hdone
  · have hdone : (roomySystem firstByte).Reachable ⟨reads, receiver,
        ⟨⟨sp, rp + 1, CircularBuffer.write slots rp none⟩, storePc, .idle, stored, cleared + 1,
          results ++ [some text]⟩, some text, tables, events⟩ :=
      reachable_popReturns hincr (by simp [QueueThreads.act, QueueThreads.popStep, hwrap]) rfl
    simpa only [if_neg hwrap] using hdone

end Pipeline

/-- `sevenPacket` as it arrives. -/
def sevenDatagram : Datagram := ⟨sevenPacket.text, by decide⟩

/-- The threads after it was read, stored, popped and processed. -/
def sevenPipeline : Pipeline where
  reads := [.datagram sevenDatagram]
  receiver := UdpReceiver.start.round (.readable (.datagram sevenDatagram))
  queue := ⟨(queuePopFirst (queueStore queueInit (some sevenDatagram.text))).2, .idle, .idle,
    [sevenDatagram.text], 1, [some sevenDatagram.text]⟩
  packet := none
  tables := sevenTables
  events := [.packet sevenPacket 0]

theorem sevenDatagram_text : sevenDatagram.text = sevenPacket.text := by decide

theorem reachable_sevenPipeline :
    (Pipeline.roomySystem fun _ => 0).Reachable sevenPipeline := by
  have hstart : (Pipeline.roomySystem fun _ => 0).Reachable (.start startTables) :=
    .start ⟨startTables, ⟨0, initStats_empty⟩, rfl⟩
  have hread := Pipeline.read_alone hstart (d := sevenDatagram) (by decide) rfl rfl
    (Nat.lt_add_left 0 maxQueueSize_pos)
  have hslot : (queueStore queueInit (some sevenDatagram.text)).queue 0 =
      some sevenDatagram.text := by
    have hne : ¬ 0 = maxQueueSize := Nat.ne_of_lt maxQueueSize_pos
    simp [queueStore, queueInit, hne]
  have hpop := Pipeline.pop_alone hread rfl rfl hslot
  exact hpop.next ⟨.process (congrArg some sevenDatagram_text) (apply_sevenPacket _), trivial⟩

/-- The same, with a pop that runs and is to test the next slot, which is empty. -/
def drainedPipeline : Pipeline :=
  { sevenPipeline with queue := { sevenPipeline.queue with popPc := .testSlot 1 } }

/-- The next slot is the second one, and it is empty. -/
theorem sevenPipeline_nextSlot :
    sevenPipeline.queue.shared.queueRetrievePos = 1 ∧
      sevenPipeline.queue.shared.queue 1 = none := by
  have hzero : ¬ 0 = maxQueueSize := Nat.ne_of_lt maxQueueSize_pos
  have hone : ¬ 1 = maxQueueSize := Nat.ne_of_lt one_lt_maxQueueSize
  constructor <;>
    simp [sevenPipeline, queuePopFirst, queueStore, queueInit, CircularBuffer.write, hzero, hone]

theorem reachable_drainedPipeline :
    (Pipeline.roomySystem fun _ => 0).Reachable drainedPipeline := by
  have hcall := reachable_sevenPipeline.next ⟨.callPop rfl rfl, trivial⟩
  have htest := Pipeline.reachable_pop hcall rfl rfl
  rw [sevenPipeline_nextSlot.1] at htest
  exact htest

/-- The theorem for one datagram, and the pop after it, which returns `NULL`. -/
theorem pipeline_delivers_seven :
    (daemon fun _ => 0).Run [.packet sevenPacket 0] sevenTables ∧
      (∃ waiting, drainedPipeline.received = drainedPipeline.processed ++ waiting) ∧
        (∃ queue, drainedPipeline.queue.act .pop = some queue ∧
          queue.results = drainedPipeline.queue.results ++ [none]) ∧
          drainedPipeline.processed = drainedPipeline.received := by
  obtain ⟨hrun, hwaiting, hdrained⟩ := pipeline_delivers reachable_drainedPipeline
  have hact : drainedPipeline.queue.act .pop = some { drainedPipeline.queue with
      popPc := .idle, results := drainedPipeline.queue.results ++ [none] } := by
    simp only [QueueThreads.act, QueueThreads.popStep, drainedPipeline, sevenPipeline_nextSlot.2]
  exact ⟨hrun, hwaiting, ⟨_, hact, rfl⟩, hdrained _ hact rfl rfl⟩

end StatsdC
