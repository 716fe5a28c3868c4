import StatsdC.Packet
import StatsdC.Queue

/-!
# Receiving datagrams

The loop of `p_thread_udp`: `select` with a timeout of a second, a `read` into a zeroed buffer when
the socket is readable, and a copy of the buffer's text into the queue.  `read` reports an error by
-1 and a datagram by its length, and the loop is left on anything that is not positive.  An empty
datagram has length 0: it is legal, and it ends reception for good (`receivesAll_iff`).

A `UdpRound` is what a round of the loop finds, which may be nothing, and a list of them is
everything that the network does to the thread.  The theorem is about any such list in which no
`read` fails: everything that has arrived is received exactly if no datagram was empty.  To be
received means that the text of the datagram is stored, once and in order; the text ends at the
first NUL byte, since the copy is made with `strdup`, and it always fits, since no datagram is as
long as the buffer (`maxDatagram_lt_bufLen`).

The store is the call of `queue_store`, and up to the first pop the queue holds what was received,
oldest first, as long as it fits (`receive_represents`).  What the queue does with more, and what
becomes of the packets once they are popped, are the subjects of `StatsdC.Queue` and
`StatsdC.Pipeline`.  Creating the socket is left out; whether it succeeds is not a question of the
loop.
-/

namespace StatsdC
open CString

/-- The longest datagram that UDP over IPv4 carries, which is less than `BUFLEN`. -/
def maxDatagram : Nat := 65507

/-- A datagram with its bytes, of which the bound on their number is a field.  NUL bytes are
allowed, and so is the empty datagram. -/
structure Datagram where
  bytes : List Char
  length_le : bytes.length ≤ maxDatagram

/-- What `read` finds at the socket: the next datagram, or an error. -/
inductive UdpRead where
  | datagram (d : Datagram)
  | fails

/-- What a round of the loop finds: what `select` returns and, where the socket is readable, what
`read` does. -/
inductive UdpRound where
  /-- `select` returns a negative value. -/
  | selectFails
  /-- `select` returns without the socket being readable. -/
  | quiet
  | readable (r : UdpRead)

/-- `p_thread_udp` between two rounds: whether it is still in its loop, and the calls
it has made on the queue. -/
structure UdpReceiver where
  running : Bool
  calls : List (QueueCall CString)

/-- `memset(&buf_in, 0, sizeof(buf_in))`. -/
def zeroedBuffer : Buffer := List.replicate bufLen nul

/-- `read` into the zeroed buffer: what it returns and what it leaves there.  The bytes behind the
datagram stay NUL. -/
def UdpRead.apply : UdpRead → Int × Buffer
  | .datagram d =>
    let got := d.bytes.take bufLen
    (got.length, write zeroedBuffer 0 got)
  | .fails => (-1, zeroedBuffer)

/-- The body of the loop.  A `read` that returns no byte leaves it, and that is also what an empty
datagram does. -/
def UdpReceiver.round (s : UdpReceiver) (r : UdpRound) : UdpReceiver :=
  match r with
  | .selectFails | .quiet => s
  | .readable r =>
    let (n, bufIn) := r.apply
    if n ≤ 0 then
      { s with running := false }
    else
      let bufIn := write bufIn (bufLen - 1) [nul]
      { s with calls := s.calls ++ [.store (cstr bufIn 0)] }

/-- The loop, as far as the rounds `rounds`.  Once it is left, the rounds that follow find nobody.
-/
def UdpReceiver.receive (s : UdpReceiver) : List UdpRound → UdpReceiver
  | [] => s
  | r :: rounds => if s.running then (s.round r).receive rounds else s

/-- The thread as it enters its loop, with nothing stored yet. -/
def UdpReceiver.start : UdpReceiver := ⟨true, []⟩

/-! ## What has arrived -/

/-- The datagrams among what the rounds find, oldest first, empty ones included. -/
def datagrams (rounds : List UdpRound) : List Datagram :=
  rounds.filterMap fun
    | .readable (.datagram d) => some d
    | _ => none

/-- The bytes of a datagram up to the first NUL, which is what `strdup` copies of it. -/
def Datagram.text (d : Datagram) : CString := d.bytes.takeWhile (· != nul)

/-- Nothing that has arrived stopped the loop, and every datagram with a byte in it has
been stored, once and in order. -/
def ReceivesAll (rounds : List UdpRound) : Prop :=
  (UdpReceiver.start.receive rounds).running = true ∧
    (UdpReceiver.start.receive rounds).calls =
      ((datagrams rounds).filter (·.bytes ≠ [])).map fun d => .store d.text

theorem maxDatagram_lt_bufLen : maxDatagram < bufLen - 1 := by decide

/-- The text in a buffer ends at its first NUL, wherever the bytes before one end. -/
theorem takeWhile_append_nul (s : CString) (rest : List Char) :
    (s ++ nul :: rest).takeWhile (· != nul) = s.takeWhile (· != nul) := by
  induction s with
  | nil => rfl
  | cons c s ih => rw [List.cons_append, List.takeWhile_cons, ih, List.takeWhile_cons]

namespace Datagram

/-- `read` returns the length of a datagram, which fits into the buffer with a NUL behind it. -/
theorem apply_eq (d : Datagram) : (UdpRead.datagram d).apply =
    ((d.bytes.length : Int), d.bytes ++ List.replicate (bufLen - d.bytes.length) nul) := by
  have hlt := maxDatagram_lt_bufLen
  have hle := d.length_le
  simp only [UdpRead.apply, zeroedBuffer, write]
  rw [List.take_of_length_le (by omega), List.take_zero, List.nil_append, List.drop_replicate,
    Nat.zero_add]

/-- The copy that is stored.  The byte set to NUL at the end of the buffer is one
already. -/
theorem cstr_eq_text (d : Datagram) :
    cstr (write (UdpRead.datagram d).apply.2 (bufLen - 1) [nul]) 0 = d.text := by
  have hlt := maxDatagram_lt_bufLen
  have hle := d.length_le
  obtain ⟨k, hk⟩ : ∃ k, bufLen - 1 = d.bytes.length + (k + 1) :=
    ⟨bufLen - 1 - d.bytes.length - 1, by omega⟩
  have htake : (d.bytes ++ List.replicate (bufLen - d.bytes.length) nul).take (bufLen - 1) =
      d.bytes ++ nul :: List.replicate k nul := by
    rw [hk, List.take_length_add_append, List.take_replicate, Nat.min_eq_left (by omega),
      List.replicate_succ]
  rw [apply_eq, write, htake, cstr, List.drop_zero, List.append_assoc, List.append_assoc,
    List.cons_append, takeWhile_append_nul, text]

end Datagram

/-! ## The rounds of the loop -/

namespace UdpReceiver
variable {s : UdpReceiver}

/-- A round with an empty datagram leaves the loop, as an error would. -/
theorem round_empty {d : Datagram} (h : d.bytes = []) :
    s.round (.readable (.datagram d)) = { s with running := false } := by
  simp only [round, Datagram.apply_eq, h]
  rw [if_pos (by simp)]

/-- A round with any other datagram stores its text. -/
theorem round_nonempty {d : Datagram} (h : d.bytes ≠ []) :
    s.round (.readable (.datagram d)) = { s with calls := s.calls ++ [.store d.text] } := by
  have hpos := List.length_pos_iff.mpr h
  have htext := d.cstr_eq_text
  simp only [Datagram.apply_eq] at htext
  simp only [round, Datagram.apply_eq, htext]
  rw [if_neg (by omega)]

/-- Once the loop is left, nothing is received, whatever arrives. -/
theorem receive_stopped (h : s.running = false) (rounds : List UdpRound) :
    s.receive rounds = s := by
  cases rounds with
  | nil => rfl
  | cons r rounds => rw [receive, if_neg (by simp [h])]

/-- **The loop over rounds in which every read succeeds.**  It keeps running exactly if
no datagram was empty, and then has stored them all. -/
theorem receive_spec {rounds : List UdpRound} (hread : .readable .fails ∉ rounds)
    (hrun : s.running = true) :
    ((s.receive rounds).running = true ↔ ∀ d ∈ datagrams rounds, d.bytes ≠ []) ∧
      ((∀ d ∈ datagrams rounds, d.bytes ≠ []) →
        (s.receive rounds).calls = s.calls ++ (datagrams rounds).map fun d => .store d.text) := by
  induction rounds generalizing s with
  | nil => simp [receive, datagrams, hrun]
  | cons r rounds ih =>
    have hrest : .readable .fails ∉ rounds := fun hm => hread (List.mem_cons_of_mem _ hm)
    rw [receive, if_pos hrun]
    rcases r with _ | _ | ⟨d⟩ | _
    · exact ih hrest hrun
    · exact ih hrest hrun
    · have hcons : datagrams (.readable (.datagram d) :: rounds) = d :: datagrams rounds := rfl
      rw [hcons]
      by_cases hd : d.bytes = []
      · -- nothing after it is looked at
        have hstop : ¬ ∀ d' ∈ d :: datagrams rounds, d'.bytes ≠ [] :=
          fun hall => hall d (List.mem_cons_self ..) hd
        rw [round_empty hd, receive_stopped rfl]
        exact ⟨iff_of_false Bool.false_ne_true hstop, fun hall => absurd hall hstop⟩
      · obtain ⟨hrunning, hcalls⟩ := ih (s := { s with calls := s.calls ++ [.store d.text] })
          hrest hrun
        rw [round_nonempty hd]
        refine ⟨hrunning.trans ?_, fun hall => ?_⟩
        · simp [hd]
        · rw [hcalls fun d' hd' => hall d' (List.mem_cons_of_mem _ hd'), List.map_cons,
            List.append_assoc, List.singleton_append]
    · exact absurd (List.mem_cons_self ..) hread

end UdpReceiver

/-- **What keeps the receiver going.**  For any rounds in which every read succeeds,
everything that has arrived is received exactly if no datagram was empty. -/
theorem receivesAll_iff {rounds : List UdpRound} (hread : .readable .fails ∉ rounds) :
    ReceivesAll rounds ↔ ∀ d ∈ datagrams rounds, d.bytes ≠ [] := by
  obtain ⟨hrunning, hcalls⟩ := UdpReceiver.receive_spec (s := .start) hread rfl
  constructor
  · rintro ⟨hrun, -⟩
    exact hrunning.mp hrun
  · intro hall
    refine ⟨hrunning.mpr hall, ?_⟩
    have hfilter : (datagrams rounds).filter (·.bytes ≠ []) = datagrams rounds :=
      List.filter_eq_self.mpr fun d hd => by simpa using hall d hd
    rw [hfilter, hcalls hall]
    rfl

/-- A datagram with one metric. -/
def metricDatagram : Datagram := ⟨"a:1|c".toList, by decide⟩

/-- A datagram without bytes. -/
def emptyDatagram : Datagram := ⟨[], by decide⟩

/-- The theorem for two datagrams, with a failed `select` and a timeout between them. -/
theorem receivesAll_two : ReceivesAll [.readable (.datagram metricDatagram), .selectFails, .quiet,
    .readable (.datagram metricDatagram)] :=
  (receivesAll_iff (by simp)).mpr (by
    intro d hd
    have hmem : d ∈ [metricDatagram, metricDatagram] := hd
    obtain rfl : d = metricDatagram := by simpa using hmem
    decide)

/-- **One empty datagram ends reception**: the metric that arrives after it is not
stored. -/
theorem emptyDatagram_stops : ¬ ReceivesAll [.readable (.datagram metricDatagram),
    .readable (.datagram emptyDatagram), .readable (.datagram metricDatagram)] := by
  intro h
  have hall := (UdpReceiver.receive_spec (by simp) rfl).1.mp h.1
  exact hall emptyDatagram (by simp [datagrams]) rfl

/-! ## What the queue holds -/

/-- The datagrams received before the first pop are in the queue, oldest first, as long as they fit.
-/
theorem receive_represents {rounds : List UdpRound} (hread : .readable .fails ∉ rounds)
    (hnonempty : ∀ d ∈ datagrams rounds, d.bytes ≠ [])
    (hroom : (datagrams rounds).length ≤ maxQueueSize) :
    Represents (applyCalls queueInit (UdpReceiver.start.receive rounds).calls)
      ((datagrams rounds).map Datagram.text) := by
  have hcalls := (UdpReceiver.receive_spec (s := .start) hread rfl).2 hnonempty
  have hstores : (UdpReceiver.start.receive rounds).calls =
      ((datagrams rounds).map Datagram.text).map .store := by
    rw [hcalls, List.map_map]
    rfl
  rw [hstores]
  exact (applyCalls_stores_represents (by rwa [List.length_map])).1

end StatsdC
