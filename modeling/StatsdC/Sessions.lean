import StatsdC.Management

/-!
# The sessions of the management clients

The clients share one thread and one buffer.  What a client should see is a session of its own: it
is connected or not, a command of its own is answered, and nothing that another client does is seen
at all.  This is a machine for one client (`MgmtSession`), without a buffer, and the abstract view
of what the thread is for.

As long as no message of its own is the beginning of a command, this is what every client sees,
whatever the others send; and if no message at all is, the thread fails exactly when one of the
sessions does, so that no client is cut off by another (`serve_sessions`).  The first half is about
one client among any others, the second about all of them together, and both are about any history
of connections, messages and disconnections.  A message that is the beginning of a command is the
exception because of what the shared buffer may hold behind it (`StatsdC.Management`).

**What is one step.**  A round of the loop, from `select` to the last `send` for the socket, is one
event, with the tables as they are then.  The program takes no lock for a listing, so that other
threads may change the tables in the middle of it; that is not modelled.

**What is left out.**  Three things that can disturb a client are outside the model.  A `send` is
taken to succeed, while one on a socket that the peer has closed raises `SIGPIPE`; sockets are taken
to be below `FD_SETSIZE`; and the message that the thread logs with `%s` is not written, although
the buffer need not have a NUL when it is full.
-/

namespace StatsdC
open CString Fallible

/-- What one client sees: whether it is connected, and the bytes that have come to it. -/
structure MgmtSession where
  connected : Bool
  /-- What has been sent to it. -/
  sent : CString

/-- Whether an event is on the socket `fd`.  A failed `accept` is on none. -/
def MgmtEvent.concerns (fd : Nat) : MgmtEvent → Bool
  | .connect i | .hangup i | .message i _ => i == fd
  | .acceptFails => false

/-- The events of a history on the socket `fd`, each with the tables it found. -/
def ownEvents (fd : Nat) (events : List (Tables Num × MgmtEvent)) :
    List (Tables Num × MgmtEvent) := events.filter fun e => e.2.concerns fd

/-- A message that is not the beginning of a command, so that what is left in the buffer does not
matter. -/
def MgmtEvent.Whole : MgmtEvent → Prop
  | .message _ m => ¬ CommandBeginning m
  | .connect _ | .hangup _ | .acceptFails => True

/-- What the client on the socket `fd` sees of the thread, and nothing else of its state. -/
def MgmtState.session (s : MgmtState) (fd : Nat) : MgmtSession where
  connected := fd ∈ s.master
  sent := s.sent fd

namespace MgmtSession

/-- Before anything has happened, when no client is connected. -/
def start : MgmtSession := ⟨false, []⟩

/-- One event on the client's socket.  A command is read off the message alone, without any buffer.
-/
def step (friendly : Bool) (c : MgmtSession) (e : Tables Num × MgmtEvent) :
    Except MgmtFault MgmtSession :=
  match e.2 with
  | .connect _ => .ok ⟨true, c.sent ++ mgmtPrompt friendly⟩
  | .acceptFails => .ok c
  | .hangup _ => .ok { c with connected := false }
  | .message _ m =>
    if c.connected then do
      let reply ← mgmtReply friendly e.1 (mgmtCommand m.bytes)
      return ⟨mgmtCommand m.bytes ≠ .quit, c.sent ++ reply⟩
    else
      .ok c

/-- The events of a session, in order, from any state of it. -/
def run (friendly : Bool) (c : MgmtSession) (events : List (Tables Num × MgmtEvent)) :
    Except MgmtFault MgmtSession := events.foldlM (step friendly) c

/-- The session on the socket `fd` in a history of all clients. -/
def serve (friendly : Bool) (fd : Nat) (events : List (Tables Num × MgmtEvent)) :
    Except MgmtFault MgmtSession :=
  run friendly start (ownEvents fd events)

end MgmtSession

/-! ## One event -/

section Step
variable {friendly : Bool} {s s' : MgmtState} {fd : Nat} {e : Tables Num × MgmtEvent}

/-- The command in a message that is not the beginning of one. -/
theorem MgmtState.action_eq {m : MgmtMessage} (h : ¬ CommandBeginning m) (s : MgmtState) :
    s.action m = mgmtCommand m.bytes :=
  mgmtCommand_congr fun _ hw => prefix_received_iff h hw s

@[simp] theorem MgmtState.session_send (s : MgmtState) (fd : Nat) (text : CString) :
    (s.send fd text).session fd = { s.session fd with sent := s.sent fd ++ text } := by
  simp only [session, send, if_true]
  rfl

@[simp] theorem MgmtState.session_close (s : MgmtState) (fd : Nat) :
    (s.close fd).session fd = { s.session fd with connected := false } := by
  simp [session, close]

theorem MgmtState.session_send_ne {i : Nat} (h : i ≠ fd) (s : MgmtState) (text : CString) :
    (s.send i text).session fd = s.session fd := by
  simp only [session, send, if_neg h.symm]
  rfl

theorem MgmtState.session_close_ne {i : Nat} (h : i ≠ fd) (s : MgmtState) :
    (s.close i).session fd = s.session fd := by
  simp [session, close, h.symm]

/-- **An event on another socket** is not seen, although its bytes are in the buffer. -/
theorem session_of_other (hother : e.2.concerns fd = false)
    (hs : MgmtState.step friendly s e = .ok s') : s'.session fd = s.session fd := by
  obtain ⟨t, event⟩ := e
  cases event with
  | acceptFails =>
    obtain rfl := Except.ok.inj hs
    rfl
  | connect i =>
    have hi : i ≠ fd := by simpa [MgmtEvent.concerns] using hother
    obtain rfl := Except.ok.inj hs
    rw [MgmtState.session_send_ne hi]
    simp [MgmtState.session, hi.symm]
  | hangup i =>
    have hi : i ≠ fd := by simpa [MgmtEvent.concerns] using hother
    obtain rfl := Except.ok.inj hs
    exact s.session_close_ne hi
  | message i m =>
    have hi : i ≠ fd := by simpa [MgmtEvent.concerns] using hother
    simp only [MgmtState.step] at hs
    split at hs
    · obtain ⟨reply, -, hs⟩ := bind_eq_ok.mp hs
      obtain rfl := pure_eq_ok.mp hs
      split
      · exact (MgmtState.session_close_ne hi _).trans (MgmtState.session_send_ne hi _ _)
      · exact MgmtState.session_send_ne hi _ _
    · obtain rfl := Except.ok.inj hs
      rfl

/-- **An event on the client's own socket** is a step of its session, with what goes wrong. -/
theorem session_of_own (hown : e.2.concerns fd = true) (hwhole : e.2.Whole) :
    (MgmtState.step friendly s e).map (·.session fd) =
      MgmtSession.step friendly (s.session fd) e := by
  obtain ⟨t, event⟩ := e
  cases event with
  | acceptFails => cases hown
  | connect i =>
    obtain rfl : i = fd := by simpa [MgmtEvent.concerns] using hown
    simp [MgmtState.step, MgmtSession.step, Except.map, MgmtState.session, MgmtState.send]
  | hangup i =>
    obtain rfl : i = fd := by simpa [MgmtEvent.concerns] using hown
    simp [MgmtState.step, MgmtSession.step, Except.map]
  | message i m =>
    obtain rfl : i = fd := by simpa [MgmtEvent.concerns] using hown
    have haction := s.action_eq hwhole
    by_cases hconnected : i ∈ s.master
    · have hsession : (s.session i).connected = true := by simpa [MgmtState.session]
      simp only [MgmtState.step, MgmtSession.step, if_pos hconnected, if_pos hsession, haction]
      cases mgmtReply friendly t (mgmtCommand m.bytes) with
      | error fault => rfl
      | ok reply =>
        by_cases hquit : mgmtCommand m.bytes = .quit
        · simp only [hquit, if_true, ne_eq, not_true_eq_false, decide_false]
          exact congrArg Except.ok ((MgmtState.session_close _ _).trans
            (congrArg (fun c : MgmtSession => { c with connected := false })
              (MgmtState.session_send _ _ _)))
        · simp only [hquit, if_false, ne_eq, not_false_eq_true, decide_true]
          refine congrArg Except.ok ((MgmtState.session_send _ _ _).trans ?_)
          simp [MgmtState.session, hconnected]
    · have hsession : ¬ (s.session i).connected = true := by simpa [MgmtState.session]
      simp only [MgmtState.step, MgmtSession.step, if_neg hconnected, if_neg hsession]
      rfl

end Step

/-! ## Histories -/

section Histories
variable {friendly : Bool} {fd : Nat} {e : Tables Num × MgmtEvent}
  {events : List (Tables Num × MgmtEvent)} {s s' : MgmtState}

theorem ownEvents_own (h : e.2.concerns fd = true) :
    ownEvents fd (e :: events) = e :: ownEvents fd events := by
  unfold ownEvents
  rw [List.filter_cons, if_pos h]

theorem ownEvents_other (h : e.2.concerns fd = false) :
    ownEvents fd (e :: events) = ownEvents fd events := by
  unfold ownEvents
  rw [List.filter_cons, if_neg (by rw [h]; exact Bool.false_ne_true)]

/-- An event of the thread, and what is left of the session. -/
theorem run_cons (hwhole : e.2.concerns fd = true → e.2.Whole)
    (hstep : MgmtState.step friendly s e = .ok s') :
    MgmtSession.run friendly (s.session fd) (ownEvents fd (e :: events)) =
      MgmtSession.run friendly (s'.session fd) (ownEvents fd events) := by
  cases hown : e.2.concerns fd with
  | true =>
    have hsession := @session_of_own friendly s fd e hown (hwhole hown)
    rw [hstep] at hsession
    rw [ownEvents_own hown, MgmtSession.run, List.foldlM_cons, ← hsession]
    rfl
  | false => rw [ownEvents_other hown, session_of_other hown hstep]

/-- From any state of the thread on, a client sees its session. -/
theorem run_of_foldlM (hserve : events.foldlM (MgmtState.step friendly) s = .ok s')
    (hwhole : ∀ e ∈ events, e.2.concerns fd = true → e.2.Whole) :
    MgmtSession.run friendly (s.session fd) (ownEvents fd events) = .ok (s'.session fd) := by
  induction events generalizing s with
  | nil =>
    obtain rfl := Except.ok.inj hserve
    rfl
  | cons e events ih =>
    rw [List.foldlM_cons, bind_eq_ok] at hserve
    obtain ⟨s₁, hstep, hserve⟩ := hserve
    rw [run_cons (hwhole e (List.mem_cons_self ..)) hstep]
    exact ih hserve fun e' he' => hwhole e' (List.mem_cons_of_mem _ he')

/-- A step is taken if the session that it belongs to takes it. -/
theorem exists_step (hwhole : e.2.Whole)
    (hsessions : ∀ fd, ∃ c, MgmtSession.run friendly (s.session fd) (ownEvents fd (e :: events)) =
      .ok c) : ∃ s', MgmtState.step friendly s e = .ok s' := by
  obtain ⟨t, event⟩ := e
  cases event with
  | connect i | acceptFails | hangup i => exact ⟨_, rfl⟩
  | message i m =>
    obtain ⟨c, hc⟩ := hsessions i
    have hown : (MgmtEvent.message i m).concerns i = true := by simp [MgmtEvent.concerns]
    rw [ownEvents_own hown, MgmtSession.run, List.foldlM_cons, bind_eq_ok] at hc
    obtain ⟨c₁, hc₁, -⟩ := hc
    rw [← session_of_own hown hwhole] at hc₁
    cases hstep : MgmtState.step friendly s (t, .message i m) with
    | ok s' => exact ⟨s', rfl⟩
    | error fault =>
      rw [hstep] at hc₁
      cases hc₁

/-- The thread goes on as long as every session does, by induction over the history. -/
theorem exists_foldlM (hwhole : ∀ e ∈ events, e.2.Whole)
    (hsessions : ∀ fd, ∃ c, MgmtSession.run friendly (s.session fd) (ownEvents fd events) = .ok c) :
    ∃ s', events.foldlM (MgmtState.step friendly) s = .ok s' := by
  induction events generalizing s with
  | nil => exact ⟨s, rfl⟩
  | cons e events ih =>
    have hhead := hwhole e (List.mem_cons_self ..)
    obtain ⟨s₁, hstep⟩ := exists_step hhead hsessions
    obtain ⟨s', hs'⟩ := ih (s := s₁) (fun e' he' => hwhole e' (List.mem_cons_of_mem _ he'))
      fun fd => by
        obtain ⟨c, hc⟩ := hsessions fd
        rw [run_cons (fun _ => hhead) hstep] at hc
        exact ⟨c, hc⟩
    exact ⟨s', by rw [List.foldlM_cons, hstep]; exact hs'⟩

end Histories

/-- **The clients do not disturb each other.**  In any history, a client none of whose
messages is the beginning of a command has seen its own session, whatever the others have
sent; and if no message is, the thread has survived the history exactly if every session
survives its part of it. -/
theorem serve_sessions (friendly : Bool) (buf : Buffer)
    (events : List (Tables Num × MgmtEvent)) :
    (∀ s, MgmtState.serve friendly buf events = .ok s →
      ∀ fd, (∀ e ∈ events, e.2.concerns fd = true → e.2.Whole) →
        MgmtSession.serve friendly fd events = .ok (s.session fd)) ∧
      ((∀ e ∈ events, e.2.Whole) →
        ((∃ s, MgmtState.serve friendly buf events = .ok s) ↔
          ∀ fd, ∃ c, MgmtSession.serve friendly fd events = .ok c)) := by
  have hstart : ∀ fd, (⟨buf, [], fun _ => []⟩ : MgmtState).session fd = .start := fun fd => rfl
  refine ⟨fun s hserve fd hwhole => ?_, fun hwhole => ⟨?_, fun hsessions => ?_⟩⟩
  · rw [MgmtSession.serve, ← hstart fd]
    exact run_of_foldlM hserve hwhole
  · rintro ⟨s, hserve⟩ fd
    rw [MgmtSession.serve, ← hstart fd]
    exact ⟨_, run_of_foldlM hserve fun e he _ => hwhole e he⟩
  · refine exists_foldlM hwhole fun fd => ?_
    rw [hstart fd]
    exact hsessions fd

/-- Two clients connect; one sends the beginning of a command, and the other a command. -/
def twoClients : List (Tables Num × MgmtEvent) :=
  [(.empty, .connect 4), (.empty, .connect 5), (.empty, .message 5 oneLetter),
    (.empty, .message 4 (wordMessage "help".toList (by decide)))]

/-- The theorem for the one that has sent a command. -/
theorem serve_sessions_two : ∃ s,
    MgmtState.serve true (List.replicate mgmtBufLen nul) twoClients = .ok s ∧
      MgmtSession.serve true 4 twoClients = .ok (s.session 4) ∧ 4 ∈ s.master := by
  have hown : ∀ e ∈ twoClients, e.2.concerns 4 = true → e.2.Whole := by
    have hhelp : ¬ CommandBeginning (wordMessage "help".toList (by decide)) := by
      unfold CommandBeginning
      decide
    simp only [twoClients, List.forall_mem_cons]
    exact ⟨fun _ => trivial, fun _ => trivial, fun hfd => absurd hfd (by decide), fun _ => hhelp,
      nofun⟩
  obtain ⟨s, hserve, hmaster⟩ : ∃ s,
      MgmtState.serve true (List.replicate mgmtBufLen nul) twoClients = .ok s ∧ 4 ∈ s.master := by
    refine ⟨_, rfl, ?_⟩
    decide
  exact ⟨s, hserve, (serve_sessions true _ twoClients).1 s hserve 4 hown, hmaster⟩

end StatsdC
