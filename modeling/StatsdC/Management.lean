import StatsdC.Lib.Fallible
import StatsdC.Tables

/-!
# The management interface

`p_thread_mgmt`: any number of clients, one buffer.  What a `recv` delivers is put at the front of
the buffer, and the command is read off the buffer: a word is matched against as many bytes as it
has, however many have arrived.  What an earlier message left behind the new one is therefore part
of it, and completes a message that is the beginning of a word.  `actionFixed_iff` says exactly
which messages are acted on in the same way whatever came before them, from this client or another.

**What is one step.**  A message that arrives is one event: the `recv`, the command and the reply.
A listing is a function of the tables as they are then.  The program takes no lock for a
listing, so that other threads may change the tables in the middle of it; that is not modelled.  A
round of the thread's loop is an event for each socket that is ready, and any list of events is a
history, so the order of the sockets does not matter.

A listing formats every number into 32 bytes; one that is longer is a fault of the model.  The
replies are the texts as they are sent, and in friendly mode the prompt behind each.

**What is left out.**  Creating and binding the socket, a `select` that fails, and a `send` that
fails or takes a part of the text only.  How the clients share the thread is in
`StatsdC.Sessions`.
-/

namespace StatsdC
open CString Fallible

/-- The size of `buf`, which all clients share. -/
def mgmtBufLen : Nat := 1024

/-- An access without a meaning: the only one is a number that is too long. -/
inductive MgmtFault where
  /-- A number that does not fit the buffer `z` it is formatted into. -/
  | numberOverflow
  deriving DecidableEq

/-! ## Commands -/

/-- What is done for a message, by the first test that it passes. -/
inductive MgmtCommand where
  | help
  | counters
  | timers
  | stats
  | quit
  /-- `MGMT_BADCOMMAND`. -/
  | badCommand
  deriving DecidableEq

/-- `strncasecmp`, over at most `n` bytes.  A text ends at its NUL, and a buffer that has none ends
like one. -/
def strncasecmp (s t : List Char) : Nat → Int
  | 0 => 0
  | n + 1 =>
    let a := (s.headD nul).toLower
    let b := (t.headD nul).toLower
    if a ≠ b then a.toNat - b.toNat else if a = nul then 0 else strncasecmp s.tail t.tail n

/-- The tests on `bufptr`, in their order, over the whole buffer and not over what `recv` delivered.
-/
def mgmtCommand (buf : Buffer) : MgmtCommand :=
  if strncasecmp buf "help".toList 4 = 0 then .help
  else if strncasecmp buf "counters".toList 8 = 0 then .counters
  else if strncasecmp buf "timers".toList 6 = 0 then .timers
  else if strncasecmp buf "stats".toList 5 = 0 then .stats
  else if strncasecmp buf "quit".toList 4 = 0 then .quit
  else .badCommand

/-! ## Replies -/

/-- `STREAM_SEND_INT`, `STREAM_SEND_LONG`, `STREAM_SEND_DOUBLE` and
`STREAM_SEND_LONG_DOUBLE`, of a number with this text. -/
def streamSendNumber (text : CString) : Except MgmtFault CString :=
  if text.length < 32 then .ok text else .error .numberOverflow

/-- `MGMT_END`, which ends a listing. -/
def mgmtEnd : CString := "END\n\n".toList

/-- `MGMT_PROMPT`, in friendly mode. -/
def mgmtPrompt (friendly : Bool) : CString := if friendly then "statsd> ".toList else []

/-- A counter in the listing, with its number formatted into the buffer of the macro. -/
def counterLine (s : StatsdCounter Num) : Except MgmtFault CString := do
  let value ← streamSendNumber (printLf s.value)
  return s.key ++ ": ".toList ++ value ++ ['\n']

/-- The loop over the values of a timer: the flag is cleared where the comma is sent. -/
def timerValues : Bool → List Num → Except MgmtFault CString
  | _, [] => .ok []
  | first, j :: js => do
    let value ← streamSendNumber (printLf j)
    let values ← timerValues false js
    return (if first then [','] else []) ++ value ++ values

/-- What follows the count of a timer: its samples in brackets, and nothing where the count is 0. -/
def timerList (s : StatsdTimer Num) : Except MgmtFault CString :=
  if 0 < s.count then do
    let values ← timerValues true s.values
    return " [".toList ++ values ++ [']']
  else
    .ok []

/-- A timer in the listing: its key, its count and its samples. -/
def timerLine (s : StatsdTimer Num) : Except MgmtFault CString := do
  let count ← streamSendNumber (printD s.count)
  let list ← timerList s
  return s.key ++ ": ".toList ++ count ++ list ++ ['\n']

/-- A stat in the listing.  A group of one byte is left out, as the test on its length has it. -/
def statLine (s : StatsdStat) : Except MgmtFault CString := do
  let value ← streamSendNumber (printD s.value)
  let group := if 1 < s.name.groupName.length then s.name.groupName ++ ['.'] else []
  return group ++ s.name.keyName ++ ": ".toList ++ value ++ ['\n']

/-- A listing of a table, line by line up to the first number that does not fit. -/
def listing {ε : Type} (line : ε → Except MgmtFault CString) (table : List ε) :
    Except MgmtFault CString := do
  let lines ← table.mapM line
  return lines.flatten ++ mgmtEnd

/-- What is sent for a command, from the tables as they are then. -/
def mgmtReply (friendly : Bool) (t : Tables Num) : MgmtCommand → Except MgmtFault CString
  | .help => .ok ("Commands: stats, counters, timers, quit\n\n".toList ++ mgmtPrompt friendly)
  | .counters => do return (← listing counterLine t.counters) ++ mgmtPrompt friendly
  | .timers => do return (← listing timerLine t.timers) ++ mgmtPrompt friendly
  | .stats => do return (← listing statLine t.stats) ++ mgmtPrompt friendly
  | .quit => .ok []
  | .badCommand => .ok ("ERROR\n".toList ++ mgmtPrompt friendly)

/-! ## The loop -/

/-- What one `recv` delivers: at least one byte, and at most as many as the buffer has. -/
structure MgmtMessage where
  bytes : List Char
  ne_nil : bytes ≠ []
  length_le : bytes.length ≤ mgmtBufLen

/-- What `select` reports, and what the call on that socket finds.  One event is handled to its end
before the next. -/
inductive MgmtEvent where
  /-- A client is accepted on socket `fd`. -/
  | connect (fd : Nat)
  | acceptFails
  /-- `recv` returns 0 or -1. -/
  | hangup (fd : Nat)
  | message (fd : Nat) (m : MgmtMessage)

/-- The variables of the thread and what it has sent: the shared buffer, the sockets of
the clients in `master`, and what has gone out on each socket. -/
structure MgmtState where
  buf : Buffer
  master : List Nat
  sent : Nat → CString

namespace MgmtState

/-- A text sent to a socket, behind what was sent to it before. -/
def send (s : MgmtState) (fd : Nat) (text : CString) : MgmtState :=
  { s with sent := fun i => if i = fd then s.sent i ++ text else s.sent i }

/-- `close` and `FD_CLR`: the socket is no longer in the set that `select` watches. -/
def close (s : MgmtState) (fd : Nat) : MgmtState :=
  { s with master := s.master.filter (· ≠ fd) }

/-- The buffer once `recv` has put a message into it.  Behind the message, it is as before. -/
def received (s : MgmtState) (m : MgmtMessage) : Buffer := write s.buf 0 m.bytes

/-- The action that is taken for a message, which depends on the whole buffer. -/
def action (s : MgmtState) (m : MgmtMessage) : MgmtCommand := mgmtCommand (s.received m)

/-- One event, with the tables as they are then.  A reply that cannot be formatted ends the process.
-/
def step (friendly : Bool) (s : MgmtState) (e : Tables Num × MgmtEvent) :
    Except MgmtFault MgmtState :=
  match e.2 with
  | .connect fd => .ok ({ s with master := fd :: s.master }.send fd (mgmtPrompt friendly))
  | .acceptFails => .ok s
  | .hangup fd => .ok (s.close fd)
  | .message fd m =>
    -- a socket that is not in `master` is not reported
    if fd ∈ s.master then do
      let reply ← mgmtReply friendly e.1 (s.action m)
      let s' := { s with buf := s.received m }.send fd reply
      return if s.action m = .quit then s'.close fd else s'
    else
      .ok s

/-- The events of a history, in order, from a buffer that nothing was received into. -/
def serve (friendly : Bool) (buf : Buffer) (events : List (Tables Num × MgmtEvent)) :
    Except MgmtFault MgmtState :=
  events.foldlM (step friendly) ⟨buf, [], fun _ => []⟩

end MgmtState

/-- **The action for a message is fixed**: it is the same after all histories, of any
clients, at whose end the client that sends it is connected. -/
def ActionFixed (friendly : Bool) (buf : Buffer) (m : MgmtMessage) : Prop :=
  ∀ events events' s s' fd fd', MgmtState.serve friendly buf events = .ok s →
    MgmtState.serve friendly buf events' = .ok s' → fd ∈ s.master → fd' ∈ s'.master →
    s.action m = s'.action m

/-! ## Matching words -/

/-- The words that commands are matched against. -/
def commandWords : List CString :=
  ["help".toList, "counters".toList, "timers".toList, "stats".toList, "quit".toList]

/-- A message that is the beginning of a command, but not all of it, in any case. -/
def CommandBeginning (m : MgmtMessage) : Prop :=
  ∃ w ∈ commandWords, m.bytes.map Char.toLower <+: w ∧ m.bytes.length < w.length

/-- A word in lower case is matched exactly by the texts that begin with it, in any
case. -/
theorem strncasecmp_eq_zero_iff {w : CString} (hw : ∀ c ∈ w, c.toLower = c ∧ c ≠ nul)
    (s : List Char) : strncasecmp s w w.length = 0 ↔ w <+: s.map Char.toLower := by
  induction w generalizing s with
  | nil => simp [strncasecmp]
  | cons c w ih =>
    obtain ⟨hlower, hne⟩ := hw c (List.mem_cons_self ..)
    have hrest := ih (fun a ha => hw a (List.mem_cons_of_mem _ ha)) s.tail
    have hdiffer : ∀ {a b : Char}, a ≠ b → ¬ (a.toNat : Int) - b.toNat = 0 := by
      intro a b hab hzero
      exact hab (Char.toNat_inj.mp (by omega))
    rw [List.length_cons, strncasecmp]
    simp only [List.headD_cons, List.tail_cons, hlower]
    cases s with
    | nil =>
      have hnul : nul.toLower ≠ c := by
        rw [show nul.toLower = nul from by decide]
        exact hne.symm
      rw [List.headD_nil, if_pos hnul]
      exact iff_of_false (hdiffer hnul) (by simp)
    | cons a s =>
      rw [List.headD_cons, List.map_cons, List.cons_prefix_cons]
      by_cases ha : a.toLower = c
      · rw [if_neg (not_not_intro ha), if_neg (ha ▸ hne), hrest]
        simp [ha]
      · rw [if_pos ha]
        exact iff_of_false (hdiffer ha) fun h => ha h.1.symm

/-- What the words are like: in lower case, none the beginning of another, and without
an `x`. -/
theorem commandWords_spec : ∀ w ∈ commandWords,
    (∀ c ∈ w, c.toLower = c ∧ c ≠ nul) ∧ (∀ w' ∈ commandWords, w' <+: w → w' = w) ∧ 'x' ∉ w := by
  have hlower : ∀ w ∈ commandWords, w.map Char.toLower = w.map id := by decide
  have hnul : ∀ w ∈ commandWords, nul ∉ w := by decide
  have hincomparable : ∀ w ∈ commandWords, ∀ w' ∈ commandWords, w' <+: w → w' = w := by decide
  have hx : ∀ w ∈ commandWords, 'x' ∉ w := by decide
  intro w hw
  refine ⟨fun c hc => ⟨List.map_inj_left.mp (hlower w hw) c hc, fun heq => ?_⟩,
    hincomparable w hw, hx w hw⟩
  exact hnul w hw (heq ▸ hc)

/-- The action for a buffer depends on the words it begins with. -/
theorem mgmtCommand_eq (buf : Buffer) :
    mgmtCommand buf =
      if "help".toList <+: buf.map Char.toLower then .help
      else if "counters".toList <+: buf.map Char.toLower then .counters
      else if "timers".toList <+: buf.map Char.toLower then .timers
      else if "stats".toList <+: buf.map Char.toLower then .stats
      else if "quit".toList <+: buf.map Char.toLower then .quit
      else .badCommand := by
  have hmatch : ∀ w ∈ commandWords,
      (strncasecmp buf w w.length = 0 ↔ w <+: buf.map Char.toLower) :=
    fun w hw => strncasecmp_eq_zero_iff (commandWords_spec w hw).1 buf
  have hhelp := hmatch "help".toList (by decide)
  have hcounters := hmatch "counters".toList (by decide)
  have htimers := hmatch "timers".toList (by decide)
  have hstats := hmatch "stats".toList (by decide)
  have hquit := hmatch "quit".toList (by decide)
  unfold mgmtCommand
  simp only [← hhelp, ← hcounters, ← htimers, ← hstats, ← hquit]
  rfl

/-- Buffers that begin with the same words are treated alike, whatever else is in them. -/
theorem mgmtCommand_congr {buf buf' : Buffer}
    (h : ∀ w ∈ commandWords, (w <+: buf.map Char.toLower ↔ w <+: buf'.map Char.toLower)) :
    mgmtCommand buf = mgmtCommand buf' := by
  simp only [commandWords, List.forall_mem_cons] at h
  simp only [mgmtCommand_eq, h]

theorem mgmtCommand_eq_badCommand_iff (buf : Buffer) :
    mgmtCommand buf = .badCommand ↔ ∀ w ∈ commandWords, ¬ w <+: buf.map Char.toLower := by
  rw [mgmtCommand_eq]
  simp only [commandWords, List.forall_mem_cons]
  constructor
  · intro h
    split_ifs at h
    simp_all
  · rintro ⟨h₁, h₂, h₃, h₄, h₅, -⟩
    rw [if_neg h₁, if_neg h₂, if_neg h₃, if_neg h₄, if_neg h₅]

/-! ## What a message leaves open -/

/-- The buffer after a message: its bytes, and behind them what was there. -/
theorem MgmtState.received_eq (s : MgmtState) (m : MgmtMessage) :
    s.received m = m.bytes ++ s.buf.drop m.bytes.length := by
  rw [received, write, List.take_zero, List.nil_append, Nat.zero_add]

/-- A message that is no beginning of a word decides what the buffer begins with. -/
theorem prefix_received_iff {m : MgmtMessage} (h : ¬ CommandBeginning m) {w : CString}
    (hw : w ∈ commandWords) (s : MgmtState) :
    w <+: (s.received m).map Char.toLower ↔ w <+: m.bytes.map Char.toLower := by
  rw [s.received_eq, List.map_append]
  constructor
  · intro hprefix
    rcases List.prefix_or_prefix_of_prefix hprefix (List.prefix_append _ _) with hword | hmessage
    · exact hword
    · -- the message is the beginning of the word, so it is all of it
      have hlen : w.length ≤ m.bytes.length := by
        by_contra hlt
        exact h ⟨w, hw, hmessage, by omega⟩
      have hle := hmessage.length_le
      rw [List.length_map] at hle
      have heq : m.bytes.map Char.toLower = w :=
        hmessage.eq_of_length (by rw [List.length_map]; omega)
      rw [heq]
  · intro hprefix
    exact hprefix.trans (List.prefix_append _ _)

/-- What is listed of empty tables, for any command and without a fault. -/
theorem mgmtReply_empty (friendly : Bool) (c : MgmtCommand) :
    ∃ reply, mgmtReply friendly .empty c = .ok reply := by
  cases c <;> exact ⟨_, rfl⟩

/-- A client connects and sends a message, and another client connects. -/
def oneMessage (m : MgmtMessage) : List (Tables Num × MgmtEvent) :=
  [(.empty, .connect 4), (.empty, .message 4 m), (.empty, .connect 5)]

/-- A message on a socket that is open leaves its bytes in the buffer, and the other
sockets open. -/
theorem step_message {friendly : Bool} {s : MgmtState} {fd : Nat} {m : MgmtMessage}
    (hfd : fd ∈ s.master) :
    ∃ s', MgmtState.step friendly s (.empty, .message fd m) = .ok s' ∧ s'.buf = s.received m := by
  obtain ⟨reply, hreply⟩ := mgmtReply_empty friendly (s.action m)
  simp only [MgmtState.step, if_pos hfd, hreply]
  by_cases hquit : s.action m = .quit
  · exact ⟨_, rfl, by rw [if_pos hquit]; rfl⟩
  · exact ⟨_, rfl, by rw [if_neg hquit]; rfl⟩

/-- The second client is then connected, and the message is in the buffer. -/
theorem serve_oneMessage (friendly : Bool) (buf : Buffer) (m : MgmtMessage) :
    ∃ s, MgmtState.serve friendly buf (oneMessage m) = .ok s ∧ 5 ∈ s.master ∧
      s.buf = write buf 0 m.bytes := by
  let connected := ({ buf, master := [4], sent := fun _ => [] } : MgmtState).send 4
    (mgmtPrompt friendly)
  have hconnected : 4 ∈ connected.master := List.mem_singleton.mpr rfl
  obtain ⟨s, hs, hbuf⟩ := @step_message friendly connected 4 m hconnected
  refine ⟨({ s with master := 5 :: s.master }).send 5 (mgmtPrompt friendly), ?_,
    List.mem_cons_self .., hbuf⟩
  show (MgmtState.step friendly _ (.empty, .message 4 m) >>= fun s =>
    List.foldlM (MgmtState.step friendly) s [(.empty, .connect 5)]) = _
  rw [hs]
  rfl

/-- A command, as a message. -/
def wordMessage (w : CString) (hw : w ∈ commandWords) : MgmtMessage where
  bytes := w
  ne_nil := by
    rintro rfl
    exact absurd hw (by decide)
  length_le := by
    have hall : ∀ w ∈ commandWords, w.length ≤ mgmtBufLen := by decide
    exact hall w hw

/-- A message of as many `x` as the longest word has bytes. -/
def noiseMessage : MgmtMessage := ⟨List.replicate 8 'x', by decide, by decide⟩

/-- Behind the word it is the beginning of, a message is taken for a command. -/
theorem action_after_word {m : MgmtMessage} {w : CString} (hw : w ∈ commandWords)
    (hstart : m.bytes.map Char.toLower <+: w) {s : MgmtState} {buf : Buffer}
    (hbuf : s.buf = write buf 0 w) : s.action m ≠ .badCommand := by
  intro hbad
  refine (mgmtCommand_eq_badCommand_iff _).mp hbad w hw ?_
  have hlower : w.map Char.toLower = w := by
    have hall := (commandWords_spec w hw).1
    exact (List.map_congr_left fun c hc => (hall c hc).1).trans (List.map_id w)
  have hlen := hstart.length_le
  rw [List.length_map] at hlen
  -- the message and what it left of the word
  have hfront : (m.bytes ++ w.drop m.bytes.length).map Char.toLower = w := by
    obtain ⟨rest, hrest⟩ := hstart
    have hdrop : w.drop m.bytes.length = rest := by
      rw [← hrest, List.drop_append_of_le_length (by rw [List.length_map]),
        List.drop_of_length_le (by rw [List.length_map]), List.nil_append]
    rw [List.map_append, List.map_drop, hlower, hdrop, hrest]
  rw [s.received_eq, hbuf, write, List.take_zero, List.nil_append,
    List.drop_append_of_le_length hlen, ← List.append_assoc, List.map_append, hfront]
  exact List.prefix_append _ _

/-- Behind noise, a message that is shorter than a word is none. -/
theorem action_after_noise {m : MgmtMessage} (h : CommandBeginning m) {s : MgmtState}
    {buf : Buffer} (hbuf : s.buf = write buf 0 noiseMessage.bytes) :
    s.action m = .badCommand := by
  obtain ⟨w, hw, hprefix, hshort⟩ := h
  have hlong : ∀ w ∈ commandWords, w.length ≤ 8 := by decide
  have hle := hlong w hw
  -- an `x` follows the message
  obtain ⟨k, hk⟩ : ∃ k, 8 - m.bytes.length = k + 1 := ⟨7 - m.bytes.length, by omega⟩
  have hnext : ∃ rest, (s.received m).map Char.toLower =
      (m.bytes.map Char.toLower ++ ['x']) ++ rest := by
    rw [s.received_eq, hbuf, write, List.take_zero, List.nil_append,
      show noiseMessage.bytes = List.replicate 8 'x' from rfl,
      List.drop_append_of_le_length (by rw [List.length_replicate]; omega), List.drop_replicate, hk,
      List.replicate_succ, List.map_append, List.cons_append, List.map_cons]
    exact ⟨_, (List.append_assoc _ ['x'] _).symm⟩
  obtain ⟨rest, hrest⟩ := hnext
  refine (mgmtCommand_eq_badCommand_iff _).mpr fun w' hw' hword => ?_
  obtain ⟨_, hincomparable, _⟩ := commandWords_spec w hw
  obtain ⟨_, _, hx⟩ := commandWords_spec w' hw'
  rw [hrest] at hword
  rcases List.prefix_or_prefix_of_prefix hword (List.prefix_append _ rest) with hfront | hback
  · rcases List.prefix_concat_iff.mp hfront with heq | hfront
    · exact hx (by rw [heq]; simp)
    · have heq := hincomparable w' hw' (hfront.trans hprefix)
      have hle' := hfront.length_le
      rw [heq, List.length_map] at hle'
      omega
  · exact hx (hback.subset (by simp))

/-- What the beginning of a command leaves open is read off the messages before it. -/
theorem not_actionFixed {m : MgmtMessage} (h : CommandBeginning m) (friendly : Bool)
    (buf : Buffer) : ¬ ActionFixed friendly buf m := by
  intro hfixed
  obtain ⟨w, hw, hprefix, _⟩ := id h
  obtain ⟨s, hserve, hfd, hbuf⟩ := serve_oneMessage friendly buf (wordMessage w hw)
  obtain ⟨s', hserve', hfd', hbuf'⟩ := serve_oneMessage friendly buf noiseMessage
  have hsame := hfixed _ _ s s' 5 5 hserve hserve' hfd hfd'
  rw [action_after_noise h hbuf'] at hsame
  exact action_after_word hw hprefix hbuf hsame

/-- **The action for a message is fixed** exactly if the message is not the beginning of
a command. -/
theorem actionFixed_iff (friendly : Bool) (buf : Buffer) (m : MgmtMessage) :
    ActionFixed friendly buf m ↔ ¬ CommandBeginning m := by
  constructor
  · intro hfixed hbeginning
    exact not_actionFixed hbeginning friendly buf hfixed
  · intro hnot _ _ s s' _ _ _ _ _ _
    refine mgmtCommand_congr fun w hw => ?_
    rw [prefix_received_iff hnot hw, prefix_received_iff hnot hw]

/-- The message `c`. -/
def oneLetter : MgmtMessage := ⟨"c".toList, by decide, by decide⟩

/-- **One letter is taken for a command** if another client has sent that command before,
and for none if it has sent something else. -/
theorem oneLetter_not_fixed : ¬ ActionFixed false (List.replicate mgmtBufLen nul) oneLetter :=
  not_actionFixed ⟨"counters".toList, by decide, by decide, by decide⟩ _ _

end StatsdC
