import StatsdC.Printbuf

/-!
# The loops of the tokener

`json_tokener_parse_ex` does not take a round of its `switch` for each byte: white space, comments,
strings, numbers and the digits of `\u` have loops of their own, which gather a run of bytes and
append it to the print buffer at once.  Here are these loops, on the pointer into the text and the
buffer in memory.  The tokener with its buffer is `JsonTokenerEx`; a `Round` is the outcome of one
round, which goes on with the next byte, or with the same one, or leaves the loop.

They agree with the tokener that takes the bytes one at a time (`JsonTokener.run`): the same value,
or the same error, for every text (`jsonTokenerParseEx_eq`), and no access to the buffer is outside
its block or reads what was never written.  The view of a tokener with a buffer is the other tokener
with the text that the buffer holds (`JsonTokenerEx.view`), and the theorem follows from one lemma
for each state: a round here is a number of rounds there, over the bytes of the run
(`JsonTokenerEx.Simulates`).

A token is never longer than what has been read of the text (`budget`), so that its length is no
overflow either.  With its NUL the text may have fewer than `2 ^ 30` bytes, and this bound is that
of the print buffer, whose size is doubled as an `int`.  Texts are given whole; a length other than
-1 and the continuation of a text in a later call are not modelled, since no caller uses them.
-/

namespace StatsdC
open CString GrowableBlock

/-- `struct json_tokener` with its buffer, and the local variable `obj`.  The buffer holds a whole
run at a time. -/
structure JsonTokenerEx where
  pb : Printbuf
  isDouble : Bool
  stPos : Nat
  ucsChar : UInt32
  quoteChar : Char
  obj : Json
  top : JsonTokenerSrec
  below : List SuspendedSrec

namespace JsonTokenerEx

/-- `json_tokener_new`, with an empty print buffer and one level on the stack. -/
def new : JsonTokenerEx := ⟨.new, false, 0, 0, nul, .null, .reset, []⟩

/-- How a case of the `switch` ends, and where `str` points to then. -/
inductive Round where
  /-- `break`. -/
  | brk (tok : JsonTokenerEx) (str : CString)
  /-- `goto redo_char`. -/
  | redo (tok : JsonTokenerEx) (str : CString)
  /-- `goto out`, with the byte in `c`. -/
  | out (tok : JsonTokenerEx) (c : Char) (err : Option JsonTokenerError)

/-- `state = s`. -/
def goto (tok : JsonTokenerEx) (s : JsonTokenerState) : JsonTokenerEx :=
  { tok with top := tok.top.goto s }

/-- The top level with its value complete. -/
def finishWith (tok : JsonTokenerEx) (current : Json) : JsonTokenerEx :=
  { tok with top := tok.top.finishWith current }

/-- `saved_state = s; state = json_tokener_state_eatws`. -/
def eatwsThen (tok : JsonTokenerEx) (s : JsonTokenerState) (hs : s ≠ .eatws := by nofun) :
    JsonTokenerEx :=
  { tok with top := tok.top.eatwsThen s hs }

/-- `printbuf_memappend_fast(tok->pb, ...)`, with the whole run at once.  `none` is an access
outside the block. -/
def append (tok : JsonTokenerEx) (bytes : CString) : Option JsonTokenerEx := do
  let pb ← tok.pb.memappendFast bytes
  return { tok with pb }

/-- `printbuf_reset(tok->pb)`, which fails only without a block. -/
def resetPb (tok : JsonTokenerEx) : Option JsonTokenerEx := do
  let pb ← tok.pb.reset
  return { tok with pb }

/-- `json_tokener_state_eatws`: the run of white space is skipped by the pointer, and a slash begins
a comment. -/
def eatwsCase (tok : JsonTokenerEx) (str : CString) : Option Round := do
  let str := str.dropWhile isspace
  if str.headD nul = '/' then
    let tok ← tok.resetPb
    let tok ← tok.append ['/']
    return .brk (tok.goto .commentStart) str
  else
    return .redo (tok.goto tok.top.savedState) str

/-! What a level may add. -/

theorem arrayAdd_adds :
    JsonTokenerState.arrayAdd = .arrayAdd ∨ JsonTokenerState.arrayAdd = .objectValueAdd := .inl rfl

theorem objectValueAdd_adds :
    JsonTokenerState.objectValueAdd = .arrayAdd ∨
      JsonTokenerState.objectValueAdd = .objectValueAdd := .inr rfl

/-- `json_tokener_state_start`, which looks at the first byte of a value and consumes a bracket or a
quote. -/
def startCase (tok : JsonTokenerEx) (str : CString) : Option Round :=
  let c := str.headD nul
  if c = '{' then
    some (.brk { tok with
      top := { tok.top.eatwsThen .objectFieldStart nofun with
        current := .object [] } } str)
  else if c = '[' then
    some (.brk { tok with
      top := { tok.top.eatwsThen .array nofun with current := .array [] } } str)
  else if c = 'N' ∨ c = 'n' then do
    let tok ← tok.resetPb
    return .redo { tok.goto .null with stPos := 0 } str
  else if c = '"' ∨ c = '\x27' then do
    let tok ← tok.resetPb
    return .brk { tok.goto .string with quoteChar := c } str
  else if c = 'T' ∨ c = 't' ∨ c = 'F' ∨ c = 'f' then do
    let tok ← tok.resetPb
    return .redo { tok.goto .boolean with stPos := 0 } str
  else if c.isDigit ∨ c = '-' then do
    let tok ← tok.resetPb
    return .redo { tok.goto .number with isDouble := false } str
  else
    some (.out tok c (some .parseUnexpected))

/-- `json_tokener_state_finish`: the loop ends at the outermost level, and any other hands its value
down. -/
def finishCase (tok : JsonTokenerEx) (str : CString) : Round :=
  match tok.below with
  | [] => .out tok (str.headD nul) none
  | r :: below => .redo { tok with obj := tok.top.current, top := r.srec, below } str

/-- `json_tokener_state_null`, one byte at a time, compared with the text collected so far. -/
def nullCase (tok : JsonTokenerEx) (str : CString) : Option Round := do
  let c := str.headD nul
  let tok ← tok.append [c]
  let buf ← tok.pb.text
  return if wordMatches "null".toList buf tok.stPos then
    if tok.stPos = 4 then .redo (tok.finishWith .null) str
    else .brk { tok with stPos := tok.stPos + 1 } str
  else
    .out tok c (some .parseNull)

/-- `json_tokener_state_comment_start`, behind the first slash of what may be a comment. -/
def commentStartCase (tok : JsonTokenerEx) (str : CString) : Option Round :=
  let c := str.headD nul
  if c = '*' then do
    let tok ← (tok.goto .comment).append [c]
    return .brk tok str
  else if c = '/' then do
    let tok ← (tok.goto .commentEol).append [c]
    return .brk tok str
  else
    some (.out tok c (some .parseComment))

/-- `json_tokener_state_comment`: the run up to the next star is appended at once. -/
def commentCase (tok : JsonTokenerEx) (str : CString) : Option Round :=
  let run := str.takeWhile (· != '*')
  match str.dropWhile (· != '*') with
  | [] => do
    -- the pointer has gone past the NUL
    let tok ← tok.append (run ++ [nul])
    return .out tok nul none
  | str => do
    let tok ← tok.append (run ++ ['*'])
    return .brk (tok.goto .commentEnd) str

/-- `json_tokener_state_comment_eol`: the run up to the end of the line is appended at once. -/
def commentEolCase (tok : JsonTokenerEx) (str : CString) : Option Round :=
  let run := str.takeWhile (· != '\n')
  match str.dropWhile (· != '\n') with
  | [] => do
    let tok ← tok.append (run ++ [nul])
    return .out tok nul none
  | str => do
    let tok ← tok.append run
    return .brk (tok.goto .eatws) str

/-- `json_tokener_state_comment_end`, behind a star that may end the comment. -/
def commentEndCase (tok : JsonTokenerEx) (str : CString) : Option Round := do
  let c := str.headD nul
  let tok ← tok.append [c]
  return .brk (tok.goto (if c = '/' then .eatws else .comment)) str

/-- `json_tokener_state_string` and `json_tokener_state_object_field`, up to what is
done with the text at its end. -/
def quotedCase (tok : JsonTokenerEx) (str : CString) (self : JsonTokenerState)
    (hself : self ≠ .eatws) (close : JsonTokenerEx → CString → JsonTokenerEx) : Option Round :=
  let run := str.takeWhile fun c => c != tok.quoteChar && c != '\\'
  let str := str.dropWhile fun c => c != tok.quoteChar && c != '\\'
  let c := str.headD nul
  if c = tok.quoteChar then do
    let tok ← tok.append run
    let buf ← tok.pb.text
    return .brk (close tok buf) str
  else if c = '\\' then do
    let tok ← tok.append run
    let top := { tok.top.goto .stringEscape with savedState := self, savedState_ne := hself }
    return .brk { tok with top } str
  else do
    let tok ← tok.append (run ++ [nul])
    return .out tok nul none

/-- `json_tokener_state_string_escape`, the byte behind a backslash. -/
def stringEscapeCase (tok : JsonTokenerEx) (str : CString) : Option Round :=
  let c := str.headD nul
  let append (c : Char) : Option Round := do
    let tok ← tok.append [c]
    return .brk (tok.goto tok.top.savedState) str
  if c = '"' ∨ c = '\\' ∨ c = '/' then append c
  else if c = 'b' then append '\x08'
  else if c = 'n' then append '\n'
  else if c = 'r' then append '\r'
  else if c = 't' then append '\t'
  else if c = 'u' then
    some (.brk { tok.goto .escapeUnicode with ucsChar := 0, stPos := 0 } str)
  else
    some (.out tok c (some .parseString))

/-- `json_tokener_state_escape_unicode`.  A NUL passes for a hex digit, as `strchr` finds it. -/
def escapeUnicodeCase (tok : JsonTokenerEx) (str : CString) : Option Round :=
  let c := str.headD nul
  if c ∈ jsonHexChars ∨ c = nul then
    let ucsChar := tok.ucsChar + hexdigit c <<< UInt32.ofNat ((3 - tok.stPos) * 4)
    let stPos := tok.stPos + 1
    if stPos = 4 then do
      let tok ← { tok with ucsChar, stPos }.append (utfOut ucsChar)
      return .brk (tok.goto tok.top.savedState) str
    else
      match str with
      | [] => some (.out { tok with ucsChar, stPos } nul none)
      | _ :: str => escapeUnicodeCase { tok with ucsChar, stPos } str
  else
    some (.out tok c (some .parseString))

/-- `json_tokener_state_boolean`, one byte at a time as for the other word. -/
def booleanCase (tok : JsonTokenerEx) (str : CString) : Option Round := do
  let c := str.headD nul
  let tok ← tok.append [c]
  let buf ← tok.pb.text
  return if wordMatches "true".toList buf tok.stPos then
    if tok.stPos = 4 then .redo (tok.finishWith (.boolean true)) str
    else .brk { tok with stPos := tok.stPos + 1 } str
  else if wordMatches "false".toList buf tok.stPos then
    if tok.stPos = 5 then .redo (tok.finishWith (.boolean false)) str
    else .brk { tok with stPos := tok.stPos + 1 } str
  else
    .out tok c (some .parseBoolean)

/-- `json_tokener_state_number`: the run of a number's characters is appended at once and then
scanned. -/
def numberCase (tok : JsonTokenerEx) (str : CString) : Option Round := do
  let run := str.takeWhile (· ∈ jsonNumberChars)
  let str := str.dropWhile (· ∈ jsonNumberChars)
  let tok := { tok with isDouble := tok.isDouble || run.any fun c => c == '.' || c == 'e' }
  let tok ← (if run = [] then some tok else tok.append run)
  let buf ← tok.pb.text
  return if tok.isDouble then
    match sscanfLf buf with
    | some d => .redo (tok.finishWith (.double d)) str
    | none => .out tok (str.headD nul) (some .parseNumber)
  else
    match sscanfD buf with
    | some i => .redo (tok.finishWith (.int i)) str
    | none => .out tok (str.headD nul) (some .parseNumber)

/-- `tok->depth++; json_tokener_reset_level(tok, tok->depth)`, with the level left in the
state `s`. -/
def push (tok : JsonTokenerEx) (str : CString) (s : JsonTokenerState)
    (hs : s = .arrayAdd ∨ s = .objectValueAdd) : Round :=
  if tok.below.length + 1 < jsonTokenerMaxDepth then
    .redo { tok with top := .reset, below := ⟨tok.top.goto s, hs⟩ :: tok.below } str
  else
    .out tok (str.headD nul) (some .depth)

/-- One round of the `switch`, with the text from `str` on.  `none` is an access outside the buffer.
-/
def round (tok : JsonTokenerEx) (str : CString) : Option Round :=
  let c := str.headD nul
  match tok.top.state with
  | .eatws => tok.eatwsCase str
  | .start => tok.startCase str
  | .finish => some (tok.finishCase str)
  | .null => tok.nullCase str
  | .commentStart => tok.commentStartCase str
  | .comment => tok.commentCase str
  | .commentEol => tok.commentEolCase str
  | .commentEnd => tok.commentEndCase str
  | .string => tok.quotedCase str .string nofun fun tok s => tok.finishWith (.string s)
  | .stringEscape => tok.stringEscapeCase str
  | .escapeUnicode => tok.escapeUnicodeCase str
  | .boolean => tok.booleanCase str
  | .number => tok.numberCase str
  | .array =>
    if c = ']' then some (.brk (tok.eatwsThen .finish) str)
    else some (tok.push str .arrayAdd arrayAdd_adds)
  | .arrayAdd =>
    some (.redo { tok with
      top := { tok.top.eatwsThen .arraySep nofun with
        current := tok.top.current.arrayAdd tok.obj } } str)
  | .arraySep =>
    if c = ']' then some (.brk (tok.eatwsThen .finish) str)
    else if c = ',' then some (.brk (tok.eatwsThen .array) str)
    else some (.out tok c (some .parseArray))
  | .objectFieldStart =>
    if c = '}' then some (.brk (tok.eatwsThen .finish) str)
    else if c = '"' ∨ c = '\x27' then do
      let tok ← { tok with quoteChar := c }.resetPb
      return .brk (tok.goto .objectField) str
    else some (.out tok c (some .parseObjectKeyName))
  | .objectField =>
    tok.quotedCase str .objectField nofun fun tok s =>
      { tok with top :=
        { tok.top.eatwsThen .objectFieldEnd nofun with objFieldName := s } }
  | .objectFieldEnd =>
    if c = ':' then some (.brk (tok.eatwsThen .objectValue) str)
    else some (.out tok c (some .parseObjectKeySep))
  | .objectValue => some (tok.push str .objectValueAdd objectValueAdd_adds)
  | .objectValueAdd =>
    let current := tok.top.current.objectAdd tok.top.objFieldName tok.obj
    some (.redo { tok with
      top := { tok.top.eatwsThen .objectSep nofun with current, objFieldName := [] } } str)
  | .objectSep =>
    if c = '}' then some (.brk (tok.eatwsThen .finish) str)
    else if c = ',' then some (.brk (tok.eatwsThen .objectFieldStart) str)
    else some (.out tok c (some .parseObjectValueSep))

/-- Behind the loop, which the byte `c` ended: the same as for one byte at a time. -/
def leave (tok : JsonTokenerEx) (c : Char) (err : Option JsonTokenerError) :
    Except JsonTokenerError Json :=
  if c = nul ∧ tok.top.state ≠ .finish ∧ tok.top.savedState ≠ .finish then .error .parseEof
  else
    match err with
    | some e => .error e
    | none => .ok tok.top.current

/-- The main loop, at most `fuel` rounds of it, with the increment of `str` in between. -/
def parseLoop : Nat → JsonTokenerEx → CString → Option (Except JsonTokenerError Json)
  | 0, _, _ => some (.error .outOfFuel)
  | fuel + 1, tok, str => do
    match ← tok.round str with
    | .brk tok [] => return tok.leave nul none
    | .brk tok (_ :: str) => parseLoop fuel tok str
    | .redo tok str => parseLoop fuel tok str
    | .out tok c err => return tok.leave c err

end JsonTokenerEx

/-- `json_tokener_parse`, in memory, with more fuel than the loop needs. -/
def jsonTokenerParseEx (str : CString) : Option (Except JsonTokenerError Json) :=
  JsonTokenerEx.new.parseLoop (10 * (str.length + 1)) str

namespace JsonTokenerEx

/-! ## The text in the buffer -/

/-- The tokener that takes one byte at a time, with this text in its buffer and all other fields the
same. -/
def view (tok : JsonTokenerEx) (text : CString) : JsonTokener :=
  ⟨text, tok.isDouble, tok.stPos, tok.ucsChar, tok.quoteChar, tok.obj, tok.top, tok.below⟩

/-- In a state that appends to the buffer: how many of the bytes read since the start are
at least not in it.  The other states do not append before a reset. -/
def spare : JsonTokenerState → Option Nat
  | .null | .boolean | .number | .string | .objectField => some 0
  | .commentStart | .comment | .commentEol | .commentEnd => some 0
  | .stringEscape => some 1
  | .escapeUnicode => some 2
  | _ => none

/-- White space and comments: the states from which the saved one is taken up again. -/
def inSpace : JsonTokenerState → Bool
  | .eatws | .commentStart | .comment | .commentEol | .commentEnd => true
  | _ => false

/-- Behind the backslash of an escape, where the state of the string is the saved one. -/
def inEscape : JsonTokenerState → Bool
  | .stringEscape | .escapeUnicode => true
  | _ => false

/-- The states that a level returns to, behind white space and behind an escape. -/
structure Returns (r : JsonTokenerSrec) : Prop where
  space : inSpace r.state = true → spare r.savedState = none
  escape : inEscape r.state = true → r.savedState = .string ∨ r.savedState = .objectField

/-- The text is in the buffer, and with the rest `str` of all `total` bytes before it, no
longer than what has been read. -/
structure Sound (tok : JsonTokenerEx) (text str : CString) (total : Nat) : Prop where
  represents : tok.pb.Represents text (total + 1)
  nul_notMem : nul ∉ str
  length_le : str.length ≤ total
  spare_le : ∀ k ∈ spare tok.top.state, text.length + str.length + k ≤ total
  returns : Returns tok.top
  number : tok.top.state = .number → text = [] ∧ tok.pb.Terminated []

/-- A round ends as the tokener that takes one byte at a time would go on: it has the same
result from there, and less to do than `n`. -/
inductive Agrees (total n : Nat) (result : Except JsonTokenerError Json) : Round → Prop where
  | out {tok c err} (h : tok.leave c err = result) : Agrees total n result (.out tok c err)
  | brkNil {tok} (h : tok.leave nul none = result) : Agrees total n result (.brk tok [])
  | brkCons {tok c str text} (hs : Sound tok text str total) (h : (tok.view text).run str = result)
      (hn : 10 * str.length + (tok.view text).rank < n) :
      Agrees total n result (.brk tok (c :: str))
  | redo {tok str text} (hs : Sound tok text str total) (h : (tok.view text).run str = result)
      (hn : 10 * str.length + (tok.view text).rank < n) : Agrees total n result (.redo tok str)

variable {tok tok' : JsonTokenerEx} {text text' str rest bytes : CString} {total n m : Nat}
variable {result : Except JsonTokenerError Json} {r : Round}

/-- How much is left to do: the bytes to come, and the rounds on the present one. -/
def workLeft (tok : JsonTokenerEx) (text str : CString) : Nat :=
  10 * str.length + (tok.view text).rank

theorem Agrees.mono (h : Agrees total n result r) (hnm : n ≤ m) : Agrees total m result r := by
  cases h with
  | out h => exact .out h
  | brkNil h => exact .brkNil h
  | brkCons hs h hn => exact .brkCons hs h (by omega)
  | redo hs h hn => exact .redo hs h (by omega)

/-- A round that consumes its byte does what one step of the other tokener does. -/
theorem agrees_brk (text' : CString)
    (h : (tok.view text).step (str.headD nul) = .advance (tok'.view text'))
    (hs : ∀ c rest, str = c :: rest → Sound tok' text' rest total) :
    Agrees total (workLeft tok text str) ((tok.view text).run str) (.brk tok' str) := by
  cases str with
  | nil =>
    refine .brkNil ?_
    rw [List.headD_nil] at h
    rw [JsonTokener.run, JsonTokener.feed_eq, h]
    rfl
  | cons c rest =>
    refine .brkCons (hs c rest rfl) (JsonTokener.run_advance h).symm ?_
    have hrank := (tok'.view text').rank_lt
    simp only [workLeft, List.length_cons]
    omega

/-- A round that hands its byte back does what one step of the other tokener does, and leaves less
to do. -/
theorem agrees_redo (text' : CString)
    (h : (tok.view text).step (str.headD nul) = .redo (tok'.view text'))
    (hs : Sound tok' text' str total) :
    Agrees total (workLeft tok text str) ((tok.view text).run str) (.redo tok' str) :=
  .redo hs (JsonTokener.run_redo h).symm
    (Nat.add_lt_add_left (JsonTokener.rank_lt_of_step_redo h) _)

/-- A round that leaves the loop does so with the same error. -/
theorem agrees_out (tok' : JsonTokenerEx) (text' : CString) {err : Option JsonTokenerError}
    (h : (tok.view text).step (str.headD nul) = .out (tok'.view text') err) :
    Agrees total (workLeft tok text str) ((tok.view text).run str)
      (.out tok' (str.headD nul) err) := by
  refine .out ?_
  cases str with
  | nil =>
    rw [List.headD_nil] at h ⊢
    rw [JsonTokener.run, JsonTokener.feed_eq, h]
    rfl
  | cons c rest =>
    rw [List.headD_cons] at h ⊢
    rw [JsonTokener.run, JsonTokener.feed_eq, h]
    rfl

/-! ## The buffer -/

theorem append_eq (tok : JsonTokenerEx) (bytes : CString)
    (h : tok.pb.Represents text (total + 1)) (htotal : total + 1 < 2 ^ 30)
    (hlen : text.length + bytes.length ≤ total + 1) :
    ∃ pb, tok.append bytes = some { tok with pb } ∧ pb.Represents (text ++ bytes) (total + 1) ∧
      pb.Terminated (text ++ bytes) := by
  obtain ⟨pb, hpb, hrep, hterm⟩ := Printbuf.memappend_eq h htotal hlen
  refine ⟨pb, ?_, hrep, hterm⟩
  rw [append, Printbuf.memappendFast_eq_memappend, hpb]
  rfl

theorem resetPb_eq (h : tok.pb.Represents text (total + 1)) :
    ∃ pb, tok.resetPb = some { tok with pb } ∧ pb.Represents [] (total + 1) ∧
      pb.Terminated [] := by
  obtain ⟨pb, hpb, hrep, hterm⟩ := Printbuf.reset_eq h
  refine ⟨pb, ?_, hrep, hterm⟩
  rw [resetPb, hpb]
  rfl

/-! ## Runs of bytes -/

theorem goto_self {r : JsonTokenerSrec} {s : JsonTokenerState} (h : r.state = s) :
    r.goto s = r := by
  subst h
  rfl

/-- Bytes that a state only appends leave the other tokener in it, with all of them collected. -/
theorem run_gather {q : Char → Bool}
    (h : ∀ pb c, q c = true → (tok.view pb).step c = .advance (tok.view (pb ++ [c])))
    (text str : CString) : (tok.view text).run str =
      (tok.view (text ++ str.takeWhile q)).run (str.dropWhile q) := by
  induction str generalizing text with
  | nil => rw [List.takeWhile_nil, List.append_nil, List.dropWhile_nil]
  | cons c str ih =>
    cases hc : q c with
    | true =>
      rw [JsonTokener.run_advance (h text c hc), ih, List.takeWhile_cons_of_pos hc,
        List.dropWhile_cons_of_pos hc, List.append_assoc, List.singleton_append]
    | false =>
      have hc' : ¬ q c = true := by rw [hc]; exact Bool.false_ne_true
      rw [List.takeWhile_cons_of_neg hc', List.dropWhile_cons_of_neg hc', List.append_nil]

/-- The first byte behind the run of those that satisfy `q`. -/
theorem headD_dropWhile (q : Char → Bool) (str : CString) (hne : str.dropWhile q ≠ []) :
    q ((str.dropWhile q).headD nul) = false := by
  cases hdrop : str.dropWhile q with
  | nil => exact absurd hdrop hne
  | cons c rest =>
    have hc := List.head_dropWhile_not q hne
    simp only [hdrop, List.head_cons] at hc
    rwa [List.headD_cons]

/-! ## The states that the rounds leave behind -/

/-- A state that does not append before a reset. -/
theorem Sound.quiet (h : Sound tok text str total) (hrest : rest <:+ str)
    (hpb : tok'.pb.Represents text' (total + 1)) (hstate : spare tok'.top.state = none)
    (hsaved : tok'.top.state = .eatws → spare tok'.top.savedState = none) :
    Sound tok' text' rest total where
  represents := hpb
  nul_notMem hm := h.nul_notMem (hrest.mem hm)
  length_le := hrest.length_le.trans h.length_le
  spare_le k hk := by
    rw [hstate] at hk
    cases hk
  returns := by
    refine ⟨fun hspace => ?_, fun hescape => ?_⟩
    · cases hs : tok'.top.state <;> rw [hs] at hspace hstate <;> first | exact hsaved hs | trivial
    · cases hs : tok'.top.state <;> rw [hs] at hescape hstate <;> trivial
  number hn := by
    rw [hn] at hstate
    cases hstate

/-- A state that appends, with room in the buffer for what it has left to append. -/
theorem Sound.appending (h : Sound tok text str total) (hrest : rest <:+ str)
    (hpb : tok'.pb.Represents text' (total + 1)) {k : Nat} (hstate : spare tok'.top.state = some k)
    (hlen : text'.length + rest.length + k ≤ total) (hreturns : Returns tok'.top)
    (hnumber : tok'.top.state = .number → text' = [] ∧ tok'.pb.Terminated []) :
    Sound tok' text' rest total where
  represents := hpb
  nul_notMem hm := h.nul_notMem (hrest.mem hm)
  length_le := hrest.length_le.trans h.length_le
  spare_le j hj := by
    rw [hstate] at hj
    cases hj
    exact hlen
  returns := hreturns
  number := hnumber

/-- A state inside a token, but not inside an escape. -/
theorem returns_of_token {r : JsonTokenerSrec} (hspace : inSpace r.state = false)
    (hescape : inEscape r.state = false) : Returns r where
  space h := absurd (hspace.symm.trans h) Bool.false_ne_true
  escape h := absurd (hescape.symm.trans h) Bool.false_ne_true

/-! ## One case of the `switch` after the other -/

/-- The case ends without a fault, as the tokener that takes one byte at a time goes on. -/
def Simulates (tok : JsonTokenerEx) (text str : CString) (total : Nat) (o : Option Round) : Prop :=
  ∃ r, o = some r ∧ Agrees total (workLeft tok text str) ((tok.view text).run str) r

/-- A case that takes up the run at `rest`, with the bytes before it in the buffer. -/
theorem Simulates.of_run {o : Option Round} (h : Simulates tok' text' rest total o)
    (hrun : (tok.view text).run str = (tok'.view text').run rest) (hrest : rest <:+ str)
    (htop : tok'.top = tok.top) : Simulates tok text str total o := by
  obtain ⟨r, ho, hr⟩ := h
  refine ⟨r, ho, ?_⟩
  rw [hrun]
  have hrank : (tok'.view text').rank = (tok.view text).rank := by
    rw [JsonTokener.rank, show (tok'.view text').top = (tok.view text).top from htop]
    rfl
  have hlen := hrest.length_le
  exact hr.mono (by simp only [workLeft]; omega)

theorem run_spaces (tok : JsonTokener) (h : tok.top.state = .eatws) (str : CString) :
    tok.run str = tok.run (str.dropWhile isspace) := by
  induction str with
  | nil => rfl
  | cons c str ih =>
    rw [List.dropWhile_cons]
    split
    · rename_i hc
      refine Eq.trans (JsonTokener.run_advance ?_) ih
      simp only [JsonTokener.step, h, hc, if_true]
    · rfl

theorem simulates_eatws (h : Sound tok text str total) (htotal : total + 1 < 2 ^ 30)
    (hs : tok.top.state = .eatws) : Simulates tok text str total (tok.eatwsCase str) := by
  have hsaved : spare tok.top.savedState = none := h.returns.space (by rw [hs]; rfl)
  have hsuffix : str.dropWhile isspace <:+ str := List.dropWhile_suffix _
  have hspace : isspace ((str.dropWhile isspace).headD nul) = false := by
    by_cases hne : str.dropWhile isspace = []
    · rw [hne]
      rfl
    · exact headD_dropWhile isspace str hne
  refine Simulates.of_run ?_ (run_spaces (tok.view text) hs str) hsuffix rfl
  unfold eatwsCase
  generalize str.dropWhile isspace = rest at hsuffix hspace
  have hstep : (tok.view text).step (rest.headD nul) =
      if rest.headD nul = '/' then .advance { (tok.view text).goto .commentStart with pb := ['/'] }
      else .redo ((tok.view text).goto tok.top.savedState) := by
    simp only [JsonTokener.step, view, hs, hspace, Bool.false_eq_true, if_false]
    split
    · rename_i hc
      rw [hc]
    · rfl
  dsimp only
  split
  · rename_i hc
    obtain ⟨pb, hpb, hrep, -⟩ := resetPb_eq h.represents
    obtain ⟨pb', hpb', hrep', -⟩ :=
      append_eq { tok with pb } ['/'] hrep htotal (by simp)
    refine ⟨.brk (({ tok with pb := pb' } : JsonTokenerEx).goto .commentStart) rest, ?_,
      agrees_brk ['/'] (hstep.trans (if_pos hc)) fun c rest' hrest => ?_⟩
    · rw [hpb]
      dsimp only [Option.bind_eq_bind, Option.bind_some]
      rw [hpb']
      rfl
    · subst hrest
      refine h.appending ((List.suffix_cons c rest').trans hsuffix) hrep' (k := 0) rfl ?_
        ⟨fun _ => hsaved, by rintro ⟨⟩⟩ (by rintro ⟨⟩)
      have hlen := hsuffix.length_le.trans h.length_le
      simp only [List.length_cons, List.length_nil] at hlen ⊢
      omega
  · rename_i hc
    refine ⟨_, rfl, agrees_redo text (hstep.trans (if_neg hc)) ?_⟩
    exact h.quiet hsuffix h.represents hsaved fun he => absurd he tok.top.savedState_ne

/-- What a case does after `printbuf_reset` ends in a state that appends. -/
theorem simulates_reset (f : JsonTokenerEx → JsonTokenerEx) {k : Nat}
    (h : Sound tok text str total) (hk : spare (f tok).top.state = some k) (hk₀ : k = 0)
    (hpb : ∀ pb, f { tok with pb } = { f tok with pb })
    (hreturns : Returns (f tok).top) :
    ∃ pb, tok.resetPb = some { tok with pb } ∧ ∀ rest, rest <:+ str →
      Sound (f { tok with pb }) [] rest total := by
  obtain ⟨pb, hreset, hrep, hterm⟩ := resetPb_eq h.represents
  refine ⟨pb, hreset, fun rest hrest => ?_⟩
  rw [hpb pb]
  refine h.appending hrest hrep hk ?_ hreturns fun _ => ⟨rfl, hterm⟩
  have := hrest.length_le.trans h.length_le
  rw [List.length_nil, hk₀]
  omega

theorem simulates_start (h : Sound tok text str total) (hs : tok.top.state = .start) :
    Simulates tok text str total (tok.startCase str) := by
  have hstep : (tok.view text).step (str.headD nul) =
      (tok.view text).startStep (str.headD nul) := by
    simp only [JsonTokener.step, view, hs]
  have hquiet : ∀ {top : JsonTokenerSrec} {c rest}, str = c :: rest → spare top.state = none →
      (top.state = .eatws → spare top.savedState = none) →
      Sound { tok with top } text rest total := by
    rintro top c rest rfl hstate hsaved
    exact h.quiet (List.suffix_cons c rest) h.represents hstate hsaved
  unfold startCase
  dsimp only
  split
  · rename_i h₁
    exact ⟨_, rfl, agrees_brk text
      (hstep.trans (by rw [JsonTokener.startStep, if_pos h₁]; rfl))
      fun c rest hrest => hquiet hrest rfl fun _ => rfl⟩
  split
  · rename_i h₁ h₂
    exact ⟨_, rfl, agrees_brk text
      (hstep.trans (by rw [JsonTokener.startStep, if_neg h₁, if_pos h₂]; rfl))
      fun c rest hrest => hquiet hrest rfl fun _ => rfl⟩
  split
  · rename_i h₁ h₂ h₃
    obtain ⟨pb, hreset, hsound⟩ := simulates_reset
      (fun tok => { tok.goto .null with stPos := 0 }) h rfl rfl (fun pb => rfl)
      (returns_of_token rfl rfl)
    refine ⟨_, by rw [hreset]; rfl, agrees_redo [] (hstep.trans ?_)
      (hsound str (List.suffix_refl str))⟩
    rw [JsonTokener.startStep, if_neg h₁, if_neg h₂, if_pos h₃]
    rfl
  split
  · rename_i h₁ h₂ h₃ h₄
    obtain ⟨pb, hreset, hsound⟩ := simulates_reset
      (fun tok => { tok.goto .string with quoteChar := str.headD nul }) h rfl rfl
      (fun pb => rfl) (returns_of_token rfl rfl)
    refine ⟨_, by rw [hreset]; rfl, agrees_brk [] (hstep.trans ?_)
      fun c rest hrest => hsound rest (hrest ▸ List.suffix_cons c rest)⟩
    rw [JsonTokener.startStep, if_neg h₁, if_neg h₂, if_neg h₃, if_pos h₄]
    rfl
  split
  · rename_i h₁ h₂ h₃ h₄ h₅
    obtain ⟨pb, hreset, hsound⟩ := simulates_reset
      (fun tok => { tok.goto .boolean with stPos := 0 }) h rfl rfl (fun pb => rfl)
      (returns_of_token rfl rfl)
    refine ⟨_, by rw [hreset]; rfl, agrees_redo [] (hstep.trans ?_)
      (hsound str (List.suffix_refl str))⟩
    rw [JsonTokener.startStep, if_neg h₁, if_neg h₂, if_neg h₃, if_neg h₄, if_pos h₅]
    rfl
  split
  · rename_i h₁ h₂ h₃ h₄ h₅ h₆
    obtain ⟨pb, hreset, hsound⟩ := simulates_reset
      (fun tok => { tok.goto .number with isDouble := false }) h rfl rfl
      (fun pb => rfl) (returns_of_token rfl rfl)
    refine ⟨_, by rw [hreset]; rfl, agrees_redo [] (hstep.trans ?_)
      (hsound str (List.suffix_refl str))⟩
    rw [JsonTokener.startStep, if_neg h₁, if_neg h₂, if_neg h₃, if_neg h₄, if_neg h₅, if_pos h₆]
    rfl
  · rename_i h₁ h₂ h₃ h₄ h₅ h₆
    refine ⟨_, rfl, agrees_out tok text (hstep.trans ?_)⟩
    rw [JsonTokener.startStep, if_neg h₁, if_neg h₂, if_neg h₃, if_neg h₄, if_neg h₅, if_neg h₆]

theorem simulates_finish (h : Sound tok text str total) (hs : tok.top.state = .finish) :
    Simulates tok text str total (some (tok.finishCase str)) := by
  have hstep : (tok.view text).step (str.headD nul) = (tok.view text).finishStep := by
    simp only [JsonTokener.step, view, hs]
  refine ⟨_, rfl, ?_⟩
  unfold finishCase
  cases hbelow : tok.below with
  | nil =>
    refine agrees_out tok text (hstep.trans ?_)
    simp only [JsonTokener.finishStep, view, hbelow]
  | cons r below =>
    refine agrees_redo text (hstep.trans ?_) ?_
    · simp only [JsonTokener.finishStep, view, hbelow]
    · refine h.quiet (List.suffix_refl str) h.represents ?_ ?_
      · rcases r.adds with hr | hr <;> exact congrArg spare hr
      · intro he
        rcases r.adds with hr | hr <;> rw [hr] at he <;> cases he

/-- A word is compared with no more of the buffer than its own length. -/
theorem wordMatches_cstr {word : CString} (hword : nul ∉ word.map Char.toLower) (buf : CString)
    (stPos : Nat) : wordMatches word (cstr buf 0) stPos = wordMatches word buf stPos := by
  have htake : ∀ (n : Nat) (word buf : CString), (∀ c ∈ word, c.toLower ≠ nul) →
      n ≤ word.length →
      ((word.take n).map Char.toLower = ((buf.takeWhile (· != nul)).take n).map Char.toLower ↔
        (word.take n).map Char.toLower = (buf.take n).map Char.toLower) := by
    intro n
    induction n with
    | zero => simp
    | succ n ih =>
      rintro (_ | ⟨w, word⟩) (_ | ⟨b, buf⟩) hw hn
      · simp
      · simp at hn
      · simp
      · have hih := ih word buf (fun c hc => hw c (List.mem_cons_of_mem _ hc)) (by simpa using hn)
        by_cases hb : b = nul
        · subst hb
          have hne : w.toLower ≠ nul.toLower := hw w (List.mem_cons_self ..)
          simp [hne]
        · rw [List.takeWhile_cons_of_pos (by simpa using hb)]
          simp only [List.take_succ_cons, List.map_cons, List.cons.injEq, hih]
  unfold wordMatches
  rw [Bool.eq_iff_iff, beq_iff_eq, beq_iff_eq]
  exact htake _ word buf (fun c hc he => hword (List.mem_map.mpr ⟨c, hc, he⟩))
    (Nat.min_le_right ..)

/-- The byte of a word is appended, and the buffer read. -/
theorem append_word (h : Sound tok text str total) (htotal : total + 1 < 2 ^ 30)
    (hs : spare tok.top.state = some 0) :
    ∃ pb, tok.append [str.headD nul] = some { tok with pb } ∧
      pb.Represents (text ++ [str.headD nul]) (total + 1) ∧
      pb.text = some (cstr (text ++ [str.headD nul]) 0) := by
  have hlen := h.spare_le 0 hs
  obtain ⟨pb, hpb, hrep, hterm⟩ := append_eq tok [str.headD nul] h.represents htotal
    (by rw [List.length_singleton]; omega)
  exact ⟨pb, hpb, hrep, hterm.text_eq⟩

/-- A byte has been appended, and the state stays: there is one byte less to come. -/
theorem Sound.appended (h : Sound tok text str total) {c : Char} (hstr : str = c :: rest)
    (hpb : tok'.pb.Represents (text ++ bytes) (total + 1)) {k : Nat}
    (hspare : spare tok.top.state = some k) (hstate : spare tok'.top.state = some 0)
    (hlen : bytes.length ≤ 1 + k) (hreturns : Returns tok'.top)
    (hne : tok'.top.state ≠ .number) :
    Sound tok' (text ++ bytes) rest total := by
  subst hstr
  have hle := h.spare_le k hspare
  refine h.appending (List.suffix_cons c rest) hpb hstate ?_ hreturns fun hn => absurd hn hne
  rw [List.length_append]
  rw [List.length_cons] at hle
  omega

theorem simulates_null (h : Sound tok text str total) (htotal : total + 1 < 2 ^ 30)
    (hs : tok.top.state = .null) : Simulates tok text str total (tok.nullCase str) := by
  have hspare : spare tok.top.state = some 0 := by rw [hs]; rfl
  obtain ⟨pb, hpb, hrep, htext⟩ := append_word h htotal hspare
  have hstep : (tok.view text).step (str.headD nul) = (tok.view text).nullStep (str.headD nul) := by
    simp only [JsonTokener.step, view, hs]
  unfold nullCase
  dsimp only
  rw [hpb]
  dsimp only [Option.bind_eq_bind, Option.bind_some]
  rw [htext]
  dsimp only [Option.bind_some]
  rw [wordMatches_cstr (by decide)]
  split
  · rename_i hword
    split
    · rename_i hpos
      refine ⟨_, rfl, agrees_redo (text ++ [str.headD nul]) (hstep.trans ?_) ?_⟩
      · rw [JsonTokener.nullStep]
        exact (if_pos hword).trans (if_pos hpos)
      · exact h.quiet (List.suffix_refl str) hrep rfl fun _ => rfl
    · rename_i hpos
      refine ⟨_, rfl, agrees_brk (text ++ [str.headD nul]) (hstep.trans ?_) ?_⟩
      · rw [JsonTokener.nullStep]
        exact (if_pos hword).trans (if_neg hpos)
      · intro c rest hrest
        exact h.appended hrest hrep hspare hspare (Nat.le_refl 1) h.returns (hs ▸ by rintro ⟨⟩)
  · rename_i hword
    refine ⟨_, rfl, agrees_out _ (text ++ [str.headD nul]) (hstep.trans ?_)⟩
    rw [JsonTokener.nullStep]
    exact if_neg hword

theorem simulates_boolean (h : Sound tok text str total) (htotal : total + 1 < 2 ^ 30)
    (hs : tok.top.state = .boolean) : Simulates tok text str total (tok.booleanCase str) := by
  have hspare : spare tok.top.state = some 0 := by rw [hs]; rfl
  obtain ⟨pb, hpb, hrep, htext⟩ := append_word h htotal hspare
  have hstep : (tok.view text).step (str.headD nul) =
      (tok.view text).booleanStep (str.headD nul) := by
    simp only [JsonTokener.step, view, hs]
  have hredo : ∀ b, Sound ({ tok with pb := pb }.finishWith (.boolean b))
      (text ++ [str.headD nul]) str total :=
    fun b => h.quiet (List.suffix_refl str) hrep rfl fun _ => rfl
  have hbrk : ∀ c rest, str = c :: rest →
      Sound { tok with pb := pb, stPos := tok.stPos + 1 } (text ++ [str.headD nul]) rest total := by
    intro c rest hrest
    exact h.appended hrest hrep hspare hspare (Nat.le_refl 1) h.returns (hs ▸ by rintro ⟨⟩)
  unfold booleanCase
  dsimp only
  rw [hpb]
  dsimp only [Option.bind_eq_bind, Option.bind_some]
  rw [htext]
  dsimp only [Option.bind_some]
  rw [wordMatches_cstr (by decide), wordMatches_cstr (by decide)]
  split
  · rename_i htrue
    split
    · rename_i hpos
      refine ⟨_, rfl, agrees_redo _ (hstep.trans ?_) (hredo true)⟩
      rw [JsonTokener.booleanStep]
      exact (if_pos htrue).trans (if_pos hpos)
    · rename_i hpos
      refine ⟨_, rfl, agrees_brk _ (hstep.trans ?_) hbrk⟩
      rw [JsonTokener.booleanStep]
      exact (if_pos htrue).trans (if_neg hpos)
  split
  · rename_i htrue hfalse
    split
    · rename_i hpos
      refine ⟨_, rfl, agrees_redo _ (hstep.trans ?_) (hredo false)⟩
      rw [JsonTokener.booleanStep]
      exact (if_neg htrue).trans ((if_pos hfalse).trans (if_pos hpos))
    · rename_i hpos
      refine ⟨_, rfl, agrees_brk _ (hstep.trans ?_) hbrk⟩
      rw [JsonTokener.booleanStep]
      exact (if_neg htrue).trans ((if_pos hfalse).trans (if_neg hpos))
  · rename_i htrue hfalse
    refine ⟨_, rfl, agrees_out _ (text ++ [str.headD nul]) (hstep.trans ?_)⟩
    rw [JsonTokener.booleanStep]
    exact (if_neg htrue).trans (if_neg hfalse)

/-- The NUL of the text, in a state that would take any byte. -/
theorem agrees_eof (text' : CString) (h : (tok.view text).step nul = .advance (tok'.view text')) :
    Agrees total n ((tok.view text).run []) (.out tok' nul none) := by
  refine .out ?_
  rw [JsonTokener.run, JsonTokener.feed_eq, h]
  rfl

/-- The bytes of a loop and one more fit, so that the append succeeds. -/
theorem append_run {run : CString} (bytes : CString) (h : Sound tok text str total)
    (htotal : total + 1 < 2 ^ 30) {k : Nat} (hspare : spare tok.top.state = some k)
    (hrun : run ++ rest = str) (hlen : bytes.length ≤ run.length + 1) :
    ∃ pb, tok.append bytes = some { tok with pb } ∧ pb.Represents (text ++ bytes) (total + 1) ∧
      pb.Terminated (text ++ bytes) := by
  have hle := h.spare_le k hspare
  rw [← hrun, List.length_append] at hle
  exact append_eq tok bytes h.represents htotal (by omega)

theorem simulates_commentStart (h : Sound tok text str total) (htotal : total + 1 < 2 ^ 30)
    (hs : tok.top.state = .commentStart) :
    Simulates tok text str total (tok.commentStartCase str) := by
  have hspare : spare tok.top.state = some 0 := by rw [hs]; rfl
  have hsaved : spare tok.top.savedState = none := h.returns.space (by rw [hs]; rfl)
  have hbrk : ∀ s, spare s = some 0 → inEscape s = false → s ≠ .number →
      (tok.view text).step (str.headD nul) =
        .advance ((tok.goto s).view (text ++ [str.headD nul])) →
      Simulates tok text str total (do
        let tok ← (tok.goto s).append [str.headD nul]
        return .brk tok str) := by
    intro s hstate hescape hne hstep
    obtain ⟨pb, hpb, hrep, -⟩ := @append_run (tok.goto s) text str str total []
      [str.headD nul] { h with
        spare_le := fun k hk => h.spare_le 0 hspare |>.trans' (by cases hstate.symm.trans hk; rfl)
        returns := ⟨fun _ => hsaved, fun he => absurd (hescape.symm.trans he) Bool.false_ne_true⟩
        number := fun hn => absurd hn hne } htotal 0 hstate rfl (Nat.le_refl 1)
    refine ⟨.brk { tok.goto s with pb } str, by rw [hpb]; rfl, agrees_brk _ hstep ?_⟩
    intro c rest hrest
    exact h.appended hrest hrep hspare hstate (Nat.le_refl 1)
      ⟨fun _ => hsaved, fun he => absurd (hescape.symm.trans he) Bool.false_ne_true⟩ hne
  unfold commentStartCase
  dsimp only
  split
  · rename_i hc
    refine hbrk .comment rfl rfl (by rintro ⟨⟩) ?_
    simp only [JsonTokener.step, view, hs, hc, if_true]
    rfl
  split
  · rename_i hc hc'
    refine hbrk .commentEol rfl rfl (by rintro ⟨⟩) ?_
    simp only [JsonTokener.step, view, hs, if_neg hc, if_pos hc']
    rfl
  · rename_i hc hc'
    refine ⟨_, rfl, agrees_out tok text ?_⟩
    simp only [JsonTokener.step, view, hs, if_neg hc, if_neg hc']

theorem simulates_comment (h : Sound tok text str total) (htotal : total + 1 < 2 ^ 30)
    (hs : tok.top.state = .comment) : Simulates tok text str total (tok.commentCase str) := by
  have hspare : spare tok.top.state = some 0 := by rw [hs]; rfl
  have hsaved : spare tok.top.savedState = none := h.returns.space (by rw [hs]; rfl)
  have hstep : ∀ pb c, (tok.view pb).step c =
      .advance ((tok.goto (if c = '*' then .commentEnd else .comment)).view (pb ++ [c])) := by
    intro pb c
    simp only [JsonTokener.step, view, hs]
    rfl
  have hgather : ∀ pb c, (c != '*') = true →
      (tok.view pb).step c = .advance (tok.view (pb ++ [c])) := by
    intro pb c hc
    rw [hstep, if_neg (by simpa using hc)]
    simp only [view, goto, goto_self hs]
  refine Simulates.of_run ?_ (run_gather hgather text str) (List.dropWhile_suffix _) rfl
  have hstr := List.takeWhile_append_dropWhile (p := (· != '*')) (l := str)
  have hhead := headD_dropWhile (· != '*') str
  unfold commentCase
  dsimp only
  generalize str.takeWhile (· != '*') = run at hstr
  generalize str.dropWhile (· != '*') = rest at hstr hhead
  cases rest with
  | nil =>
    obtain ⟨pb, hpb, -, -⟩ := append_run (run ++ [nul]) h htotal hspare hstr
      (by rw [List.length_append, List.length_singleton])
    refine ⟨.out { tok with pb } nul none, by dsimp only; rw [hpb]; rfl,
      agrees_eof (text ++ run ++ [nul]) ?_⟩
    exact hgather _ nul rfl
  | cons c rest =>
    obtain rfl : c = '*' := by simpa using hhead (List.cons_ne_nil c rest)
    obtain ⟨pb, hpb, hrep, -⟩ := append_run (run ++ ['*']) h htotal hspare hstr
      (by rw [List.length_append, List.length_singleton])
    refine ⟨.brk (({ tok with pb } : JsonTokenerEx).goto .commentEnd) ('*' :: rest),
      by dsimp only; rw [hpb]; rfl, agrees_brk (text ++ (run ++ ['*'])) ?_ ?_⟩
    · rw [← List.append_assoc]
      exact hstep _ '*'
    · rintro c rest' ⟨⟩
      have hle := h.spare_le 0 hspare
      refine h.appending ?_ hrep (k := 0) rfl ?_ ⟨fun _ => hsaved, by rintro ⟨⟩⟩ (by rintro ⟨⟩)
      · rw [← hstr]
        exact (List.suffix_cons '*' rest).trans (List.suffix_append run _)
      · rw [← hstr] at hle
        simp only [List.length_append, List.length_cons, List.length_nil] at hle ⊢
        omega

theorem simulates_commentEol (h : Sound tok text str total) (htotal : total + 1 < 2 ^ 30)
    (hs : tok.top.state = .commentEol) :
    Simulates tok text str total (tok.commentEolCase str) := by
  have hspare : spare tok.top.state = some 0 := by rw [hs]; rfl
  have hsaved : spare tok.top.savedState = none := h.returns.space (by rw [hs]; rfl)
  have hgather : ∀ pb c, (c != '\n') = true →
      (tok.view pb).step c = .advance (tok.view (pb ++ [c])) := by
    intro pb c hc
    simp only [JsonTokener.step, view, hs, if_neg (show ¬ c = '\n' by simpa using hc)]
  refine Simulates.of_run ?_ (run_gather hgather text str) (List.dropWhile_suffix _) rfl
  have hstr := List.takeWhile_append_dropWhile (p := (· != '\n')) (l := str)
  have hhead := headD_dropWhile (· != '\n') str
  unfold commentEolCase
  dsimp only
  generalize str.takeWhile (· != '\n') = run at hstr
  generalize str.dropWhile (· != '\n') = rest at hstr hhead
  cases rest with
  | nil =>
    obtain ⟨pb, hpb, -, -⟩ := append_run (run ++ [nul]) h htotal hspare hstr
      (by rw [List.length_append, List.length_singleton])
    refine ⟨.out { tok with pb } nul none, by dsimp only; rw [hpb]; rfl,
      agrees_eof (text ++ run ++ [nul]) ?_⟩
    exact hgather _ nul rfl
  | cons c rest =>
    obtain rfl : c = '\n' := by simpa using hhead (List.cons_ne_nil c rest)
    obtain ⟨pb, hpb, hrep, -⟩ := append_run run h htotal hspare hstr (Nat.le_succ _)
    refine ⟨.brk (({ tok with pb } : JsonTokenerEx).goto .eatws) ('\n' :: rest),
      by dsimp only; rw [hpb]; rfl, agrees_brk (text ++ run) ?_ ?_⟩
    · simp only [JsonTokener.step, view, hs, List.headD_cons, if_true]
      rfl
    · rintro c rest' ⟨⟩
      refine h.quiet ?_ hrep rfl fun _ => hsaved
      rw [← hstr]
      exact (List.suffix_cons '\n' rest).trans (List.suffix_append run _)

theorem simulates_commentEnd (h : Sound tok text str total) (htotal : total + 1 < 2 ^ 30)
    (hs : tok.top.state = .commentEnd) :
    Simulates tok text str total (tok.commentEndCase str) := by
  have hspare : spare tok.top.state = some 0 := by rw [hs]; rfl
  have hsaved : spare tok.top.savedState = none := h.returns.space (by rw [hs]; rfl)
  obtain ⟨pb, hpb, hrep, -⟩ := append_run [str.headD nul] h htotal hspare
    (List.nil_append str) (Nat.le_refl 1)
  refine ⟨.brk (({ tok with pb } : JsonTokenerEx).goto
      (if str.headD nul = '/' then .eatws else .comment)) str,
    by unfold commentEndCase; dsimp only; rw [hpb]; rfl,
    agrees_brk (text ++ [str.headD nul]) ?_ fun c rest hrest => ?_⟩
  · simp only [JsonTokener.step, view, hs]
    rfl
  · split
    · exact h.quiet (hrest ▸ List.suffix_cons c rest) hrep rfl fun _ => hsaved
    · exact h.appended hrest hrep hspare rfl (Nat.le_refl 1)
        ⟨fun _ => hsaved, by rintro ⟨⟩⟩ (by rintro ⟨⟩)

/-- A string, or the name of a field, up to its closing quote. -/
theorem simulates_quoted {self : JsonTokenerState} {hself : self ≠ .eatws}
    {close : JsonTokenerEx → CString → JsonTokenerEx}
    (closeView : JsonTokener → CString → JsonTokener)
    (h : Sound tok text str total) (htotal : total + 1 < 2 ^ 30) (hs : tok.top.state = self)
    (hspare : spare self = some 0) (hreturn : self = .string ∨ self = .objectField)
    (hstep : ∀ pb c, (tok.view pb).step c =
      (tok.view pb).quotedStep c self hself (closeView (tok.view pb)))
    (hclose : ∀ pb text s, closeView (tok.view text) s = (close { tok with pb } s).view text)
    (hpb : ∀ pb s, (close { tok with pb } s).pb = pb)
    (hquiet : ∀ pb s, spare (close { tok with pb } s).top.state = none)
    (hsaved : ∀ pb s, spare (close { tok with pb } s).top.savedState = none) :
    Simulates tok text str total (tok.quotedCase str self hself close) := by
  subst hs
  have hgather : ∀ pb c, (c != tok.quoteChar && c != '\\') = true →
      (tok.view pb).step c = .advance (tok.view (pb ++ [c])) := by
    intro pb c hc
    rw [Bool.and_eq_true, bne_iff_ne, bne_iff_ne] at hc
    rw [hstep, JsonTokener.quotedStep, if_neg (show ¬ c = (tok.view pb).quoteChar from hc.1),
      if_neg hc.2]
    rfl
  refine Simulates.of_run ?_ (run_gather hgather text str) (List.dropWhile_suffix _) rfl
  have hstr := List.takeWhile_append_dropWhile
    (p := fun c => c != tok.quoteChar && c != '\\') (l := str)
  have hhead := headD_dropWhile (fun c => c != tok.quoteChar && c != '\\') str
  unfold quotedCase
  dsimp only
  generalize str.takeWhile (fun c => c != tok.quoteChar && c != '\\') = run at hstr
  generalize str.dropWhile (fun c => c != tok.quoteChar && c != '\\') = rest at hstr hhead
  have hsuffix : rest <:+ str := hstr ▸ List.suffix_append run rest
  split
  · rename_i hquote
    obtain ⟨pb, happend, hrep, hterm⟩ := append_run run h htotal hspare hstr (Nat.le_succ _)
    refine ⟨.brk (close { tok with pb } (cstr (text ++ run) 0)) rest, ?_,
      agrees_brk (text ++ run) ?_ fun c rest' hrest => ?_⟩
    · rw [happend]
      dsimp only [Option.bind_eq_bind, Option.bind_some]
      rw [hterm.text_eq]
      rfl
    · rw [hstep, JsonTokener.quotedStep, if_pos (show _ = (tok.view _).quoteChar from hquote),
        hclose pb]
      rfl
    · refine h.quiet ((hrest ▸ List.suffix_cons c rest').trans hsuffix) ?_ (hquiet pb _)
        fun _ => hsaved pb _
      rw [hpb]
      exact hrep
  split
  · rename_i hquote hescape
    obtain ⟨pb, happend, hrep, -⟩ := append_run run h htotal hspare hstr (Nat.le_succ _)
    refine ⟨_, by rw [happend]; rfl, agrees_brk (text ++ run) ?_ fun c rest' hrest => ?_⟩
    · rw [hstep, JsonTokener.quotedStep, if_neg (show ¬ _ = (tok.view _).quoteChar from hquote),
        if_pos hescape]
      rfl
    · have hle := h.spare_le 0 hspare
      refine h.appending ((hrest ▸ List.suffix_cons c rest').trans hsuffix) hrep (k := 1) rfl ?_
        ⟨by rintro ⟨⟩, fun _ => hreturn⟩ (by rintro ⟨⟩)
      rw [← hstr, hrest] at hle
      simp only [List.length_append, List.length_cons] at hle ⊢
      omega
  · rename_i hquote hescape
    obtain rfl : rest = [] := by
      by_contra hne
      have hq := hhead hne
      rw [Bool.and_eq_false_iff, bne_eq_false_iff_eq, bne_eq_false_iff_eq] at hq
      rcases hq with hq | hq
      · exact hquote hq
      · exact hescape hq
    obtain ⟨pb, happend, -, -⟩ := append_run (run ++ [nul]) h htotal hspare hstr
      (by rw [List.length_append, List.length_singleton])
    refine ⟨.out { tok with pb } nul none, by rw [happend]; rfl,
      agrees_eof (text ++ run ++ [nul]) ?_⟩
    rw [hstep, JsonTokener.quotedStep,
      if_neg (show ¬ nul = (tok.view (text ++ run)).quoteChar from hquote), if_neg (by decide)]
    rfl

theorem length_utfOut_le (ucs : UInt32) : (utfOut ucs).length ≤ 3 := by
  unfold utfOut
  split
  · exact Nat.le_of_ble_eq_true rfl
  · split <;> exact Nat.le_of_ble_eq_true rfl

/-- The state that an escape returns to. -/
theorem Sound.spare_savedState (h : Sound tok text str total)
    (hs : inEscape tok.top.state = true) :
    spare tok.top.savedState = some 0 ∧ Returns (tok.top.goto tok.top.savedState) ∧
      tok.top.savedState ≠ .number := by
  rcases h.returns.escape hs with hsaved | hsaved
  · refine ⟨by rw [hsaved]; rfl, returns_of_token ?_ ?_, by rw [hsaved]; rintro ⟨⟩⟩
    · exact congrArg inSpace hsaved
    · exact congrArg inEscape hsaved
  · refine ⟨by rw [hsaved]; rfl, returns_of_token ?_ ?_, by rw [hsaved]; rintro ⟨⟩⟩
    · exact congrArg inSpace hsaved
    · exact congrArg inEscape hsaved

theorem simulates_stringEscape (h : Sound tok text str total) (htotal : total + 1 < 2 ^ 30)
    (hs : tok.top.state = .stringEscape) :
    Simulates tok text str total (tok.stringEscapeCase str) := by
  have hspare : spare tok.top.state = some 1 := by rw [hs]; rfl
  obtain ⟨hsaved, hreturns, hne⟩ := h.spare_savedState (by rw [hs]; rfl)
  have hstep : (tok.view text).step (str.headD nul) =
      (tok.view text).stringEscapeStep (str.headD nul) := by
    simp only [JsonTokener.step, view, hs]
  have happend : ∀ x, (tok.view text).stringEscapeStep (str.headD nul) =
      .advance { (tok.view text).goto tok.top.savedState with pb := text ++ [x] } →
      Simulates tok text str total (do
        let tok ← tok.append [x]
        return .brk (tok.goto tok.top.savedState) str) := by
    intro x hx
    obtain ⟨pb, hpb, hrep, -⟩ := append_run [x] h htotal hspare (List.nil_append str)
      (Nat.le_refl 1)
    refine ⟨.brk (({ tok with pb } : JsonTokenerEx).goto tok.top.savedState) str,
      by rw [hpb]; rfl, agrees_brk (text ++ [x]) (hstep.trans hx) fun c rest hrest => ?_⟩
    exact h.appended hrest hrep hspare hsaved (Nat.le_succ 1) hreturns hne
  unfold stringEscapeCase
  dsimp only
  split
  · rename_i h₁
    exact happend _ (by rw [JsonTokener.stringEscapeStep]; exact if_pos h₁)
  split
  · rename_i h₁ h₂
    exact happend _ (by
      rw [JsonTokener.stringEscapeStep]
      exact (if_neg h₁).trans (if_pos h₂))
  split
  · rename_i h₁ h₂ h₃
    exact happend _ (by
      rw [JsonTokener.stringEscapeStep]
      exact (if_neg h₁).trans ((if_neg h₂).trans (if_pos h₃)))
  split
  · rename_i h₁ h₂ h₃ h₄
    exact happend _ (by
      rw [JsonTokener.stringEscapeStep]
      exact (if_neg h₁).trans ((if_neg h₂).trans ((if_neg h₃).trans (if_pos h₄))))
  split
  · rename_i h₁ h₂ h₃ h₄ h₅
    exact happend _ (by
      rw [JsonTokener.stringEscapeStep]
      exact (if_neg h₁).trans ((if_neg h₂).trans ((if_neg h₃).trans ((if_neg h₄).trans
        (if_pos h₅)))))
  split
  · rename_i h₁ h₂ h₃ h₄ h₅ h₆
    refine ⟨_, rfl, agrees_brk text (hstep.trans ?_) fun c rest hrest => ?_⟩
    · rw [JsonTokener.stringEscapeStep]
      exact (if_neg h₁).trans ((if_neg h₂).trans ((if_neg h₃).trans ((if_neg h₄).trans
        ((if_neg h₅).trans (if_pos h₆)))))
    · have hle := h.spare_le 1 hspare
      refine h.appending (hrest ▸ List.suffix_cons c rest) h.represents (k := 2) rfl ?_
        ⟨by rintro ⟨⟩, fun _ => h.returns.escape (by rw [hs]; rfl)⟩ (by rintro ⟨⟩)
      rw [hrest, List.length_cons] at hle
      omega
  · rename_i h₁ h₂ h₃ h₄ h₅ h₆
    refine ⟨_, rfl, agrees_out tok text (hstep.trans ?_)⟩
    rw [JsonTokener.stringEscapeStep]
    exact (if_neg h₁).trans ((if_neg h₂).trans ((if_neg h₃).trans ((if_neg h₄).trans
      ((if_neg h₅).trans (if_neg h₆)))))

theorem step_escapeUnicode (hs : tok.top.state = .escapeUnicode) (text : CString) (c : Char) :
    (tok.view text).step c = (tok.view text).escapeUnicodeStep c := by
  simp only [JsonTokener.step, view, hs]

/-- The last digit, or a byte that is none. -/
theorem simulates_lastDigit (h : Sound tok text str total) (htotal : total + 1 < 2 ^ 30)
    (hs : tok.top.state = .escapeUnicode)
    (hlast : str.headD nul ∈ jsonHexChars ∨ str.headD nul = nul → tok.stPos + 1 = 4) :
    Simulates tok text str total (tok.escapeUnicodeCase str) := by
  have hspare : spare tok.top.state = some 2 := by rw [hs]; rfl
  have hle := h.spare_le 2 hspare
  obtain ⟨hsaved, hreturns, hne⟩ := h.spare_savedState (by rw [hs]; rfl)
  have hstep := step_escapeUnicode hs text (str.headD nul)
  unfold escapeUnicodeCase
  dsimp only
  by_cases hdigit : str.headD nul ∈ jsonHexChars ∨ str.headD nul = nul
  · have hlen := length_utfOut_le
      (tok.ucsChar + hexdigit (str.headD nul) <<< UInt32.ofNat ((3 - tok.stPos) * 4))
    have hpos := hlast hdigit
    rw [if_pos hdigit, if_pos hpos]
    rw [JsonTokener.escapeUnicodeStep, if_pos hdigit] at hstep
    generalize hucs : tok.ucsChar + hexdigit (str.headD nul) <<<
      UInt32.ofNat ((3 - tok.stPos) * 4) = ucsChar at hlen
    obtain ⟨pb, hpb, hrep, -⟩ := append_eq { tok with ucsChar, stPos := tok.stPos + 1 }
      (utfOut ucsChar) h.represents htotal (by omega)
    refine ⟨_, by rw [hpb]; rfl, agrees_brk (text ++ utfOut ucsChar) ?_ fun c rest hrest => ?_⟩
    · subst hucs
      exact hstep.trans (if_pos hpos)
    · exact h.appended hrest hrep hspare hsaved (by omega) hreturns hne
  · rw [if_neg hdigit]
    refine ⟨_, rfl, agrees_out tok text (hstep.trans ?_)⟩
    rw [JsonTokener.escapeUnicodeStep, if_neg hdigit]

theorem simulates_escapeUnicode (h : Sound tok text str total) (htotal : total + 1 < 2 ^ 30)
    (hs : tok.top.state = .escapeUnicode) :
    Simulates tok text str total (tok.escapeUnicodeCase str) := by
  induction str generalizing tok with
  | nil =>
    by_cases hlast : tok.stPos + 1 = 4
    · exact simulates_lastDigit h htotal hs fun _ => hlast
    · unfold escapeUnicodeCase
      dsimp only
      rw [List.headD_nil, if_pos (.inr rfl), if_neg hlast]
      refine ⟨_, rfl, agrees_eof text ((step_escapeUnicode hs text nul).trans ?_)⟩
      rw [JsonTokener.escapeUnicodeStep, if_pos (.inr rfl)]
      exact if_neg hlast
  | cons c rest ih =>
    by_cases hlast : c ∈ jsonHexChars ∨ c = nul → tok.stPos + 1 = 4
    · exact simulates_lastDigit h htotal hs hlast
    · obtain ⟨hdigit, hpos⟩ := Classical.not_imp.mp hlast
      have hle := h.spare_le 2 (by rw [hs]; rfl)
      have hnext : ∀ ucsChar,
          Sound { tok with ucsChar, stPos := tok.stPos + 1 } text rest total := by
        intro ucsChar
        refine h.appending (List.suffix_cons c rest) h.represents (k := 2)
          (by dsimp only; rw [hs]; rfl) ?_ h.returns (by dsimp only; rw [hs]; rintro ⟨⟩)
        rw [List.length_cons] at hle
        omega
      unfold escapeUnicodeCase
      dsimp only
      rw [List.headD_cons, if_pos hdigit, if_neg hpos]
      refine Simulates.of_run (ih (hnext _) hs) (JsonTokener.run_advance ?_)
        (List.suffix_cons c rest) rfl
      rw [step_escapeUnicode hs, JsonTokener.escapeUnicodeStep, if_pos hdigit]
      exact if_neg hpos

/-- The bytes of a number are gathered, and the kind of the number found out. -/
theorem run_digits (hs : tok.top.state = .number) (text str : CString) :
    (tok.view text).run str =
      (({ tok with
          isDouble := tok.isDouble ||
            (str.takeWhile (· ∈ jsonNumberChars)).any fun c => c == '.' || c == 'e' } :
          JsonTokenerEx).view (text ++ str.takeWhile (· ∈ jsonNumberChars))).run
        (str.dropWhile (· ∈ jsonNumberChars)) := by
  induction str generalizing tok text with
  | nil => simp only [List.takeWhile_nil, List.dropWhile_nil, List.any_nil, Bool.or_false,
      List.append_nil]
  | cons c str ih =>
    by_cases hc : c ∈ jsonNumberChars
    · have hstep : (tok.view text).step c = .advance
          (({ tok with isDouble := tok.isDouble || (c == '.' || c == 'e') } : JsonTokenerEx).view
            (text ++ [c])) := by
        simp only [JsonTokener.step, view, hs, JsonTokener.numberStep, if_pos hc, Bool.or_assoc]
      have hih := @ih { tok with isDouble := tok.isDouble || (c == '.' || c == 'e') } hs
        (text ++ [c])
      refine (JsonTokener.run_advance hstep).trans (hih.trans ?_)
      simp only [List.takeWhile_cons, List.dropWhile_cons, hc, decide_true, if_true, List.any_cons,
        Bool.or_assoc, List.append_assoc, List.singleton_append]
    · simp only [List.takeWhile_cons, List.dropWhile_cons, hc, decide_false, Bool.false_eq_true,
        if_false, List.any_nil, Bool.or_false, List.append_nil]

theorem simulates_number (h : Sound tok text str total) (htotal : total + 1 < 2 ^ 30)
    (hs : tok.top.state = .number) : Simulates tok text str total (tok.numberCase str) := by
  have hspare : spare tok.top.state = some 0 := by rw [hs]; rfl
  obtain ⟨rfl, hterm⟩ := h.number hs
  refine Simulates.of_run ?_ (run_digits hs [] str) (List.dropWhile_suffix _) rfl
  have hstr := List.takeWhile_append_dropWhile (p := (decide <| · ∈ jsonNumberChars)) (l := str)
  have hhead := headD_dropWhile (decide <| · ∈ jsonNumberChars) str
  have hnul : nul ∉ str.takeWhile (· ∈ jsonNumberChars) := by
    intro hm
    have := List.mem_takeWhile_imp hm
    revert this
    decide
  unfold numberCase
  dsimp only
  generalize str.takeWhile (· ∈ jsonNumberChars) = run at hstr hnul
  generalize str.dropWhile (· ∈ jsonNumberChars) = rest at hstr hhead
  generalize (tok.isDouble || run.any fun c => c == '.' || c == 'e') = isDouble
  have hc : rest.headD nul ∉ jsonNumberChars := by
    by_cases hne : rest = []
    · rw [hne]
      decide
    · simpa using hhead hne
  have hgather : ∃ pb, (if run = [] then some ({ tok with isDouble } : JsonTokenerEx)
        else ({ tok with isDouble } : JsonTokenerEx).append run) = some { tok with isDouble, pb } ∧
      pb.Represents run (total + 1) ∧ pb.Terminated run := by
    split
    · rename_i hrun
      subst hrun
      exact ⟨tok.pb, rfl, h.represents, hterm⟩
    · have hle := h.spare_le 0 hspare
      rw [← hstr, List.length_append, List.length_nil] at hle
      exact append_eq { tok with isDouble } run h.represents htotal (by
        rw [List.length_nil]
        omega)
  obtain ⟨pb, hpb, hrep, hterm'⟩ := hgather
  rw [hpb]
  dsimp only [Option.bind_eq_bind, Option.bind_some]
  rw [hterm'.text_eq, JsonTokener.cstr_of_nul_notMem hnul]
  dsimp only [Option.bind_some]
  have hsuffix : rest <:+ str := hstr ▸ List.suffix_append run rest
  have hredo : ∀ v, Sound (({ tok with isDouble, pb } : JsonTokenerEx).finishWith v) run rest
      total := fun v => h.quiet hsuffix hrep rfl fun _ => rfl
  have hstep : (({ tok with isDouble } : JsonTokenerEx).view ([] ++ run)).step (rest.headD nul) =
      (({ tok with isDouble } : JsonTokenerEx).view run).numberStep (rest.headD nul) := by
    simp only [JsonTokener.step, view, hs, List.nil_append]
  rw [JsonTokener.numberStep, if_neg hc] at hstep
  cases isDouble with
  | true =>
    cases hscan : sscanfLf run with
    | some d =>
      refine ⟨_, rfl, agrees_redo run (hstep.trans ?_) (hredo (.double d))⟩
      simp only [view, hscan, if_true]
      rfl
    | none =>
      refine ⟨_, rfl, agrees_out _ run (hstep.trans ?_)⟩
      simp only [view, hscan, if_true]
  | false =>
    cases hscan : sscanfD run with
    | some i =>
      refine ⟨_, rfl, agrees_redo run (hstep.trans ?_) (hredo (.int i))⟩
      simp only [view, hscan, Bool.false_eq_true, if_false]
      rfl
    | none =>
      refine ⟨_, rfl, agrees_out _ run (hstep.trans ?_)⟩
      simp only [view, hscan, Bool.false_eq_true, if_false]

/-- A level waits to add a value, and a new one is put above it. -/
theorem simulates_push (h : Sound tok text str total) {s : JsonTokenerState}
    (hs : s = .arrayAdd ∨ s = .objectValueAdd)
    (hstep : (tok.view text).step (str.headD nul) = (tok.view text).push s hs) :
    Simulates tok text str total (some (tok.push str s hs)) := by
  refine ⟨_, rfl, ?_⟩
  unfold push
  split
  · rename_i hdepth
    refine agrees_redo text (hstep.trans ?_) ?_
    · rw [JsonTokener.push]
      exact if_pos hdepth
    · exact h.quiet (List.suffix_refl str) h.represents rfl fun _ => rfl
  · rename_i hdepth
    refine agrees_out tok text (hstep.trans ?_)
    rw [JsonTokener.push]
    exact if_neg hdepth

/-- A round that leaves the buffer alone, and consumes its byte. -/
theorem simulates_brk (h : Sound tok text str total)
    (hstep : (tok.view text).step (str.headD nul) = .advance (tok'.view text))
    (hpb : tok'.pb = tok.pb) (hstate : spare tok'.top.state = none)
    (hsaved : tok'.top.state = .eatws → spare tok'.top.savedState = none) :
    Simulates tok text str total (some (.brk tok' str)) :=
  ⟨_, rfl, agrees_brk text hstep fun c _ hrest =>
    h.quiet (hrest ▸ List.suffix_cons c _) (hpb ▸ h.represents) hstate hsaved⟩

/-- The same, with the byte handed back to the state that follows. -/
theorem simulates_redo (h : Sound tok text str total)
    (hstep : (tok.view text).step (str.headD nul) = .redo (tok'.view text))
    (hpb : tok'.pb = tok.pb) (hstate : spare tok'.top.state = none)
    (hsaved : tok'.top.state = .eatws → spare tok'.top.savedState = none) :
    Simulates tok text str total (some (.redo tok' str)) :=
  ⟨_, rfl, agrees_redo text hstep
    (h.quiet (List.suffix_refl str) (hpb ▸ h.represents) hstate hsaved)⟩

theorem simulates_objectFieldStart (h : Sound tok text str total)
    (hs : tok.top.state = .objectFieldStart) : Simulates tok text str total (tok.round str) := by
  simp only [round, hs]
  split
  · rename_i hc
    refine simulates_brk h ?_ rfl rfl fun _ => rfl
    simp only [JsonTokener.step, view, hs, if_pos hc]
    rfl
  split
  · rename_i hc hquote
    obtain ⟨pb, hreset, hsound⟩ := simulates_reset
      (fun tok => { tok.goto .objectField with quoteChar := str.headD nul }) h rfl rfl
      (fun pb => rfl) (returns_of_token rfl rfl)
    have hreset' : ({ tok with quoteChar := str.headD nul } : JsonTokenerEx).resetPb =
        some { tok with quoteChar := str.headD nul, pb } := by
      rw [resetPb] at hreset ⊢
      cases hpb : tok.pb.reset with
      | none =>
        rw [hpb] at hreset
        cases hreset
      | some pb' =>
        rw [hpb] at hreset
        cases hreset
        rfl
    refine ⟨_, by rw [hreset']; rfl, agrees_brk [] ?_
      fun c rest hrest => hsound rest (hrest ▸ List.suffix_cons c rest)⟩
    simp only [JsonTokener.step, view, hs, if_neg hc, if_pos hquote]
    rfl
  · rename_i hc hquote
    refine ⟨_, rfl, agrees_out tok text ?_⟩
    simp only [JsonTokener.step, view, hs, if_neg hc, if_neg hquote]

/-- **One round of the `switch`**, in any state, does what the other tokener does with the bytes of
the run. -/
theorem simulates_round (h : Sound tok text str total) (htotal : total + 1 < 2 ^ 30) :
    Simulates tok text str total (tok.round str) := by
  cases hs : tok.top.state with
  | eatws =>
    simp only [round, hs]
    exact simulates_eatws h htotal hs
  | start =>
    simp only [round, hs]
    exact simulates_start h hs
  | finish =>
    simp only [round, hs]
    exact simulates_finish h hs
  | null =>
    simp only [round, hs]
    exact simulates_null h htotal hs
  | commentStart =>
    simp only [round, hs]
    exact simulates_commentStart h htotal hs
  | comment =>
    simp only [round, hs]
    exact simulates_comment h htotal hs
  | commentEol =>
    simp only [round, hs]
    exact simulates_commentEol h htotal hs
  | commentEnd =>
    simp only [round, hs]
    exact simulates_commentEnd h htotal hs
  | string =>
    simp only [round, hs]
    refine simulates_quoted (fun tok s => tok.finishWith (.string s)) h htotal hs rfl (.inl rfl)
      (fun pb c => ?_) (fun _ _ _ => rfl) (fun _ _ => rfl) (fun _ _ => rfl) fun _ _ => rfl
    simp only [JsonTokener.step, view, hs]
  | stringEscape =>
    simp only [round, hs]
    exact simulates_stringEscape h htotal hs
  | escapeUnicode =>
    simp only [round, hs]
    exact simulates_escapeUnicode h htotal hs
  | boolean =>
    simp only [round, hs]
    exact simulates_boolean h htotal hs
  | number =>
    simp only [round, hs]
    exact simulates_number h htotal hs
  | array =>
    simp only [round, hs]
    split
    · rename_i hc
      refine simulates_brk h ?_ rfl rfl fun _ => rfl
      simp only [JsonTokener.step, view, hs, if_pos hc]
      rfl
    · rename_i hc
      refine simulates_push h _ ?_
      simp only [JsonTokener.step, view, hs, if_neg hc]
  | arrayAdd =>
    simp only [round, hs]
    refine simulates_redo h ?_ rfl rfl fun _ => rfl
    simp only [JsonTokener.step, view, hs]
  | arraySep =>
    simp only [round, hs]
    split
    · rename_i hc
      refine simulates_brk h ?_ rfl rfl fun _ => rfl
      simp only [JsonTokener.step, view, hs, if_pos hc]
      rfl
    split
    · rename_i hc hcomma
      refine simulates_brk h ?_ rfl rfl fun _ => rfl
      simp only [JsonTokener.step, view, hs, if_neg hc, if_pos hcomma]
      rfl
    · rename_i hc hcomma
      refine ⟨_, rfl, agrees_out tok text ?_⟩
      simp only [JsonTokener.step, view, hs, if_neg hc, if_neg hcomma]
  | objectFieldStart => exact simulates_objectFieldStart h hs
  | objectField =>
    simp only [round, hs]
    refine simulates_quoted (fun tok s =>
        { tok with top := { tok.top.eatwsThen .objectFieldEnd nofun with objFieldName := s } })
      h htotal hs rfl (.inr rfl) (fun pb c => ?_) (fun _ _ _ => rfl) (fun _ _ => rfl)
      (fun _ _ => rfl) fun _ _ => rfl
    simp only [JsonTokener.step, view, hs]
  | objectFieldEnd =>
    simp only [round, hs]
    split
    · rename_i hc
      refine simulates_brk h ?_ rfl rfl fun _ => rfl
      simp only [JsonTokener.step, view, hs, if_pos hc]
      rfl
    · rename_i hc
      refine ⟨_, rfl, agrees_out tok text ?_⟩
      simp only [JsonTokener.step, view, hs, if_neg hc]
  | objectValue =>
    simp only [round, hs]
    refine simulates_push h _ ?_
    simp only [JsonTokener.step, view, hs]
  | objectValueAdd =>
    simp only [round, hs]
    refine simulates_redo h ?_ rfl rfl fun _ => rfl
    simp only [JsonTokener.step, view, hs]
  | objectSep =>
    simp only [round, hs]
    split
    · rename_i hc
      refine simulates_brk h ?_ rfl rfl fun _ => rfl
      simp only [JsonTokener.step, view, hs, if_pos hc]
      rfl
    split
    · rename_i hc hcomma
      refine simulates_brk h ?_ rfl rfl fun _ => rfl
      simp only [JsonTokener.step, view, hs, if_neg hc, if_pos hcomma]
      rfl
    · rename_i hc hcomma
      refine ⟨_, rfl, agrees_out tok text ?_⟩
      simp only [JsonTokener.step, view, hs, if_neg hc, if_neg hcomma]

/-! ## The main loop -/

/-- **The loop**, from any state and position: the rounds that it takes are enough. -/
theorem parseLoop_eq (h : Sound tok text str total) (htotal : total + 1 < 2 ^ 30) {fuel : Nat}
    (hfuel : workLeft tok text str < fuel) :
    tok.parseLoop fuel str = some ((tok.view text).run str) := by
  induction fuel generalizing tok text str with
  | zero => omega
  | succ fuel ih =>
    obtain ⟨r, hr, hagrees⟩ := simulates_round h htotal
    rw [parseLoop, hr]
    dsimp only [Option.bind_eq_bind, Option.bind_some]
    cases hagrees with
    | out hresult => exact congrArg some hresult
    | brkNil hresult => exact congrArg some hresult
    | brkCons hs hresult hn =>
      rw [← hresult]
      exact ih hs (by unfold workLeft; omega)
    | redo hs hresult hn =>
      rw [← hresult]
      exact ih hs (by unfold workLeft; omega)

end JsonTokenerEx

open JsonTokenerEx in
/-- **The loops do what the rounds do**, for every text of fewer than `2 ^ 30` bytes with its NUL:
the value or the error is that of the tokener which takes one byte at a time, and no access to the
buffer is at fault. -/
theorem jsonTokenerParseEx_eq {str : CString} (hnul : nul ∉ str) (hlen : str.length + 1 < 2 ^ 30) :
    jsonTokenerParseEx str = some (jsonTokenerParse str) := by
  have hsound : Sound JsonTokenerEx.new [] str str.length := by
    refine ⟨Printbuf.represents_new _, hnul, Nat.le_refl _, ?_, ⟨fun _ => rfl, ?_⟩, ?_⟩
    · rintro k ⟨⟩
    · rintro ⟨⟩
    · rintro ⟨⟩
  refine parseLoop_eq hsound hlen ?_
  have hrank : (JsonTokenerEx.new.view []).rank = 7 := rfl
  rw [workLeft, hrank]
  omega

/-- An array that is not closed, with a comment, a string with an escape, and a number. -/
theorem jsonTokenerParseEx_eq_array :
    jsonTokenerParseEx "[/**/\"\\u0041b\", 12".toList =
      some (jsonTokenerParse "[/**/\"\\u0041b\", 12".toList) :=
  jsonTokenerParseEx_eq (by decide) (by decide)

end StatsdC
