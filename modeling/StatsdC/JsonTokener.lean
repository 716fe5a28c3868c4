import StatsdC.JsonObject

/-!
# The JSON tokener

`json_tokener_parse`: a state machine over the bytes of a text with a stack of levels, one for each
array or object that is open.  `step` is one round of the `switch`.  It consumes its byte, or goes
back to the `switch` with the byte (`goto redo_char`), or leaves the loop.  The loops inside some
states consume one byte a round here; that they come to the same as the loops of the source is
shown in `StatsdC.TokenerLoops`.

The stack is the top level and those below it.  What the states can be is part of their types: the
state behind white space is never white space again, and a level below the top waits to add a
value.  So every chain of rounds on one byte is short (`rank`), and `feed` is the end of it; the
fuel of the loop is never used up, and the error that stands for it is not among the results.

A text ends at its NUL, which is a byte like any other to the `switch` and makes most states leave
the loop with an error.  What is behind a complete value is not looked at.  At most 32 levels can
be open, of which the last has room for no value of its own.

The tokener accepts more than JSON: comments, quotes of both kinds, words in any case, and a
comma before a closing bracket.  The model follows the source in all of this, and what is accepted
is described in `StatsdC.JsonWellFormed`.
-/

namespace StatsdC
open CString

/-- `enum json_tokener_state`, with the states that read a token and those that wait behind white
space. -/
inductive JsonTokenerState where
  | eatws | start | finish | null | commentStart | comment | commentEol | commentEnd
  | string | stringEscape | escapeUnicode | boolean | number | array | arrayAdd | arraySep
  | objectFieldStart | objectField | objectFieldEnd | objectValue | objectValueAdd | objectSep
  deriving DecidableEq

/-- `enum json_tokener_error`, without success, and with an error of the model's own for the fuel.
-/
inductive JsonTokenerError where
  | depth | parseEof | parseUnexpected | parseNull | parseBoolean | parseNumber | parseArray
  | parseObjectKeyName | parseObjectKeySep | parseObjectValueSep | parseString | parseComment
  /-- A loop of the model cut short. -/
  | outOfFuel
  deriving DecidableEq

/-- `struct json_tokener_srec`, one level of the stack.  That white space never leads back to itself
is a field of it. -/
structure JsonTokenerSrec where
  state : JsonTokenerState
  savedState : JsonTokenerState
  current : Json
  objFieldName : CString
  savedState_ne : savedState ≠ .eatws

namespace JsonTokenerSrec

/-- `json_tokener_reset_level`: the level waits for the beginning of a value. -/
def reset : JsonTokenerSrec := ⟨.eatws, .start, .null, [], by decide⟩

/-- `state = s`. -/
def goto (r : JsonTokenerSrec) (s : JsonTokenerState) : JsonTokenerSrec := { r with state := s }

/-- `saved_state = s; state = json_tokener_state_eatws`. -/
def eatwsThen (r : JsonTokenerSrec) (s : JsonTokenerState) (hs : s ≠ .eatws := by decide) :
    JsonTokenerSrec :=
  { r with state := .eatws, savedState := s, savedState_ne := hs }

/-- The value of the level is complete. -/
def finishWith (r : JsonTokenerSrec) (current : Json) : JsonTokenerSrec :=
  { r.eatwsThen .finish with current }

end JsonTokenerSrec

/-- A level below the top, which waits for a value to add. -/
structure SuspendedSrec where
  srec : JsonTokenerSrec
  adds : srec.state = .arrayAdd ∨ srec.state = .objectValueAdd

/-- `struct json_tokener`, and the local variable `obj` of the loop. -/
structure JsonTokener where
  pb : CString
  isDouble : Bool
  stPos : Nat
  ucsChar : UInt32
  quoteChar : Char
  obj : Json
  top : JsonTokenerSrec
  below : List SuspendedSrec

/-- `JSON_TOKENER_MAX_DEPTH`, the number of levels of the stack. -/
def jsonTokenerMaxDepth : Nat := 32

/-- `json_number_chars`, the bytes that a number is collected from. -/
def jsonNumberChars : List Char := "0123456789.+-eE".toList

/-- `json_hex_chars`, of which the digits above 9 are small letters only. -/
def jsonHexChars : List Char := "0123456789abcdef".toList

/-- `hexdigit`, which takes a letter's lowest three bits and adds 9. -/
def hexdigit (x : Char) : UInt32 :=
  if x ≤ '9' then UInt32.ofNat x.toNat - 48 else (UInt32.ofNat x.toNat &&& 7) + 9

/-- The bytes of a character in UTF-8, of which there are one, two or three. -/
def utfOut (ucs : UInt32) : CString :=
  let byte (b : UInt32) : Char := Char.ofNat (b &&& 0xff).toNat
  if ucs < 0x80 then [byte ucs]
  else if ucs < 0x800 then [byte (ucs >>> 6 ||| 0xc0), byte (ucs &&& 0x3f ||| 0x80)]
  else
    [byte (ucs >>> 12 ||| 0xe0), byte (ucs >>> 6 &&& 0x3f ||| 0x80),
      byte (ucs &&& 0x3f ||| 0x80)]

/-- `strncasecmp(str, buf, json_min(stPos + 1, strlen(str))) == 0`: the collected text is the word
as far as it goes. -/
def wordMatches (str buf : CString) (stPos : Nat) : Bool :=
  let n := min (stPos + 1) str.length
  (str.take n).map Char.toLower == (buf.take n).map Char.toLower

namespace JsonTokener

/-- The tokener as `json_tokener_new` makes it, with one level and nothing collected. -/
def new : JsonTokener := ⟨[], false, 0, 0, nul, .null, .reset, []⟩

/-- How a round ends: the byte is consumed, handed back, or the last one of the loop. -/
inductive Step where
  | advance (tok : JsonTokener)
  | redo (tok : JsonTokener)
  | out (tok : JsonTokener) (err : Option JsonTokenerError)

/-- The top level in another state. -/
def goto (tok : JsonTokener) (s : JsonTokenerState) : JsonTokener :=
  { tok with top := tok.top.goto s }

/-- The top level with its value complete. -/
def finishWith (tok : JsonTokener) (current : Json) : JsonTokener :=
  { tok with top := tok.top.finishWith current }

/-- The top level behind white space in another state. -/
def eatwsThen (tok : JsonTokener) (s : JsonTokenerState) (hs : s ≠ .eatws := by decide) :
    JsonTokener :=
  { tok with top := tok.top.eatwsThen s hs }

/-- `json_tokener_state_start`, the first byte of a value. -/
def startStep (tok : JsonTokener) (c : Char) : Step :=
  if c = '{' then
    .advance { tok with top := { tok.top.eatwsThen .objectFieldStart with current := .object [] } }
  else if c = '[' then
    .advance { tok with top := { tok.top.eatwsThen .array with current := .array [] } }
  else if c = 'N' ∨ c = 'n' then
    .redo { tok.goto .null with pb := [], stPos := 0 }
  else if c = '"' ∨ c = '\x27' then
    .advance { tok.goto .string with pb := [], quoteChar := c }
  else if c = 'T' ∨ c = 't' ∨ c = 'F' ∨ c = 'f' then
    .redo { tok.goto .boolean with pb := [], stPos := 0 }
  else if c.isDigit ∨ c = '-' then
    .redo { tok.goto .number with pb := [], isDouble := false }
  else
    .out tok (some .parseUnexpected)

/-- `json_tokener_state_finish`: the value goes to the level below, or the loop ends with it. -/
def finishStep (tok : JsonTokener) : Step :=
  match tok.below with
  | [] => .out tok none
  | r :: below => .redo { tok with obj := tok.top.current, top := r.srec, below }

/-- `json_tokener_state_null`, with the byte added to the text that is compared. -/
def nullStep (tok : JsonTokener) (c : Char) : Step :=
  let tok := { tok with pb := tok.pb ++ [c] }
  if wordMatches "null".toList tok.pb tok.stPos then
    if tok.stPos = 4 then .redo (tok.finishWith .null)
    else .advance { tok with stPos := tok.stPos + 1 }
  else
    .out tok (some .parseNull)

/-- `json_tokener_state_boolean`, with the byte added to the text that is compared with either word.
-/
def booleanStep (tok : JsonTokener) (c : Char) : Step :=
  let tok := { tok with pb := tok.pb ++ [c] }
  if wordMatches "true".toList tok.pb tok.stPos then
    if tok.stPos = 4 then .redo (tok.finishWith (.boolean true))
    else .advance { tok with stPos := tok.stPos + 1 }
  else if wordMatches "false".toList tok.pb tok.stPos then
    if tok.stPos = 5 then .redo (tok.finishWith (.boolean false))
    else .advance { tok with stPos := tok.stPos + 1 }
  else
    .out tok (some .parseBoolean)

/-- `json_tokener_state_string` and `json_tokener_state_object_field`, up to what is
done with the text at its end. -/
def quotedStep (tok : JsonTokener) (c : Char) (self : JsonTokenerState) (hself : self ≠ .eatws)
    (close : CString → JsonTokener) : Step :=
  if c = tok.quoteChar then .advance (close (cstr tok.pb 0))
  else if c = '\\' then
    let top := { tok.top.goto .stringEscape with savedState := self, savedState_ne := hself }
    .advance { tok with top }
  else .advance { tok with pb := tok.pb ++ [c] }

/-- `json_tokener_state_string_escape`, the byte behind a backslash. -/
def stringEscapeStep (tok : JsonTokener) (c : Char) : Step :=
  let append (c : Char) : Step :=
    .advance { tok.goto tok.top.savedState with pb := tok.pb ++ [c] }
  if c = '"' ∨ c = '\\' ∨ c = '/' then append c
  else if c = 'b' then append '\x08'
  else if c = 'n' then append '\n'
  else if c = 'r' then append '\r'
  else if c = 't' then append '\t'
  else if c = 'u' then .advance { tok.goto .escapeUnicode with ucsChar := 0, stPos := 0 }
  else .out tok (some .parseString)

/-- `json_tokener_state_escape_unicode`.  To `strchr` the terminating NUL is one of the
digits. -/
def escapeUnicodeStep (tok : JsonTokener) (c : Char) : Step :=
  if c ∈ jsonHexChars ∨ c = nul then
    let ucsChar := tok.ucsChar + hexdigit c <<< UInt32.ofNat ((3 - tok.stPos) * 4)
    let stPos := tok.stPos + 1
    if stPos = 4 then
      .advance { tok.goto tok.top.savedState with pb := tok.pb ++ utfOut ucsChar, ucsChar, stPos }
    else .advance { tok with ucsChar, stPos }
  else
    .out tok (some .parseString)

/-- `json_tokener_state_number`: the byte is collected, or the text is scanned in front of it. -/
def numberStep (tok : JsonTokener) (c : Char) : Step :=
  if c ∈ jsonNumberChars then
    .advance { tok with
      pb := tok.pb ++ [c], isDouble := tok.isDouble || c == '.' || c == 'e' }
  else if tok.isDouble then
    match sscanfLf tok.pb with
    | some d => .redo (tok.finishWith (.double d))
    | none => .out tok (some .parseNumber)
  else
    match sscanfD tok.pb with
    | some i => .redo (tok.finishWith (.int i))
    | none => .out tok (some .parseNumber)

/-- The top level waits to add a value, and a new one is on top of it. -/
def push (tok : JsonTokener) (s : JsonTokenerState) (hs : s = .arrayAdd ∨ s = .objectValueAdd) :
    Step :=
  if tok.below.length + 1 < jsonTokenerMaxDepth then
    .redo { tok with top := .reset, below := ⟨tok.top.goto s, hs⟩ :: tok.below }
  else
    .out tok (some .depth)

/-- One round of the `switch` on one byte, in the state of the top level. -/
def step (tok : JsonTokener) (c : Char) : Step :=
  match tok.top.state with
  | .eatws =>
    if isspace c then .advance tok
    else if c = '/' then .advance { tok.goto .commentStart with pb := [c] }
    else .redo (tok.goto tok.top.savedState)
  | .start => tok.startStep c
  | .finish => tok.finishStep
  | .null => tok.nullStep c
  | .commentStart =>
    if c = '*' then .advance { tok.goto .comment with pb := tok.pb ++ [c] }
    else if c = '/' then .advance { tok.goto .commentEol with pb := tok.pb ++ [c] }
    else .out tok (some .parseComment)
  | .comment =>
    .advance { tok.goto (if c = '*' then .commentEnd else .comment) with pb := tok.pb ++ [c] }
  | .commentEol =>
    if c = '\n' then .advance (tok.goto .eatws)
    else .advance { tok with pb := tok.pb ++ [c] }
  | .commentEnd =>
    .advance { tok.goto (if c = '/' then .eatws else .comment) with pb := tok.pb ++ [c] }
  | .string => tok.quotedStep c .string (by decide) fun s => tok.finishWith (.string s)
  | .stringEscape => tok.stringEscapeStep c
  | .escapeUnicode => tok.escapeUnicodeStep c
  | .boolean => tok.booleanStep c
  | .number => tok.numberStep c
  | .array =>
    if c = ']' then .advance (tok.eatwsThen .finish)
    else tok.push .arrayAdd (.inl rfl)
  | .arrayAdd =>
    .redo { tok with
      top := { tok.top.eatwsThen .arraySep with current := tok.top.current.arrayAdd tok.obj } }
  | .arraySep =>
    if c = ']' then .advance (tok.eatwsThen .finish)
    else if c = ',' then .advance (tok.eatwsThen .array)
    else .out tok (some .parseArray)
  | .objectFieldStart =>
    if c = '}' then .advance (tok.eatwsThen .finish)
    else if c = '"' ∨ c = '\x27' then
      .advance { tok.goto .objectField with quoteChar := c, pb := [] }
    else .out tok (some .parseObjectKeyName)
  | .objectField =>
    tok.quotedStep c .objectField (by decide) fun s =>
      { tok with top := { tok.top.eatwsThen .objectFieldEnd with objFieldName := s } }
  | .objectFieldEnd =>
    if c = ':' then .advance (tok.eatwsThen .objectValue)
    else .out tok (some .parseObjectKeySep)
  | .objectValue => tok.push .objectValueAdd (.inr rfl)
  | .objectValueAdd =>
    let current := tok.top.current.objectAdd tok.top.objFieldName tok.obj
    .redo { tok with top := { tok.top.eatwsThen .objectSep with current, objFieldName := [] } }
  | .objectSep =>
    if c = '}' then .advance (tok.eatwsThen .finish)
    else if c = ',' then .advance (tok.eatwsThen .objectFieldStart)
    else .out tok (some .parseObjectValueSep)

/-- What becomes of a byte: it is consumed, or the loop ends at it. -/
inductive Fed where
  | advance (tok : JsonTokener)
  | out (tok : JsonTokener) (err : Option JsonTokenerError)

/-- At most `fuel` rounds on one byte.  A round that hands the byte back is followed by the next
one. -/
def feedLoop : Nat → JsonTokener → Char → Fed
  | 0, tok, _ => .out tok (some .outOfFuel)
  | fuel + 1, tok, c =>
    match tok.step c with
    | .advance tok => .advance tok
    | .out tok err => .out tok err
    | .redo tok => feedLoop fuel tok c

/-- How many times a state can go back to the `switch` on one byte, as a bound that each such round
decreases. -/
def stateRank : JsonTokenerState → Nat
  | .arrayAdd | .objectValueAdd => 2
  | .finish => 3
  | .null | .boolean | .number => 5
  | .start => 6
  | .array | .objectValue => 8
  | _ => 0

/-- The rank of the top level's state.  White space ahead of a state costs one round more. -/
def rank (tok : JsonTokener) : Nat :=
  if tok.top.state = .eatws then stateRank tok.top.savedState + 1 else stateRank tok.top.state

/-- The rounds on one byte, with more fuel than any byte needs. -/
def feed (tok : JsonTokener) (c : Char) : Fed := feedLoop 10 tok c

/-- Behind the loop, which the byte `c` ended: the value of the top level, or the error of the
parse. -/
def leave (tok : JsonTokener) (c : Char) (err : Option JsonTokenerError) :
    Except JsonTokenerError Json :=
  if c = nul ∧ tok.top.state ≠ .finish ∧ tok.top.savedState ≠ .finish then .error .parseEof
  else
    match err with
    | some e => .error e
    | none => .ok tok.top.current

/-- The loop over the text and its NUL, from any state of the tokener on. -/
def run (tok : JsonTokener) : CString → Except JsonTokenerError Json
  | [] =>
    match tok.feed nul with
    | .advance tok => tok.leave nul none
    | .out tok err => tok.leave nul err
  | c :: text =>
    match tok.feed c with
    | .advance tok => run tok text
    | .out tok err => tok.leave c err

end JsonTokener

/-- `json_tokener_parse`.  An error stands for the pointer that `error_ptr` makes of
it. -/
def jsonTokenerParse (str : CString) : Except JsonTokenerError Json := JsonTokener.new.run str

/-- The value at a pointer that `json_tokener_parse` returned.  To follow an error is a fault, since
its address is a small negative number. -/
def follow : Except JsonTokenerError Json → Except JsonFault Json
  | .ok jso => .ok jso
  | .error _ => .error .errorPointer

namespace JsonTokener

/-! ## The rounds on a byte end -/

theorem rank_finishWith (tok : JsonTokener) (v : Json) : (tok.finishWith v).rank = 4 := rfl

theorem rank_of_state {tok : JsonTokener} {s : JsonTokenerState} (hs : tok.top.state = s)
    (hne : s ≠ .eatws) : tok.rank = stateRank s := by
  rw [rank, hs, if_neg hne]

/-- The state that the byte is handed back to can do so less often, which is why the rounds end. -/
theorem rank_lt_of_step_redo {tok tok' : JsonTokener} {c : Char} (h : tok.step c = .redo tok') :
    tok'.rank < tok.rank := by
  cases hs : tok.top.state with
  | eatws =>
    simp only [step, hs] at h
    split at h
    · cases h
    · split at h
      · cases h
      · obtain rfl := Step.redo.inj h
        rw [rank_of_state (s := tok.top.savedState) rfl tok.top.savedState_ne, rank, if_pos hs]
        exact Nat.lt_succ_self _
  | start =>
    rw [rank_of_state hs (by decide)]
    simp only [step, hs, startStep] at h
    repeat' split at h
    all_goals cases h
    all_goals exact Nat.lt_succ_self 5
  | finish =>
    rw [rank_of_state hs (by decide)]
    simp only [step, hs, finishStep] at h
    split at h
    · cases h
    · rename_i r below _
      obtain rfl := Step.redo.inj h
      rcases r.adds with hr | hr <;> rw [rank_of_state hr (by decide)] <;> decide
  | null | boolean | number =>
    rw [rank_of_state hs (by decide)]
    simp only [step, hs, nullStep, booleanStep, numberStep] at h
    repeat' split at h
    all_goals cases h
    all_goals rw [rank_finishWith]; decide
  | array | objectValue =>
    rw [rank_of_state hs (by decide)]
    simp only [step, hs, push] at h
    repeat' split at h
    all_goals cases h
    all_goals exact Nat.lt_succ_self 7
  | arrayAdd | objectValueAdd =>
    rw [rank_of_state hs (by decide)]
    simp only [step, hs] at h
    obtain rfl := Step.redo.inj h
    exact Nat.lt_succ_self 1
  | commentStart | comment | commentEol | commentEnd | string | stringEscape | escapeUnicode
    | arraySep | objectFieldStart | objectField | objectFieldEnd | objectSep =>
    -- these consume every byte
    simp only [step, hs, quotedStep, stringEscapeStep, escapeUnicodeStep] at h
    repeat' split at h
    all_goals cases h

theorem rank_lt (tok : JsonTokener) : tok.rank < 10 := by
  have hstate : ∀ s, stateRank s ≤ 8 := by
    intro s
    cases s <;> decide
  unfold rank
  split
  · have := hstate tok.top.savedState
    omega
  · have := hstate tok.top.state
    omega

theorem feedLoop_eq {n m : Nat} {tok : JsonTokener} {c : Char} (hn : tok.rank < n)
    (hm : tok.rank < m) : feedLoop n tok c = feedLoop m tok c := by
  induction n generalizing m tok with
  | zero => omega
  | succ n ih =>
    obtain ⟨m, rfl⟩ : ∃ k, m = k + 1 := ⟨m - 1, by omega⟩
    unfold feedLoop
    cases h : tok.step c with
    | advance tok' => rfl
    | out tok' err => rfl
    | redo tok' =>
      have hlt := rank_lt_of_step_redo h
      exact ih (by omega) (by omega)

/-- **The rounds on a byte**, without the bound: a byte that is handed back is fed again. -/
theorem feed_eq (tok : JsonTokener) (c : Char) :
    tok.feed c =
      match tok.step c with
      | .advance tok => .advance tok
      | .out tok err => .out tok err
      | .redo tok => tok.feed c := by
  have hunfold : tok.feed c = feedLoop 11 tok c :=
    feedLoop_eq (rank_lt tok) ((rank_lt tok).trans (by decide))
  rw [hunfold]
  rfl

/-- A byte that a round hands back is fed to the state it is handed to. -/
theorem feed_redo {tok tok' : JsonTokener} {c : Char} (h : tok.step c = .redo tok') :
    tok.feed c = tok'.feed c := by
  rw [feed_eq, h]

/-- Induction over the rounds on a byte, which every invariant of the tokener goes by. -/
theorem rounds_induction (c : Char) {motive : JsonTokener → Prop}
    (round : ∀ tok, (∀ tok', tok.step c = .redo tok' → motive tok') → motive tok)
    (tok : JsonTokener) : motive tok := by
  induction hn : tok.rank using Nat.strong_induction_on generalizing tok with
  | h n ih =>
    subst hn
    exact round tok fun tok' hstep => ih _ (rank_lt_of_step_redo hstep) tok' rfl

/-- A round ends the loop with an error of the source's own, never with the one for the fuel. -/
theorem step_ne_outOfFuel (tok tok' : JsonTokener) (c : Char) :
    tok.step c ≠ .out tok' (some .outOfFuel) := by
  intro h
  simp only [step, startStep, finishStep, nullStep, booleanStep, quotedStep, stringEscapeStep,
    escapeUnicodeStep, numberStep, push] at h
  repeat' split at h
  all_goals cases h

theorem feed_ne_outOfFuel (tok tok' : JsonTokener) (c : Char) :
    tok.feed c ≠ .out tok' (some .outOfFuel) := by
  induction tok using rounds_induction c with
  | round tok ih =>
    intro hout
    rw [feed_eq] at hout
    cases hstep : tok.step c with
    | advance tok₁ =>
      rw [hstep] at hout
      cases hout
    | redo tok₁ =>
      rw [hstep] at hout
      exact ih tok₁ hstep hout
    | out tok₁ err =>
      rw [hstep] at hout
      obtain ⟨rfl, rfl⟩ := Fed.out.inj hout
      exact step_ne_outOfFuel tok tok₁ c hstep

theorem leave_ne_outOfFuel {tok : JsonTokener} {c : Char} {err : Option JsonTokenerError}
    (h : err ≠ some .outOfFuel) : tok.leave c err ≠ .error .outOfFuel := by
  unfold leave
  split
  · rintro ⟨⟩
  · split
    · rintro ⟨⟩
      exact h rfl
    · rintro ⟨⟩

theorem run_ne_outOfFuel (tok : JsonTokener) (text : CString) :
    tok.run text ≠ .error .outOfFuel := by
  induction text generalizing tok with
  | nil =>
    unfold run
    cases h : tok.feed nul with
    | advance tok' => exact leave_ne_outOfFuel (by rintro ⟨⟩)
    | out tok' err => exact leave_ne_outOfFuel fun herr => feed_ne_outOfFuel _ _ _ (herr ▸ h)
  | cons c text ih =>
    unfold run
    cases h : tok.feed c with
    | advance tok' => exact ih tok'
    | out tok' err => exact leave_ne_outOfFuel fun herr => feed_ne_outOfFuel _ _ _ (herr ▸ h)

end JsonTokener

/-- **The bound on the rounds is never reached**, whatever the text, so that it is no part of the
result. -/
theorem jsonTokenerParse_ne_outOfFuel (str : CString) :
    jsonTokenerParse str ≠ .error .outOfFuel :=
  JsonTokener.run_ne_outOfFuel .new str

end StatsdC
