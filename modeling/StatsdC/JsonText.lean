import StatsdC.JsonTokener

/-!
# What json-c prints and reads

A printed value is read back by the tokener as the value with every number to six decimals,
provided all its numbers are finite; a text with an `inf` or `nan` in it is rejected
(`reads_toJsonString`).  The printer and the tokener agree on everything but these: every escape
that one writes the other reads, and what the printer puts between entries and elements is what the
tokener skips.

The tokener's registers are of no interest here.  A position in a text is described by what the
levels hold: `Waiting` between tokens, `InQuotes` inside a string, and there are rules that say what
a piece of text does at such a position.  `Reads` is the rule for the text of a value: it fills the
level it is in and leaves the others alone, whatever text comes behind.  This is what the induction
over the value is about, and it goes through its entries and elements as the printer does.

A value that is printed has to be one that the printer can be given by the tokener, or by the
snapshot: no key twice in an object, no NUL in a string, and no more levels than the tokener has.
Numbers are the only part that may change.  An integer is read back as it is; a double is read back
to six decimals, and from then on stays the same, since it is printed as before.
-/

namespace StatsdC
open CString Decimal

namespace Json

mutual

/-- The value that the text of a value is read back as, if that has only finite
numbers. -/
def readBack : Json → Option Json
  | null => some null
  | boolean b => some (boolean b)
  | double (.fin q) => some (double (Num.fin q).toSix)
  | double .negZero => some (double .negZero)
  | double (.inf _) | double .nan => none
  | int i => some (int i)
  | object entries => (readBackEntries [] entries).map object
  | array elements => (readBackElements [] elements).map array
  | string s => some (string s)

/-- The entries of an object, behind those in `acc`, each with its value as it is read back. -/
def readBackEntries (acc : List (CString × Json)) :
    List (CString × Json) → Option (List (CString × Json))
  | [] => some acc
  | (key, val) :: entries =>
    match readBack val with
    | some v => readBackEntries (lhTableAdd acc key v) entries
    | none => none

/-- The elements of an array, behind those in `acc`. -/
def readBackElements (acc : List Json) : List Json → Option (List Json)
  | [] => some acc
  | val :: elements =>
    match readBack val with
    | some v => readBackElements (acc ++ [v]) elements
    | none => none

end

mutual

/-- A value that json-c can hold, at most `levels` deep: its ints are in range, and no string has a
NUL. -/
def Fits (levels : Nat) : Json → Prop
  | null | boolean _ | double _ => True
  | int i => -2 ^ 31 ≤ i ∧ i < 2 ^ 31
  | object entries => 0 < levels ∧ EntriesFit (levels - 1) entries
  | array elements => 0 < levels ∧ ElementsFit (levels - 1) elements
  | string s => nul ∉ s

/-- Entries with such values. -/
def EntriesFit (levels : Nat) : List (CString × Json) → Prop
  | [] => True
  | (key, val) :: entries => nul ∉ key ∧ Fits levels val ∧ EntriesFit levels entries

/-- Elements that are such values. -/
def ElementsFit (levels : Nat) : List Json → Prop
  | [] => True
  | val :: elements => Fits levels val ∧ ElementsFit levels elements

end

end Json

namespace JsonTokener

variable {tok tok' : JsonTokener} {c : Char} {text rest : CString}

/-! ## Rules for runs -/

/-- A byte that is handed back, or the NUL, is taken up by the state it is handed to. -/
theorem run_redo (h : tok.step (rest.headD nul) = .redo tok') : tok.run rest = tok'.run rest := by
  have hfeed := feed_redo h
  cases rest with
  | nil =>
    rw [List.headD_nil] at hfeed
    rw [run, run, hfeed]
  | cons c rest =>
    rw [List.headD_cons] at hfeed
    rw [run, run, hfeed]

/-- A byte that is consumed. -/
theorem run_advance (h : tok.step c = .advance tok') : tok.run (c :: rest) = tok'.run rest := by
  rw [run, feed_eq, h]

/-- A byte that ends the loop with an error makes the whole parse one, wherever it stands. -/
theorem run_error {err : JsonTokenerError} (h : tok.step c = .out tok' (some err)) :
    ∃ e, tok.run (c :: rest) = .error e := by
  rw [run, feed_eq, h]
  by_cases hnul : c = nul ∧ tok'.top.state ≠ .finish ∧ tok'.top.savedState ≠ .finish
  · exact ⟨.parseEof, if_pos hnul⟩
  · exact ⟨err, if_neg hnul⟩

/-! ## Between tokens -/

/-- The top level skips white space, and is then in state `s`. -/
structure Waiting (tok : JsonTokener) (s : JsonTokenerState) (current : Json)
    (below : List SuspendedSrec) : Prop where
  state : tok.top.state = .eatws
  savedState : tok.top.savedState = s
  current : tok.top.current = current
  below : tok.below = below

variable {s s' : JsonTokenerState} {current v : Json} {below : List SuspendedSrec}

theorem waiting_reset (h : tok.top = .reset) : Waiting tok .start .null tok.below := by
  refine ⟨?_, ?_, ?_, rfl⟩ <;> rw [h] <;> rfl

theorem waiting_finishWith (tok : JsonTokener) (v : Json) :
    Waiting (tok.finishWith v) .finish v tok.below := ⟨rfl, rfl, rfl, rfl⟩

theorem Waiting.run_space (h : Waiting tok s current below) (hc : isspace c) :
    tok.run (c :: rest) = tok.run rest := by
  refine run_advance ?_
  simp only [step, h.state, hc, if_true]

/-- The first byte of a token is for the state behind the white space, to which the tokener goes
without consuming it. -/
theorem Waiting.run_goto (h : Waiting tok s current below)
    (hc : isspace (rest.headD nul) = false) (hslash : rest.headD nul ≠ '/') :
    tok.run rest = (tok.goto s).run rest := by
  refine run_redo ?_
  simp only [step, h.state, hc, if_neg hslash, h.savedState, Bool.false_eq_true, if_false]

theorem Waiting.run_goto_cons (h : Waiting tok s current below) (hc : isspace c = false)
    (hslash : c ≠ '/') : tok.run (c :: rest) = (tok.goto s).run (c :: rest) :=
  h.run_goto hc hslash

/-- A byte that only leads to another state. -/
theorem Waiting.run_punct (h : Waiting tok s current below) (c : Char) (hc : isspace c = false)
    (hslash : c ≠ '/') {hs : s' ≠ .eatws}
    (hstep : (tok.goto s).step c = .advance ((tok.goto s).eatwsThen s' hs)) :
    ∃ tok', Waiting tok' s' current below ∧ ∀ rest, tok.run (c :: rest) = tok'.run rest := by
  refine ⟨(tok.goto s).eatwsThen s' hs, ⟨rfl, rfl, h.current, h.below⟩, fun rest => ?_⟩
  rw [h.run_goto_cons hc hslash]
  exact run_advance hstep

/-! ## Inside quotes -/

/-- The top level reads a quoted text in state `s`, and has read `pb` of it. -/
structure InQuotes (tok : JsonTokener) (s : JsonTokenerState) (current : Json)
    (below : List SuspendedSrec) (pb : CString) : Prop where
  quotes : s = .string ∨ s = .objectField
  state : tok.top.state = s
  quoteChar : tok.quoteChar = '"'
  current : tok.top.current = current
  below : tok.below = below
  pb : tok.pb = pb

variable {pb : CString}

/-- A backslash leads to the state of the escape, from which the tokener comes back to the string.
-/
theorem InQuotes.run_backslash (h : InQuotes tok s current below pb) :
    ∃ tok' : JsonTokener, tok'.top.state = .stringEscape ∧
      InQuotes (tok'.goto tok'.top.savedState) s current below pb ∧
      ∀ rest, tok.run ('\\' :: rest) = tok'.run rest := by
  have hquote : '\\' ≠ tok.quoteChar := by
    rw [h.quoteChar]
    decide
  have hne : s ≠ .eatws := by rcases h.quotes with rfl | rfl <;> decide
  refine ⟨{ tok with
      top := { tok.top.goto .stringEscape with savedState := s, savedState_ne := hne } },
    rfl, ⟨h.quotes, rfl, h.quoteChar, h.current, h.below, h.pb⟩, fun rest => run_advance ?_⟩
  rcases h.quotes with rfl | rfl
  all_goals simp only [step, h.state, quotedStep, if_neg hquote, if_true]

/-- A byte that stands for itself. -/
theorem InQuotes.run_plain (h : InQuotes tok s current below pb) (hquote : c ≠ '"')
    (hslash : c ≠ '\\') :
    ∃ tok', InQuotes tok' s current below (pb ++ [c]) ∧
      ∀ rest, tok.run (c :: rest) = tok'.run rest := by
  refine ⟨{ tok with pb := tok.pb ++ [c] },
    ⟨h.quotes, h.state, h.quoteChar, h.current, h.below, congrArg (· ++ [c]) h.pb⟩,
    fun rest => run_advance ?_⟩
  rcases h.quotes with rfl | rfl
  all_goals simp only [step, h.state, quotedStep, h.quoteChar, if_neg hquote, if_neg hslash]

/-- An escape of two bytes adds the character that it stands for. -/
theorem InQuotes.run_escape (h : InQuotes tok s current below pb) {e : Char}
    (hstep : ∀ tok : JsonTokener, tok.stringEscapeStep e =
      .advance { tok.goto tok.top.savedState with pb := tok.pb ++ [c] }) :
    ∃ tok', InQuotes tok' s current below (pb ++ [c]) ∧
      ∀ rest, tok.run ('\\' :: e :: rest) = tok'.run rest := by
  obtain ⟨tok₁, hstate, hin, hrun⟩ := h.run_backslash
  refine ⟨{ tok₁.goto tok₁.top.savedState with pb := tok₁.pb ++ [c] },
    ⟨h.quotes, hin.state, hin.quoteChar, hin.current, hin.below, congrArg (· ++ [c]) hin.pb⟩,
    fun rest => ?_⟩
  rw [hrun]
  refine run_advance ?_
  simp only [step, hstate, hstep]

/-- The number that four digits spell, as the tokener adds it up. -/
def fourDigits (d₁ d₂ d₃ d₄ : Char) : UInt32 :=
  0 + hexdigit d₁ <<< UInt32.ofNat ((3 - 0) * 4) + hexdigit d₂ <<< UInt32.ofNat ((3 - 1) * 4) +
    hexdigit d₃ <<< UInt32.ofNat ((3 - 2) * 4) + hexdigit d₄ <<< UInt32.ofNat ((3 - 3) * 4)

/-- The digits of an escape of six bytes. -/
theorem hexDigits_control : ∀ n < 32,
    Nat.digitChar (n / 16) ∈ jsonHexChars ∧ Nat.digitChar (n % 16) ∈ jsonHexChars ∧
      utfOut (fourDigits '0' '0' (Nat.digitChar (n / 16)) (Nat.digitChar (n % 16))) =
        [Char.ofNat n] := by
  decide

theorem step_escapeUnicode (h : tok.top.state = .escapeUnicode) (hc : c ∈ jsonHexChars) :
    tok.step c =
      let ucsChar := tok.ucsChar + hexdigit c <<< UInt32.ofNat ((3 - tok.stPos) * 4)
      let stPos := tok.stPos + 1
      if stPos = 4 then
        .advance { tok.goto tok.top.savedState with pb := tok.pb ++ utfOut ucsChar, ucsChar, stPos }
      else .advance { tok with ucsChar, stPos } := by
  simp only [step, h, escapeUnicodeStep, if_pos (Or.inl hc)]

/-- An escape of six bytes adds the control character that it stands for. -/
theorem InQuotes.run_unicode (h : InQuotes tok s current below pb) (hc : c.toNat < 32) :
    ∃ tok', InQuotes tok' s current below (pb ++ [c]) ∧
      ∀ rest, tok.run ('\\' :: 'u' :: '0' :: '0' :: Nat.digitChar (c.toNat / 16) ::
        Nat.digitChar (c.toNat % 16) :: rest) = tok'.run rest := by
  obtain ⟨hhigh, hlow, hutf⟩ := hexDigits_control c.toNat hc
  rw [Char.ofNat_toNat] at hutf
  obtain ⟨tok₁, hstate, hin, hrun⟩ := h.run_backslash
  have hzero : '0' ∈ jsonHexChars := by decide
  generalize Nat.digitChar (c.toNat / 16) = high at hhigh hutf
  generalize Nat.digitChar (c.toNat % 16) = low at hlow hutf
  refine ⟨{ tok₁.goto tok₁.top.savedState with
      pb := tok₁.pb ++ [c], ucsChar := fourDigits '0' '0' high low, stPos := 4 },
    ⟨h.quotes, hin.state, hin.quoteChar, hin.current, hin.below, congrArg (· ++ [c]) hin.pb⟩,
    fun rest => ?_⟩
  have hu : tok₁.step 'u' =
      .advance { tok₁.goto .escapeUnicode with ucsChar := 0, stPos := 0 } := by
    simp only [step, hstate]
    rfl
  rw [hrun, run_advance hu, run_advance (step_escapeUnicode rfl hzero),
    run_advance (step_escapeUnicode rfl hzero), run_advance (step_escapeUnicode rfl hhigh)]
  refine run_advance ((step_escapeUnicode rfl hlow).trans ?_)
  rw [← hutf]
  rfl

/-- **A quoted text is read as what was escaped.** -/
theorem InQuotes.run_escapeStr (h : InQuotes tok s current below pb) (text : CString) :
    ∃ tok', InQuotes tok' s current below (pb ++ text) ∧
      ∀ rest, tok.run (Json.escapeStr text ++ rest) = tok'.run rest := by
  induction text generalizing tok pb with
  | nil => exact ⟨tok, by rwa [List.append_nil], fun rest => rfl⟩
  | cons c text ih =>
    have hone : ∃ tok', InQuotes tok' s current below (pb ++ [c]) ∧
        ∀ rest, tok.run (Json.escape c ++ rest) = tok'.run rest := by
      unfold Json.escape
      split
      any_goals exact h.run_escape fun _ => rfl
      split
      · rename_i hlt
        exact h.run_unicode hlt
      · exact h.run_plain (by assumption) (by assumption)
    obtain ⟨tok₁, hin, hrun⟩ := hone
    obtain ⟨tok₂, hin₂, hrun₂⟩ := ih hin
    refine ⟨tok₂, by simpa using hin₂, fun rest => ?_⟩
    rw [Json.escapeStr, List.flatMap_cons, List.append_assoc, hrun]
    exact hrun₂ rest

/-- Between quotes, `raw` stands for `text`, in whichever string state the tokener is. -/
def Spells (raw text : CString) : Prop :=
  ∀ {tok : JsonTokener} {s : JsonTokenerState} {current : Json} {below : List SuspendedSrec}
    {pb : CString}, InQuotes tok s current below pb →
    ∃ tok', InQuotes tok' s current below (pb ++ text) ∧
      ∀ rest, tok.run (raw ++ rest) = tok'.run rest

theorem spells_escapeStr (text : CString) : Spells (Json.escapeStr text) text :=
  fun h => h.run_escapeStr text

/-- Bytes that need no escape stand for themselves. -/
theorem spells_plain (htext : ∀ c ∈ text, c ≠ '"' ∧ c ≠ '\\') : Spells text text := by
  intro tok s current below pb h
  induction text generalizing tok pb with
  | nil => exact ⟨tok, by rwa [List.append_nil], fun rest => rfl⟩
  | cons c text ih =>
    obtain ⟨hquote, hslash⟩ := htext c (List.mem_cons_self ..)
    obtain ⟨tok₁, hin, hrun⟩ := h.run_plain hquote hslash
    obtain ⟨tok₂, hin₂, hrun₂⟩ := ih (fun d hd => htext d (List.mem_cons_of_mem _ hd)) hin
    exact ⟨tok₂, by simpa using hin₂, fun rest => (hrun _).trans (hrun₂ rest)⟩

/-! ## Values -/

/-- What becomes of a value's text in front of `rest`: its level is complete with the
value `o`, or the text is rejected. -/
def Yields (r : Except JsonTokenerError Json) (rest : CString) (below : List SuspendedSrec)
    (o : Option Json) : Prop :=
  match o with
  | some v => ∃ tok', Waiting tok' .finish v below ∧ r = tok'.run rest
  | none => ∃ e, r = .error e

/-- Where `levels` levels are free, `text` is the text of the value `o`; with `none` for `o`, it is
read as an error. -/
def Reads (levels : Nat) (text : CString) (o : Option Json) : Prop :=
  ∀ (tok : JsonTokener) (rest : CString), tok.top = .reset →
    tok.below.length + levels < jsonTokenerMaxDepth → rest.headD nul ∉ jsonNumberChars →
    Yields (tok.run (text ++ rest)) rest tok.below o

/-- The first byte of a value, which tells it from white space, a comment and the end of an array.
-/
def startsValue (c : Char) : Bool := !isspace c && c != '/' && c != ']'

theorem startsValue_of_isDigit (h : c.isDigit = true) : startsValue c = true := by
  have hspace := isspace_of_isDigit h
  have hslash : c ≠ '/' := by rintro rfl; cases h
  have hbracket : c ≠ ']' := by rintro rfl; cases h
  simp [startsValue, hspace, hslash, hbracket]

/-- A value is begun in the start state. -/
theorem run_start (htop : tok.top = .reset) (hc : startsValue c = true) :
    tok.run (c :: rest) = (tok.goto .start).run (c :: rest) := by
  simp only [startsValue, Bool.and_eq_true, Bool.not_eq_true', bne_iff_ne, ne_eq] at hc
  exact (waiting_reset htop).run_goto hc.1.1 hc.1.2

/-! ### Numbers -/

theorem mem_jsonNumberChars_of_isDigit (h : c.isDigit = true) : c ∈ jsonNumberChars := by
  obtain ⟨hlo, hhi⟩ := Char.isDigit_iff_toNat.mp h
  have hall : ∀ n < 58, 48 ≤ n → Char.ofNat n ∈ jsonNumberChars := by decide
  have h0 : '0'.toNat = 48 := by decide
  have h9 : '9'.toNat = 57 := by decide
  have hmem := hall c.toNat (by omega) (by omega)
  rwa [Char.ofNat_toNat] at hmem

/-- A byte that makes a number a `double`.  Only the small `e` does so. -/
def isDoubleChar (c : Char) : Bool := c == '.' || c == 'e'

/-- The tokener in the number state, with a text that it has collected. -/
def collect (tok : JsonTokener) (text : CString) : JsonTokener :=
  { tok.goto .number with pb := text, isDouble := text.any isDoubleChar }

theorem collect_step (pb : CString) (hc : c ∈ jsonNumberChars) :
    (tok.collect pb).step c = .advance (tok.collect (pb ++ [c])) := by
  simp only [collect, step, goto, JsonTokenerSrec.goto, numberStep, if_pos hc, List.any_append,
    List.any_cons, List.any_nil, Bool.or_false, isDoubleChar, Bool.or_assoc]

/-- The bytes of a number are collected, up to the first byte that is none of a number's. -/
theorem run_collect (pb : CString) (hds : ∀ c ∈ text, c ∈ jsonNumberChars) :
    (tok.collect pb).run (text ++ rest) = (tok.collect (pb ++ text)).run rest := by
  induction text generalizing pb with
  | nil => rw [List.nil_append, List.append_nil]
  | cons c text ih =>
    rw [List.cons_append, run_advance (collect_step pb (hds c (List.mem_cons_self ..))),
      ih _ fun d hd => hds d (List.mem_cons_of_mem _ hd), List.append_assoc, List.singleton_append]

/-- A number from its first byte to its last. -/
theorem run_number (htop : tok.top = .reset) (hc : c.isDigit = true ∨ c = '-')
    (hds : ∀ d ∈ c :: text, d ∈ jsonNumberChars) :
    tok.run (c :: text ++ rest) = (tok.collect (c :: text)).run rest := by
  have hstart : startsValue c = true := by
    rcases hc with hc | rfl
    · exact startsValue_of_isDigit hc
    · decide
  have hredo : (tok.goto .start).step c = .redo (tok.collect []) := by
    have hnot : ∀ d, d.isDigit = false → d ≠ '-' → c ≠ d := by
      rintro d hd hminus rfl
      rcases hc with hc | rfl
      · rw [hd] at hc
        cases hc
      · exact hminus rfl
    simp only [step, goto, JsonTokenerSrec.goto, startStep, hnot '{' rfl (by decide),
      hnot '[' rfl (by decide), hnot 'N' rfl (by decide), hnot 'n' rfl (by decide),
      hnot '"' rfl (by decide), hnot '\x27' rfl (by decide), hnot 'T' rfl (by decide),
      hnot 't' rfl (by decide), hnot 'F' rfl (by decide), hnot 'f' rfl (by decide), hc,
      or_self, if_false, if_true]
    rfl
  rw [List.cons_append, run_start htop hstart, run_redo hredo]
  exact run_collect [] hds

/-- A number with a point is read by `sscanf` with `%lf`. -/
theorem reads_double {levels : Nat} {d : Num} (hc : c.isDigit = true ∨ c = '-')
    (hds : ∀ e ∈ c :: text, e ∈ jsonNumberChars) (hpoint : '.' ∈ c :: text)
    (hscan : sscanfLf (c :: text) = some d) : Reads levels (c :: text) (some (.double d)) := by
  intro tok rest htop _ hrest
  have hdouble : (c :: text).any isDoubleChar = true := List.any_eq_true.mpr ⟨'.', hpoint, rfl⟩
  have hstep : (tok.collect (c :: text)).step (rest.headD nul) =
      .redo ((tok.collect (c :: text)).finishWith (.double d)) := by
    rw [show (tok.collect (c :: text)).step (rest.headD nul) =
      (tok.collect (c :: text)).numberStep (rest.headD nul) from rfl]
    simp only [numberStep, if_neg hrest, collect, hdouble, if_true, hscan]
  rw [run_number htop hc hds, run_redo hstep]
  exact ⟨_, waiting_finishWith (tok.collect (c :: text)) _, rfl⟩

/-- A number without a point or exponent is read by `sscanf` with `%d`. -/
theorem reads_int {levels : Nat} {i : Int} (hc : c.isDigit = true ∨ c = '-')
    (hds : ∀ e ∈ c :: text, e ∈ jsonNumberChars)
    (hint : ∀ e ∈ c :: text, isDoubleChar e = false)
    (hscan : sscanfD (c :: text) = some i) : Reads levels (c :: text) (some (.int i)) := by
  intro tok rest htop _ hrest
  have hdouble : (c :: text).any isDoubleChar = false :=
    List.any_eq_false.mpr fun e he => by rw [hint e he]; exact Bool.false_ne_true
  have hstep : (tok.collect (c :: text)).step (rest.headD nul) =
      .redo ((tok.collect (c :: text)).finishWith (.int i)) := by
    rw [show (tok.collect (c :: text)).step (rest.headD nul) =
      (tok.collect (c :: text)).numberStep (rest.headD nul) from rfl]
    simp only [numberStep, if_neg hrest, collect, hdouble, Bool.false_eq_true, if_false, hscan]
  rw [run_number htop hc hds, run_redo hstep]
  exact ⟨_, waiting_finishWith (tok.collect (c :: text)) _, rfl⟩

theorem mem_jsonNumberChars_of_mem_printFixed {places n : Nat} (h : c ∈ printFixed places n) :
    c ∈ jsonNumberChars := by
  rcases List.mem_append.mp h with h | h
  · exact mem_jsonNumberChars_of_isDigit (isDigit_of_mem_printNat h)
  · rcases List.mem_cons.mp h with rfl | h
    · decide
    · exact mem_jsonNumberChars_of_isDigit (isDigit_of_mem_leftpad h)

theorem point_mem_printFixed (places n : Nat) : '.' ∈ printFixed places n :=
  List.mem_append_right _ (List.mem_cons_self ..)

/-- A fixed-point number. -/
theorem reads_printFixed {levels places n : Nat} {v : Num}
    (hscan : sscanfLf (printFixed places n) = some v) :
    Reads levels (printFixed places n) (some (.double v)) := by
  obtain ⟨c, d, text, htext, hc, -⟩ := printFixed_head places n
  have hpoint := point_mem_printFixed places n
  have hds : ∀ e ∈ printFixed places n, e ∈ jsonNumberChars :=
    fun e => mem_jsonNumberChars_of_mem_printFixed
  rw [htext] at hscan hpoint hds ⊢
  exact reads_double (.inl hc) hds hpoint hscan

/-- A fixed-point number behind a minus. -/
theorem reads_minus_printFixed {levels places n : Nat} {v : Num}
    (hscan : sscanfLf ('-' :: printFixed places n) = some v) :
    Reads levels ('-' :: printFixed places n) (some (.double v)) := by
  refine reads_double (.inr rfl) ?_ (List.mem_cons_of_mem _ (point_mem_printFixed places n)) hscan
  rintro e (_ | ⟨_, he⟩)
  · decide
  · exact mem_jsonNumberChars_of_mem_printFixed he

/-- A finite number comes back as the text of six decimals has it. -/
theorem reads_printLf {levels : Nat} {d : Num} (hd : d.IsFinite) :
    Reads levels (printLf d) (some (.double d.toSix)) := by
  have hscan := sscanfLf_printLf hd
  cases d with
  | fin q =>
    simp only [printLf] at hscan ⊢
    split at hscan
    · rename_i hneg
      rw [if_pos hneg]
      exact reads_minus_printFixed hscan
    · rename_i hneg
      rw [if_neg hneg]
      exact reads_printFixed hscan
  | negZero => exact reads_minus_printFixed hscan
  | inf neg => exact hd.elim
  | nan => exact hd.elim

/-- An `int` comes back as it was. -/
theorem reads_printD {levels : Nat} {i : Int} (hlo : -2 ^ 31 ≤ i) (hhi : i < 2 ^ 31) :
    Reads levels (printD i) (some (.int i)) := by
  have hscan := sscanfD_printD hlo hhi
  obtain ⟨c, ds, heq, hc⟩ := printNat_eq_cons i.natAbs
  have hdigits : ∀ d ∈ c :: ds, d.isDigit = true := fun d hd => isDigit_of_mem_printNat (heq ▸ hd)
  have hint : ∀ d ∈ c :: ds, isDoubleChar d = false := by
    intro d hd
    have hdigit := hdigits d hd
    have hpoint : d ≠ '.' := by rintro rfl; cases hdigit
    have he : d ≠ 'e' := by rintro rfl; cases hdigit
    simp [isDoubleChar, hpoint, he]
  unfold printD printInt at hscan ⊢
  rw [heq] at hscan ⊢
  split at hscan
  · rename_i hneg
    rw [if_pos hneg]
    refine reads_int (.inr rfl) ?_ ?_ hscan
    · rintro e (_ | ⟨_, he⟩)
      · decide
      · exact mem_jsonNumberChars_of_isDigit (hdigits e he)
    · rintro e (_ | ⟨_, he⟩)
      · rfl
      · exact hint e he
  · rename_i hneg
    rw [if_neg hneg]
    exact reads_int (.inl hc) (fun e he => mem_jsonNumberChars_of_isDigit (hdigits e he)) hint hscan

/-! ### Words -/

/-- The tokener in the state of a word, with a text that it has collected. -/
def collectWord (tok : JsonTokener) (s : JsonTokenerState) (pb : CString) : JsonTokener :=
  { tok.goto s with pb, stPos := pb.length }

/-- A word from its first byte. -/
theorem run_word (htop : tok.top = .reset) (hc : startsValue c = true)
    (hstep : (tok.goto .start).step c = .redo (tok.collectWord s [])) :
    tok.run (c :: rest) = (tok.collectWord s []).run (c :: rest) := by
  rw [run_start htop hc]
  exact run_redo hstep

/-- A word is read once all of it is collected. -/
theorem reads_word {levels : Nat} {w : CString} {v : Json}
    (hcollect : ∀ (tok : JsonTokener) (rest : CString), tok.top = .reset →
      tok.run (w ++ rest) = (tok.collectWord s w).run rest)
    (hend : ∀ (tok : JsonTokener) (c : Char), (tok.collectWord s w).step c =
      .redo (finishWith { tok.collectWord s w with pb := w ++ [c] } v)) :
    Reads levels w (some v) := by
  intro tok rest htop _ _
  refine ⟨_, waiting_finishWith { tok.collectWord s w with pb := w ++ [rest.headD nul] } v, ?_⟩
  rw [hcollect tok rest htop]
  exact run_redo (hend tok _)

theorem reads_null {levels : Nat} : Reads levels "null".toList (some .null) := by
  refine @reads_word .null _ _ _ (fun tok rest htop => ?_) fun _ _ => rfl
  calc tok.run ("null".toList ++ rest)
      = (tok.collectWord .null []).run ('n' :: 'u' :: 'l' :: 'l' :: rest) :=
        run_word htop (by decide) rfl
    _ = (tok.collectWord .null ['n']).run ('u' :: 'l' :: 'l' :: rest) := run_advance rfl
    _ = (tok.collectWord .null ['n', 'u']).run ('l' :: 'l' :: rest) := run_advance rfl
    _ = (tok.collectWord .null ['n', 'u', 'l']).run ('l' :: rest) := run_advance rfl
    _ = (tok.collectWord .null "null".toList).run rest := run_advance rfl

theorem reads_true {levels : Nat} : Reads levels "true".toList (some (.boolean true)) := by
  refine @reads_word .boolean _ _ _ (fun tok rest htop => ?_) fun _ _ => rfl
  calc tok.run ("true".toList ++ rest)
      = (tok.collectWord .boolean []).run ('t' :: 'r' :: 'u' :: 'e' :: rest) :=
        run_word htop (by decide) rfl
    _ = (tok.collectWord .boolean ['t']).run ('r' :: 'u' :: 'e' :: rest) := run_advance rfl
    _ = (tok.collectWord .boolean ['t', 'r']).run ('u' :: 'e' :: rest) := run_advance rfl
    _ = (tok.collectWord .boolean ['t', 'r', 'u']).run ('e' :: rest) := run_advance rfl
    _ = (tok.collectWord .boolean "true".toList).run rest := run_advance rfl

theorem reads_false {levels : Nat} : Reads levels "false".toList (some (.boolean false)) := by
  refine @reads_word .boolean _ _ _ (fun tok rest htop => ?_) fun _ _ => rfl
  calc tok.run ("false".toList ++ rest)
      = (tok.collectWord .boolean []).run ('f' :: 'a' :: 'l' :: 's' :: 'e' :: rest) :=
        run_word htop (by decide) rfl
    _ = (tok.collectWord .boolean ['f']).run ('a' :: 'l' :: 's' :: 'e' :: rest) := run_advance rfl
    _ = (tok.collectWord .boolean ['f', 'a']).run ('l' :: 's' :: 'e' :: rest) := run_advance rfl
    _ = (tok.collectWord .boolean ['f', 'a', 'l']).run ('s' :: 'e' :: rest) := run_advance rfl
    _ = (tok.collectWord .boolean ['f', 'a', 'l', 's']).run ('e' :: rest) := run_advance rfl
    _ = (tok.collectWord .boolean "false".toList).run rest := run_advance rfl

/-- What stands for a number that is not finite is no JSON, so that the parse fails. -/
theorem reads_not_finite {levels : Nat} {d : Num} (hd : ¬ d.IsFinite) :
    Reads levels (printLf d) none := by
  intro tok rest htop _ _
  cases d with
  | fin q => exact absurd trivial hd
  | negZero => exact absurd trivial hd
  | inf neg =>
    cases neg with
    | false =>
      -- no value starts with an `i`
      obtain ⟨e, he⟩ : ∃ e, (tok.goto .start).run ('i' :: 'n' :: 'f' :: rest) = .error e :=
        run_error rfl
      exact ⟨e, (run_start htop (by decide)).trans he⟩
    | true =>
      -- the number ends behind the sign
      obtain ⟨e, he⟩ : ∃ e, (tok.collect ['-']).run ('i' :: 'n' :: 'f' :: rest) = .error e :=
        run_error rfl
      have hminus : '-' ∈ jsonNumberChars := by decide
      have hrun : tok.run ('-' :: 'i' :: 'n' :: 'f' :: rest) =
          (tok.collect ['-']).run ('i' :: 'n' :: 'f' :: rest) :=
        @run_number tok '-' [] _ htop (.inr rfl) fun d hd => List.mem_singleton.mp hd ▸ hminus
      exact ⟨e, hrun.trans he⟩
  | nan =>
    -- an `n` begins `null`
    obtain ⟨e, he⟩ : ∃ e, (tok.collectWord .null ['n']).run ('a' :: 'n' :: rest) = .error e :=
      run_error rfl
    refine ⟨e, ?_⟩
    calc tok.run (printLf .nan ++ rest)
        = (tok.collectWord .null []).run ('n' :: 'a' :: 'n' :: rest) :=
          run_word htop (by decide) rfl
      _ = (tok.collectWord .null ['n']).run ('a' :: 'n' :: rest) := run_advance rfl
      _ = .error e := he

/-! ### Strings -/

theorem cstr_of_nul_notMem {s : CString} (h : nul ∉ s) : cstr s 0 = s := by
  rw [cstr, List.drop_zero, List.takeWhile_eq_self_iff]
  intro c hc
  rw [bne_iff_ne]
  rintro rfl
  exact h hc

/-- A string comes back as what its text spells. -/
theorem reads_quoted {levels : Nat} {raw s : CString} (hraw : Spells raw s) (hs : nul ∉ s) :
    Reads levels ('"' :: (raw ++ ['"'])) (some (.string s)) := by
  intro tok rest htop _ _
  have hopen : InQuotes { tok.goto .string with pb := [], quoteChar := '"' } .string .null
      tok.below [] := ⟨.inl rfl, rfl, rfl, (waiting_reset htop).current, rfl, rfl⟩
  obtain ⟨tok₁, hin, hrun⟩ := hraw hopen
  have hclose : tok₁.step '"' = .advance (tok₁.finishWith (.string s)) := by
    simp only [step, hin.state, quotedStep, hin.quoteChar, hin.pb, List.nil_append,
      cstr_of_nul_notMem hs, if_true]
  have hbelow : Waiting (tok₁.finishWith (.string s)) .finish (.string s) tok.below :=
    hin.below ▸ waiting_finishWith tok₁ _
  refine ⟨_, hbelow, ?_⟩
  rw [List.cons_append, List.append_assoc, run_start htop (by decide)]
  exact (run_advance rfl).trans ((hrun _).trans (run_advance hclose))

theorem reads_string {levels : Nat} {s : CString} (hs : nul ∉ s) :
    Reads levels ('"' :: (Json.escapeStr s ++ ['"'])) (some (.string s)) :=
  reads_quoted (spells_escapeStr s) hs

/-! ### Levels -/

/-- A level of an object with entries `entries` that waits for the value of `key`. -/
structure AddsEntry (r : SuspendedSrec) (entries : List (CString × Json)) (key : CString) :
    Prop where
  state : r.srec.state = .objectValueAdd
  current : r.srec.current = .object entries
  objFieldName : r.srec.objFieldName = key

/-- A level of an array with elements `elements` that waits for another one. -/
structure AddsElement (r : SuspendedSrec) (elements : List Json) : Prop where
  state : r.srec.state = .arrayAdd
  current : r.srec.current = .array elements

variable {r : SuspendedSrec} {entries : List (CString × Json)} {elements : List Json}
variable {key : CString}

/-- The complete value of a level goes to the level below. -/
theorem Waiting.run_pop (h : Waiting tok .finish v (r :: below)) (hc : isspace c = false)
    (hslash : c ≠ '/') :
    ∃ tok' : JsonTokener, tok'.top = r.srec ∧ tok'.below = below ∧ tok'.obj = v ∧
      ∀ rest, tok.run (c :: rest) = tok'.run (c :: rest) := by
  refine ⟨{ tok.goto .finish with obj := v, top := r.srec, below }, rfl, rfl, rfl,
    fun rest => (h.run_goto_cons hc hslash).trans (run_redo ?_)⟩
  have hcurrent := h.current
  have hbelow := h.below
  simp only [step, goto, JsonTokenerSrec.goto, finishStep, hbelow, hcurrent]

/-- The value of an entry is added. -/
theorem Waiting.run_addEntry (h : Waiting tok .finish v (r :: below)) (hr : AddsEntry r entries key)
    (c : Char) (hc : isspace c = false) (hslash : c ≠ '/') :
    ∃ tok', Waiting tok' .objectSep (.object (lhTableAdd entries key v)) below ∧
      ∀ rest, tok.run (c :: rest) = tok'.run (c :: rest) := by
  obtain ⟨tok₁, htop, hbelow, hobj, hrun⟩ := h.run_pop hc hslash
  let current := tok₁.top.current.objectAdd tok₁.top.objFieldName tok₁.obj
  refine ⟨{ tok₁ with top := { tok₁.top.eatwsThen .objectSep with current, objFieldName := [] } },
    ⟨rfl, rfl, ?_, hbelow⟩, fun rest => (hrun rest).trans (run_redo ?_)⟩
  · simp only [current, htop, hr.current, hr.objFieldName, hobj, Json.objectAdd]
  · have hstate : tok₁.top.state = .objectValueAdd := htop ▸ hr.state
    simp only [step, hstate, current]

/-- An element is added to the array of its level, which then waits for a comma or the end. -/
theorem Waiting.run_addElement (h : Waiting tok .finish v (r :: below))
    (hr : AddsElement r elements) (c : Char) (hc : isspace c = false) (hslash : c ≠ '/') :
    ∃ tok', Waiting tok' .arraySep (.array (elements ++ [v])) below ∧
      ∀ rest, tok.run (c :: rest) = tok'.run (c :: rest) := by
  obtain ⟨tok₁, htop, hbelow, hobj, hrun⟩ := h.run_pop hc hslash
  let current := tok₁.top.current.arrayAdd tok₁.obj
  refine ⟨{ tok₁ with top := { tok₁.top.eatwsThen .arraySep with current } },
    ⟨rfl, rfl, ?_, hbelow⟩, fun rest => (hrun rest).trans (run_redo ?_)⟩
  · simp only [current, htop, hr.current, hobj, Json.arrayAdd]
  · have hstate : tok₁.top.state = .arrayAdd := htop ▸ hr.state
    simp only [step, hstate, current]

theorem run_push {hs : s = .arrayAdd ∨ s = .objectValueAdd}
    (hstep : tok.step (rest.headD nul) = tok.push s hs)
    (hdepth : tok.below.length + 1 < jsonTokenerMaxDepth) :
    tok.run rest =
      run { tok with top := .reset, below := ⟨tok.top.goto s, hs⟩ :: tok.below } rest :=
  run_redo (by rw [hstep, push, if_pos hdepth])

/-- An element gets a level of its own, as long as there are levels left. -/
theorem Waiting.run_pushElement (h : Waiting tok .array (.array elements) below)
    (hc : startsValue (rest.headD nul) = true) (hdepth : below.length + 1 < jsonTokenerMaxDepth) :
    ∃ (tok' : JsonTokener) (r : SuspendedSrec), tok'.top = .reset ∧ tok'.below = r :: below ∧
      AddsElement r elements ∧ tok.run rest = tok'.run rest := by
  simp only [startsValue, Bool.and_eq_true, Bool.not_eq_true', bne_iff_ne, ne_eq] at hc
  obtain ⟨⟨hspace, hslash⟩, hbracket⟩ := hc
  have hstep : (tok.goto .array).step (rest.headD nul) =
      (tok.goto .array).push .arrayAdd (.inl rfl) := if_neg hbracket
  have hbelow : (tok.goto .array).below = below := h.below
  refine ⟨_, ⟨(tok.goto .array).top.goto .arrayAdd, .inl rfl⟩, rfl, congrArg _ hbelow,
    ⟨rfl, h.current⟩, (h.run_goto hspace hslash).trans (run_push hstep ?_)⟩
  rwa [hbelow]

/-- The value of an entry gets a level of its own. -/
theorem Waiting.run_pushEntry (h : Waiting tok .objectValue (.object entries) below)
    (hkey : tok.top.objFieldName = key) (hc : startsValue (rest.headD nul) = true)
    (hdepth : below.length + 1 < jsonTokenerMaxDepth) :
    ∃ (tok' : JsonTokener) (r : SuspendedSrec), tok'.top = .reset ∧ tok'.below = r :: below ∧
      AddsEntry r entries key ∧ tok.run rest = tok'.run rest := by
  simp only [startsValue, Bool.and_eq_true, Bool.not_eq_true', bne_iff_ne, ne_eq] at hc
  obtain ⟨⟨hspace, hslash⟩, -⟩ := hc
  have hstep : (tok.goto .objectValue).step (rest.headD nul) =
      (tok.goto .objectValue).push .objectValueAdd (.inr rfl) := rfl
  have hbelow : (tok.goto .objectValue).below = below := h.below
  refine ⟨_, ⟨(tok.goto .objectValue).top.goto .objectValueAdd, .inr rfl⟩, rfl, congrArg _ hbelow,
    ⟨rfl, h.current, hkey⟩, (h.run_goto hspace hslash).trans (run_push hstep ?_)⟩
  rwa [hbelow]

/-- The key of an entry, up to its colon. -/
theorem Waiting.run_quotedKey (h : Waiting tok .objectFieldStart (.object entries) below)
    {raw : CString} (hraw : Spells raw key) (hkey : nul ∉ key) :
    ∃ tok', Waiting tok' .objectValue (.object entries) below ∧ tok'.top.objFieldName = key ∧
      ∀ rest, tok.run ('"' :: (raw ++ '"' :: ':' :: rest)) = tok'.run rest := by
  have hopen : InQuotes { tok.goto .objectField with quoteChar := '"', pb := [] } .objectField
      (.object entries) below [] := ⟨.inr rfl, rfl, rfl, h.current, h.below, rfl⟩
  obtain ⟨tok₁, hin, hrun⟩ := hraw hopen
  let tok₂ : JsonTokener :=
    { tok₁ with top := { tok₁.top.eatwsThen .objectFieldEnd with objFieldName := key } }
  have hclose : tok₁.step '"' = .advance tok₂ := by
    simp only [step, hin.state, quotedStep, hin.quoteChar, hin.pb, List.nil_append,
      cstr_of_nul_notMem hkey, if_true, tok₂]
  have hend : Waiting tok₂ .objectFieldEnd (.object entries) below :=
    ⟨rfl, rfl, hin.current, hin.below⟩
  let tok₃ : JsonTokener := (tok₂.goto .objectFieldEnd).eatwsThen .objectValue
  refine ⟨tok₃, ⟨rfl, rfl, hin.current, hin.below⟩, rfl, fun rest => ?_⟩
  calc tok.run ('"' :: (raw ++ '"' :: ':' :: rest))
      = (tok.goto .objectFieldStart).run ('"' :: (raw ++ '"' :: ':' :: rest)) :=
        h.run_goto_cons (by decide) (by decide)
    _ = run { tok.goto .objectField with quoteChar := '"', pb := [] }
          (raw ++ '"' :: ':' :: rest) := run_advance rfl
    _ = tok₁.run ('"' :: ':' :: rest) := hrun _
    _ = tok₂.run (':' :: rest) := run_advance hclose
    _ = (tok₂.goto .objectFieldEnd).run (':' :: rest) :=
        hend.run_goto_cons (by decide) (by decide)
    _ = tok₃.run rest := run_advance rfl

/-- The key of an entry as it is printed, between spaces. -/
theorem Waiting.run_key (h : Waiting tok .objectFieldStart (.object entries) below)
    (hkey : nul ∉ key) :
    ∃ tok', Waiting tok' .objectValue (.object entries) below ∧ tok'.top.objFieldName = key ∧
      ∀ rest, tok.run (' ' :: '"' :: (Json.escapeStr key ++ '"' :: ':' :: ' ' :: rest)) =
        tok'.run rest := by
  obtain ⟨tok₁, hvalue, hname, hrun⟩ := h.run_quotedKey (spells_escapeStr key) hkey
  refine ⟨tok₁, hvalue, hname, fun rest => ?_⟩
  calc tok.run (' ' :: '"' :: (Json.escapeStr key ++ '"' :: ':' :: ' ' :: rest))
      = tok.run ('"' :: (Json.escapeStr key ++ '"' :: ':' :: ' ' :: rest)) :=
        h.run_space (by decide)
    _ = tok₁.run (' ' :: rest) := hrun _
    _ = tok₁.run rest := hvalue.run_space (by decide)

/-! ### Objects and arrays -/

theorem exists_toJsonString_eq_cons (v : Json) :
    ∃ c t, v.toJsonString = c :: t ∧ startsValue c = true := by
  cases v with
  | null => exact ⟨_, _, rfl, by decide⟩
  | boolean b => cases b <;> exact ⟨_, _, rfl, by decide⟩
  | double d =>
    cases d with
    | fin q =>
      obtain ⟨c, d, text, htext, hc, -⟩ := printFixed_head 6 (roundHalfEven (|q| * 10 ^ 6)).toNat
      rw [Json.toJsonString, printLf, htext]
      by_cases hneg : q < 0
      · exact ⟨_, _, if_pos hneg, by decide⟩
      · exact ⟨_, _, if_neg hneg, startsValue_of_isDigit hc⟩
    | negZero => exact ⟨_, _, rfl, by decide⟩
    | inf neg => cases neg <;> exact ⟨_, _, rfl, by decide⟩
    | nan => exact ⟨_, _, rfl, by decide⟩
  | int i =>
    obtain ⟨c, ds, heq, hc⟩ := printNat_eq_cons i.natAbs
    rw [Json.toJsonString, printD, printInt, heq]
    by_cases hneg : i < 0
    · exact ⟨_, _, if_pos hneg, by decide⟩
    · exact ⟨_, _, if_neg hneg, startsValue_of_isDigit hc⟩
  | object entries => exact ⟨_, _, rfl, by decide⟩
  | array elements => exact ⟨_, _, rfl, by decide⟩
  | string s => exact ⟨_, _, rfl, by decide⟩

/-- The first byte of a value in front of anything. -/
theorem startsValue_headD (v : Json) (tail : CString) :
    startsValue ((v.toJsonString ++ tail).headD nul) = true := by
  obtain ⟨c, t, heq, hc⟩ := exists_toJsonString_eq_cons v
  rw [heq]
  exact hc

variable {levels : Nat} {val : Json} {tail : CString} {o : Option Json}

/-- An entry: its key and its value, and then what comes next. -/
theorem Waiting.yields_entry (h : Waiting tok .objectFieldStart (.object entries) below)
    (hkey : nul ∉ key) (hval : Reads levels val.toJsonString val.readBack)
    (hdepth : below.length + 1 + levels < jsonTokenerMaxDepth)
    (htail : tail.headD nul ∉ jsonNumberChars) (hnone : val.readBack = none → o = none)
    (hnext : ∀ v tok' r, val.readBack = some v → Waiting tok' .finish v (r :: below) →
      AddsEntry r entries key → Yields (tok'.run tail) rest below o) :
    Yields (tok.run (' ' :: '"' :: (Json.escapeStr key ++ '"' :: ':' :: ' ' ::
      (val.toJsonString ++ tail)))) rest below o := by
  obtain ⟨tok₁, hwaiting, hname, hrun₁⟩ := h.run_key hkey
  obtain ⟨tok₂, r, htop, hbelow, hadds, hrun₂⟩ :=
    hwaiting.run_pushEntry hname (startsValue_headD val tail) (by omega)
  have hread := hval tok₂ tail htop (by rw [hbelow, List.length_cons]; exact hdepth) htail
  rw [hbelow] at hread
  rw [hrun₁, hrun₂]
  cases hback : val.readBack with
  | none =>
    rw [hback] at hread
    rw [hnone hback]
    exact hread
  | some v =>
    rw [hback] at hread
    obtain ⟨tok₃, hfinish, hrun₃⟩ := hread
    rw [hrun₃]
    exact hnext v tok₃ r hback hfinish hadds

/-- An element, and then what comes next. -/
theorem Waiting.yields_element (h : Waiting tok .array (.array elements) below)
    (hval : Reads levels val.toJsonString val.readBack)
    (hdepth : below.length + 1 + levels < jsonTokenerMaxDepth)
    (htail : tail.headD nul ∉ jsonNumberChars) (hnone : val.readBack = none → o = none)
    (hnext : ∀ v tok' r, val.readBack = some v → Waiting tok' .finish v (r :: below) →
      AddsElement r elements → Yields (tok'.run tail) rest below o) :
    Yields (tok.run (' ' :: (val.toJsonString ++ tail))) rest below o := by
  obtain ⟨tok₂, r, htop, hbelow, hadds, hrun₂⟩ :=
    h.run_pushElement (startsValue_headD val tail) (by omega)
  have hread := hval tok₂ tail htop (by rw [hbelow, List.length_cons]; exact hdepth) htail
  rw [hbelow] at hread
  rw [h.run_space (by decide), hrun₂]
  cases hback : val.readBack with
  | none =>
    rw [hback] at hread
    rw [hnone hback]
    exact hread
  | some v =>
    rw [hback] at hread
    obtain ⟨tok₃, hfinish, hrun₃⟩ := hread
    rw [hrun₃]
    exact hnext v tok₃ r hback hfinish hadds

/-- The end of an object behind an entry. -/
theorem Waiting.yields_objectEnd (h : Waiting tok .finish v (r :: below))
    (hr : AddsEntry r entries key) :
    Yields (tok.run (' ' :: '}' :: rest)) rest below
      (some (.object (lhTableAdd entries key v))) := by
  obtain ⟨tok₁, hsep, hrun₁⟩ := h.run_addEntry hr '}' rfl (by decide)
  obtain ⟨tok₂, hfinish, hrun₂⟩ := hsep.run_punct '}' rfl (by decide) rfl
  exact ⟨tok₂, hfinish, (h.run_space (by decide)).trans ((hrun₁ rest).trans (hrun₂ rest))⟩

/-- The end of an array behind an element. -/
theorem Waiting.yields_arrayEnd (h : Waiting tok .finish v (r :: below))
    (hr : AddsElement r elements) :
    Yields (tok.run (' ' :: ']' :: rest)) rest below (some (.array (elements ++ [v]))) := by
  obtain ⟨tok₁, hsep, hrun₁⟩ := h.run_addElement hr ']' rfl (by decide)
  obtain ⟨tok₂, hfinish, hrun₂⟩ := hsep.run_punct ']' rfl (by decide) rfl
  exact ⟨tok₂, hfinish, (h.run_space (by decide)).trans ((hrun₁ rest).trans (hrun₂ rest))⟩

theorem entriesToJsonString_headD (es : List (CString × Json)) (rest : CString) :
    (Json.entriesToJsonString false es ++ ' ' :: rest).headD nul ∉ jsonNumberChars := by
  cases es with
  | nil => exact (by decide : ' ' ∉ jsonNumberChars)
  | cons e es => exact (by decide : ',' ∉ jsonNumberChars)

theorem elementsToJsonString_headD (xs : List Json) (rest : CString) :
    (Json.elementsToJsonString false xs ++ ' ' :: rest).headD nul ∉ jsonNumberChars := by
  cases xs with
  | nil => exact (by decide : ' ' ∉ jsonNumberChars)
  | cons x xs => exact (by decide : ',' ∉ jsonNumberChars)

/-- The text of the entries behind the first one is read, to the end of the object. -/
def ReadsEntries (levels : Nat) (es : List (CString × Json)) : Prop :=
  ∀ (tok : JsonTokener) (v : Json) (r : SuspendedSrec) (entries : List (CString × Json))
    (key : CString) (below : List SuspendedSrec) (rest : CString),
    Waiting tok .finish v (r :: below) → AddsEntry r entries key →
    below.length + 1 + levels < jsonTokenerMaxDepth →
    Yields (tok.run (Json.entriesToJsonString false es ++ ' ' :: '}' :: rest)) rest below
      ((Json.readBackEntries (lhTableAdd entries key v) es).map .object)

/-- The text of the elements behind the first one is read, to the end of the array. -/
def ReadsElements (levels : Nat) (xs : List Json) : Prop :=
  ∀ (tok : JsonTokener) (v : Json) (r : SuspendedSrec) (elements : List Json)
    (below : List SuspendedSrec) (rest : CString),
    Waiting tok .finish v (r :: below) → AddsElement r elements →
    below.length + 1 + levels < jsonTokenerMaxDepth →
    Yields (tok.run (Json.elementsToJsonString false xs ++ ' ' :: ']' :: rest)) rest below
      ((Json.readBackElements (elements ++ [v]) xs).map .array)

theorem readsEntries_cons {es : List (CString × Json)} (hkey : nul ∉ key)
    (hval : Reads levels val.toJsonString val.readBack) (hes : ReadsEntries levels es) :
    ReadsEntries levels ((key, val) :: es) := by
  intro tok v r entries key' below rest h hr hdepth
  have htext : Json.entriesToJsonString false ((key, val) :: es) ++ ' ' :: '}' :: rest =
      ',' :: ' ' :: '"' :: (Json.escapeStr key ++ '"' :: ':' :: ' ' :: (val.toJsonString ++
        (Json.entriesToJsonString false es ++ ' ' :: '}' :: rest))) := by
    simp [Json.entriesToJsonString]
  obtain ⟨tok₁, hsep, hrun₁⟩ := h.run_addEntry hr ',' rfl (by decide)
  obtain ⟨tok₂, hfield, hrun₂⟩ := hsep.run_punct ',' rfl (by decide) rfl
  rw [htext, hrun₁, hrun₂]
  refine hfield.yields_entry hkey hval hdepth (entriesToJsonString_headD es _) (fun hnone => ?_)
    fun v' tok' r' hsome hv hr' => ?_
  · simp [Json.readBackEntries, hnone]
  · simpa [Json.readBackEntries, hsome] using hes tok' v' r' _ key below rest hv hr' hdepth

theorem readsElements_cons {xs : List Json} (hval : Reads levels val.toJsonString val.readBack)
    (hxs : ReadsElements levels xs) : ReadsElements levels (val :: xs) := by
  intro tok v r elements below rest h hr hdepth
  have htext : Json.elementsToJsonString false (val :: xs) ++ ' ' :: ']' :: rest =
      ',' :: ' ' :: (val.toJsonString ++
        (Json.elementsToJsonString false xs ++ ' ' :: ']' :: rest)) := by
    simp [Json.elementsToJsonString]
  obtain ⟨tok₁, hsep, hrun₁⟩ := h.run_addElement hr ',' rfl (by decide)
  obtain ⟨tok₂, harray, hrun₂⟩ := hsep.run_punct ',' rfl (by decide) rfl
  rw [htext, hrun₁, hrun₂]
  refine harray.yields_element hval hdepth (elementsToJsonString_headD xs _) (fun hnone => ?_)
    fun v' tok' r' hsome hv hr' => ?_
  · simp [Json.readBackElements, hnone]
  · simpa [Json.readBackElements, hsome] using hxs tok' v' r' _ below rest hv hr' hdepth

/-- An object's opening brace, behind which its level waits for a key. -/
theorem run_openObject (htop : tok.top = .reset) :
    ∃ tok', Waiting tok' .objectFieldStart (.object []) tok.below ∧
      ∀ rest, tok.run ('{' :: rest) = tok'.run rest :=
  ⟨{ tok.goto .start with
    top := { (tok.goto .start).top.eatwsThen .objectFieldStart with current := .object [] } },
    ⟨rfl, rfl, rfl, rfl⟩, fun _ => (run_start htop (by decide)).trans (run_advance rfl)⟩

/-- An array's opening bracket, behind which its level waits for an element. -/
theorem run_openArray (htop : tok.top = .reset) :
    ∃ tok', Waiting tok' .array (.array []) tok.below ∧
      ∀ rest, tok.run ('[' :: rest) = tok'.run rest :=
  ⟨{ tok.goto .start with
    top := { (tok.goto .start).top.eatwsThen .array with current := .array [] } },
    ⟨rfl, rfl, rfl, rfl⟩, fun _ => (run_start htop (by decide)).trans (run_advance rfl)⟩

theorem reads_object_nil : Reads levels (Json.toJsonString (.object [])) (some (.object [])) := by
  intro tok rest htop _ _
  obtain ⟨tok₁, hopen, hrun₁⟩ := run_openObject htop
  obtain ⟨tok₂, hfinish, hrun₂⟩ := hopen.run_punct '}' rfl (by decide) rfl
  exact ⟨tok₂, hfinish, (hrun₁ _).trans ((hopen.run_space (by decide)).trans (hrun₂ rest))⟩

theorem reads_array_nil : Reads levels (Json.toJsonString (.array [])) (some (.array [])) := by
  intro tok rest htop _ _
  obtain ⟨tok₁, hopen, hrun₁⟩ := run_openArray htop
  obtain ⟨tok₂, hfinish, hrun₂⟩ := hopen.run_punct ']' rfl (by decide) rfl
  exact ⟨tok₂, hfinish, (hrun₁ _).trans ((hopen.run_space (by decide)).trans (hrun₂ rest))⟩

theorem reads_object_cons {es : List (CString × Json)} (hlevels : 0 < levels) (hkey : nul ∉ key)
    (hval : Reads (levels - 1) val.toJsonString val.readBack)
    (hes : ReadsEntries (levels - 1) es) :
    Reads levels (Json.toJsonString (.object ((key, val) :: es)))
      (Json.readBack (.object ((key, val) :: es))) := by
  intro tok rest htop hdepth _
  have htext : Json.toJsonString (.object ((key, val) :: es)) ++ rest =
      '{' :: ' ' :: '"' :: (Json.escapeStr key ++ '"' :: ':' :: ' ' :: (val.toJsonString ++
        (Json.entriesToJsonString false es ++ ' ' :: '}' :: rest))) := by
    simp [Json.toJsonString, Json.entriesToJsonString]
  obtain ⟨tok₁, hopen, hrun⟩ := run_openObject htop
  rw [htext, hrun]
  refine hopen.yields_entry hkey hval (by omega) (entriesToJsonString_headD es _)
    (fun hnone => ?_) fun v tok' r hsome hv hr => ?_
  · simp [Json.readBack, Json.readBackEntries, hnone]
  · simpa [Json.readBack, Json.readBackEntries, hsome] using
      hes tok' v r [] key tok.below rest hv hr (by omega)

theorem reads_array_cons {xs : List Json} (hlevels : 0 < levels)
    (hval : Reads (levels - 1) val.toJsonString val.readBack)
    (hxs : ReadsElements (levels - 1) xs) :
    Reads levels (Json.toJsonString (.array (val :: xs))) (Json.readBack (.array (val :: xs))) := by
  intro tok rest htop hdepth _
  have htext : Json.toJsonString (.array (val :: xs)) ++ rest =
      '[' :: ' ' :: (val.toJsonString ++
        (Json.elementsToJsonString false xs ++ ' ' :: ']' :: rest)) := by
    simp [Json.toJsonString, Json.elementsToJsonString]
  obtain ⟨tok₁, hopen, hrun⟩ := run_openArray htop
  rw [htext, hrun]
  refine hopen.yields_element hval (by omega) (elementsToJsonString_headD xs _)
    (fun hnone => ?_) fun v tok' r hsome hv hr => ?_
  · simp [Json.readBack, Json.readBackElements, hnone]
  · simpa [Json.readBack, Json.readBackElements, hsome] using
      hxs tok' v r [] tok.below rest hv hr (by omega)

mutual

/-- **What is printed is read back**, or rejected if it has a number that is not
finite. -/
theorem reads_toJsonString : ∀ (v : Json) (levels : Nat), v.Fits levels →
    Reads levels v.toJsonString v.readBack
  | .null, _, _ => reads_null
  | .boolean true, _, _ => reads_true
  | .boolean false, _, _ => reads_false
  | .double (.fin q), _, _ => reads_printLf (d := .fin q) trivial
  | .double .negZero, _, _ => reads_printLf (d := .negZero) trivial
  | .double (.inf neg), _, _ => reads_not_finite (d := .inf neg) id
  | .double .nan, _, _ => reads_not_finite (d := .nan) id
  | .int _, _, ⟨hlo, hhi⟩ => reads_printD hlo hhi
  | .string _, _, hs => reads_string hs
  | .object [], _, _ => reads_object_nil
  | .object ((_, val) :: es), levels, ⟨hlevels, hkey, hval, hes⟩ =>
    reads_object_cons hlevels hkey (reads_toJsonString val (levels - 1) hval)
      (readsEntries es (levels - 1) hes)
  | .array [], _, _ => reads_array_nil
  | .array (val :: xs), levels, ⟨hlevels, hval, hxs⟩ =>
    reads_array_cons hlevels (reads_toJsonString val (levels - 1) hval)
      (readsElements xs (levels - 1) hxs)

theorem readsEntries : ∀ (es : List (CString × Json)) (levels : Nat),
    Json.EntriesFit levels es → ReadsEntries levels es
  | [], _, _ => fun _ _ _ _ _ _ _ h hr _ => h.yields_objectEnd hr
  | (_, val) :: es, levels, ⟨hkey, hval, hes⟩ =>
    readsEntries_cons hkey (reads_toJsonString val levels hval) (readsEntries es levels hes)

theorem readsElements : ∀ (xs : List Json) (levels : Nat),
    Json.ElementsFit levels xs → ReadsElements levels xs
  | [], _, _ => fun _ _ _ _ _ _ h hr _ => h.yields_arrayEnd hr
  | val :: xs, levels, ⟨hval, hxs⟩ =>
    readsElements_cons (reads_toJsonString val levels hval) (readsElements xs levels hxs)

end

/-- The end of the text behind a complete value gives that value. -/
theorem Waiting.run_nil (h : Waiting tok .finish v []) : tok.run [] = .ok v := by
  have hbelow : (tok.goto .finish).below = [] := h.below
  have hcurrent : (tok.goto .finish).top.current = v := h.current
  have hstep : (tok.goto .finish).step nul = .out (tok.goto .finish) none := by
    rw [show (tok.goto .finish).step nul = (tok.goto .finish).finishStep from rfl, finishStep,
      hbelow]
  have hgoto : tok.run [] = (tok.goto .finish).run [] := h.run_goto (by decide) (by decide)
  rw [hgoto, run, feed_eq, hstep]
  simp only [leave, hcurrent]
  exact if_neg fun hnot => hnot.2.1 rfl

end JsonTokener

/-- **What json-c prints, it reads back**: every number to six decimals.  A text with
a number that is not finite is rejected. -/
theorem jsonTokenerParse_toJsonString {v : Json} {levels : Nat} (hv : v.Fits levels)
    (hlevels : levels < jsonTokenerMaxDepth) :
    match v.readBack with
    | some w => jsonTokenerParse v.toJsonString = .ok w
    | none => ∃ e, jsonTokenerParse v.toJsonString = .error e := by
  have hread := JsonTokener.reads_toJsonString v levels hv .new [] rfl
    (by rw [show JsonTokener.new.below = [] from rfl, List.length_nil, Nat.zero_add]; exact hlevels)
    (by decide)
  rw [List.append_nil] at hread
  cases hback : v.readBack with
  | none =>
    rw [hback] at hread
    exact hread
  | some w =>
    rw [hback] at hread
    obtain ⟨tok, hfinish, hrun⟩ := hread
    exact hrun.trans hfinish.run_nil

end StatsdC
