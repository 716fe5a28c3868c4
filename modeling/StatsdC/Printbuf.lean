import StatsdC.Lib.GrowableBlock
import StatsdC.SnapshotText

/-!
# The print buffer

json-c prints a value, and gathers the tokens of a text, in a `printbuf`: a block that is
reallocated as the text in it grows.  An append writes behind the text, and a NUL behind that.  In
`JsonObject` the printer is a function to texts.  Here it is the sequence of calls that the source
makes, with the run of plain bytes of a string copied at once, and a formatted text that is too long
for 128 bytes on the stack put into memory of its own.

No call writes outside the block, and no size overflows its `int`, as long as the text is shorter
than `2 ^ 30` bytes.  `Represents` says that the buffer holds a text, its NUL, and space behind it;
`Writes` says of a piece of the printer that it appends a text to whatever the buffer holds, if the
whole is still short enough.  Pieces that write are put together in the order of their texts, so
the proof about a value follows the structure of the value.

What `json_object_to_json_string` returns is then the text of the value, whatever was printed into
the buffer before (`toJsonStrings_eq`): the buffer belongs to the library and is reset, not made
anew, for each value.  The theorem is about any sequence of values that the tokener or the
snapshot can make (`Json.Fits`), with texts that are short enough.

The macro that appends to the buffer without a call is the same as the call
(`memappendFast`).  What `vsnprintf` formats is the text; a failure of `realloc` is left out.
-/

namespace StatsdC
open CString Decimal GrowableBlock

/-- `struct printbuf`: its block, the position behind the text, and the size that was asked for. -/
structure Printbuf where
  buf : Cells Char
  bpos : Nat
  size : Nat

namespace Printbuf

/-- `printbuf_new`, whose block holds 32 bytes that are not written yet. -/
def new : Printbuf := ⟨malloc 32, 0, 32⟩

/-- The bytes and a NUL behind them, at the position, which moves behind the bytes but not behind
the NUL. -/
def put (p : Printbuf) (buf : CString) : Option Printbuf := do
  let m ← store p.buf p.bpos buf
  let bpos := p.bpos + buf.length
  let m ← store m bpos [nul]
  return ⟨m, bpos, p.size⟩

/-- `printbuf_memappend`, whose block grows to twice its size, or to what it needs and 8.  A size
that is no `int` is an overflow. -/
def memappend (p : Printbuf) (buf : CString) : Option Printbuf :=
  if p.size - p.bpos ≤ buf.length then
    let newSize := max (p.size * 2) (p.bpos + buf.length + 8)
    if newSize < 2 ^ 31 then
      put { p with buf := realloc p.buf newSize, size := newSize } buf
    else
      none
  else
    p.put buf

/-- `printbuf_memappend_fast`, the macro that calls the function only where the block is too small.
-/
def memappendFast (p : Printbuf) (buf : CString) : Option Printbuf :=
  if buf.length < p.size - p.bpos then p.put buf else p.memappend buf

/-- `sprintbuf`, of the formatted text. -/
def sprintbuf (p : Printbuf) (text : CString) : Option Printbuf :=
  -- what `vsnprintf` leaves in the 128 bytes on the stack, and the length it returns
  let buf := text.take 127
  let size := text.length
  if 127 < size then p.memappend text else p.memappend (buf.take size)

/-- `printbuf_reset`, which writes a NUL at the start and keeps the block. -/
def reset (p : Printbuf) : Option Printbuf := do
  let m ← store p.buf 0 [nul]
  return ⟨m, 0, p.size⟩

/-- The C string in the buffer, up to its first NUL.  It fails where no NUL was ever written. -/
def text (p : Printbuf) : Option CString := readUntil (· == nul) p.buf

end Printbuf

/-! ## Printing -/

/-- `if(pos - start_offset > 0) printbuf_memappend(...)`, for the run of plain bytes. -/
def appendRun (run : CString) (p : Printbuf) : Option Printbuf :=
  if run = [] then some p else p.memappend run

/-- `json_hex_chars`, one of them, by its index. -/
def hexChar (n : Nat) : Char := jsonHexChars.getD n nul

/-- The loop of `json_escape_str`, with the plain bytes since `start_offset` before the
rest of the string. -/
def escapeLoop (run : CString) : CString → Printbuf → Option Printbuf
  | [], p => appendRun run p
  | c :: str, p =>
    let append (escaped : CString) : Option Printbuf := do
      let p ← appendRun run p
      let p ← p.memappend escaped
      escapeLoop [] str p
    if c = '\x08' then append ['\\', 'b']
    else if c = '\n' then append ['\\', 'n']
    else if c = '\r' then append ['\\', 'r']
    else if c = '\t' then append ['\\', 't']
    else if c = '"' then append ['\\', '"']
    else if c = '\\' then append ['\\', '\\']
    else if c = '/' then append ['\\', '/']
    else if c.toNat < 32 then do
      let p ← appendRun run p
      let p ← p.sprintbuf ("\\u00".toList ++ [hexChar (c.toNat / 16), hexChar (c.toNat % 16)])
      escapeLoop [] str p
    else
      escapeLoop (run ++ [c]) str p

/-- `json_escape_str`, which appends each run of plain bytes at once. -/
def jsonEscapeStr (str : CString) (p : Printbuf) : Option Printbuf := escapeLoop [] str p

namespace Json

mutual

/-- `_to_json_string`, of each type, and `null` for a `NULL` entry or element.  Each appends to the
buffer in several calls. -/
def printInto : Json → Printbuf → Option Printbuf
  | null, p => p.sprintbuf "null".toList
  | boolean b, p => if b then p.sprintbuf "true".toList else p.sprintbuf "false".toList
  | double d, p => p.sprintbuf (printLf d)
  | int i, p => p.sprintbuf (printD i)
  | object entries, p => do
    let p ← p.sprintbuf ['{']
    let p ← printEntriesInto true entries p
    p.sprintbuf " \x7d".toList
  | array elements, p => do
    let p ← p.sprintbuf ['[']
    let p ← printElementsInto true elements p
    p.sprintbuf " ]".toList
  | string s, p => do
    let p ← p.sprintbuf ['"']
    let p ← jsonEscapeStr s p
    p.sprintbuf ['"']

/-- The loop over the entries of an object, with the key, the colon and the value of each. -/
def printEntriesInto (first : Bool) : List (CString × Json) → Printbuf → Option Printbuf
  | [], p => some p
  | (key, val) :: entries, p => do
    let p ← (if first then some p else p.sprintbuf [','])
    let p ← p.sprintbuf " \"".toList
    let p ← jsonEscapeStr key p
    let p ← p.sprintbuf "\": ".toList
    let p ← printInto val p
    printEntriesInto false entries p

/-- The loop over the elements of an array, with a comma before each but the first. -/
def printElementsInto (first : Bool) : List Json → Printbuf → Option Printbuf
  | [], p => some p
  | val :: elements, p => do
    let p ← (if first then p.sprintbuf [' '] else p.sprintbuf ", ".toList)
    let p ← printInto val p
    printElementsInto false elements p

end

/-- The buffer that `json_object_to_json_string` prints into: a new one, or `_pb` reset to the empty
text. -/
def printTarget : Option Printbuf → Option Printbuf
  | none => some .new
  | some p => p.reset

/-- `json_object_to_json_string`, of an object with `_pb`: the text, and `_pb` afterwards. -/
def toJsonStringIn (pb : Option Printbuf) : Json → Option (CString × Option Printbuf)
  | null => some ("null".toList, pb)
  | jso => do
    let p ← printTarget pb
    let p ← jso.printInto p
    let text ← p.text
    return (text, some p)

/-- The texts of an object's values at one call after another, and `_pb` at the end. -/
def toJsonStrings (pb : Option Printbuf) : List Json → Option (List CString × Option Printbuf)
  | [] => some ([], pb)
  | jso :: jsos => do
    let (text, pb) ← jso.toJsonStringIn pb
    let (texts, pb) ← toJsonStrings pb jsos
    return (text :: texts, pb)

end Json

/-! ## The buffer and its text -/

namespace Printbuf

variable {p p' : Printbuf} {pre s t : CString} {bound : Nat}

/-- There is a NUL behind the text, inside the block, so that it can be read as a C string. -/
def Terminated (p : Printbuf) (text : CString) : Prop := GrowableBlock.Holds p.buf (text ++ [nul])

/-- The text is in the buffer, and none was longer than `bound`.  A new buffer has no NUL
yet. -/
structure Represents (p : Printbuf) (text : CString) (bound : Nat) : Prop where
  holds : GrowableBlock.Holds p.buf text
  terminated : text ≠ [] → Terminated p text
  bpos_eq : p.bpos = text.length
  size_eq : p.size = p.buf.length
  lt_size : text.length < p.size
  size_le : p.size ≤ max 32 (2 * bound + 8)

theorem represents_new (bound : Nat) : Represents new [] bound where
  holds := holds_nil _
  terminated h := absurd rfl h
  bpos_eq := rfl
  size_eq := (length_malloc 32).symm
  lt_size := by decide
  size_le := Nat.le_max_left ..

theorem Represents.mono (h : Represents p s bound) {bound' : Nat} (hle : bound ≤ bound') :
    Represents p s bound' :=
  { h with size_le := h.size_le.trans (by omega) }

/-- The bytes that a text with room for its NUL is read as. -/
theorem Terminated.text_eq (h : Terminated p s) : p.text = some (cstr s 0) :=
  h.readUntil_eq (beq_self_eq_true nul)

theorem put_eq (h : Represents p s bound) (hroom : s.length + t.length < p.size) :
    ∃ p', p.put t = some p' ∧ Represents p' (s ++ t) bound ∧ Terminated p' (s ++ t) := by
  have hsize := h.size_eq
  obtain ⟨m₁, hstore₁, hholds₁, hlen₁⟩ :=
    h.holds.exists_store t (by omega)
  obtain ⟨m₂, hstore₂, hholds₂, hlen₂⟩ :=
    hholds₁.exists_store [nul] (by rw [List.length_append, List.length_singleton]; omega)
  have hlen : (s ++ t).length = p.bpos + t.length := by rw [List.length_append, h.bpos_eq]
  refine ⟨⟨m₂, p.bpos + t.length, p.size⟩, ?_, ?_, hholds₂⟩
  · rw [hlen] at hstore₂
    rw [put, h.bpos_eq, hstore₁]
    rw [h.bpos_eq] at hstore₂
    simp only [Option.bind_eq_bind, Option.bind_some, hstore₂]
    rfl
  · exact ⟨hholds₂.of_append, fun _ => hholds₂, hlen.symm, by simp only [hlen₂, hlen₁, hsize],
      by rw [List.length_append]; exact hroom, h.size_le⟩

/-- **An append** of a text that stays shorter than `2 ^ 30` bytes succeeds, and leaves the text
behind the other one. -/
theorem memappend_eq (h : Represents p s bound) (hbound : bound < 2 ^ 30)
    (hlen : s.length + t.length ≤ bound) :
    ∃ p', p.memappend t = some p' ∧ Represents p' (s ++ t) bound ∧ Terminated p' (s ++ t) := by
  have hbpos := h.bpos_eq
  have hsize := h.lt_size
  unfold memappend
  split
  · rename_i hfull
    dsimp only
    generalize hnew : max (p.size * 2) (p.bpos + t.length + 8) = newSize
    -- the old size was no more than the new length
    have hle : newSize ≤ 2 * bound + 8 := by omega
    rw [if_pos (by omega)]
    have hrep : Represents ⟨realloc p.buf newSize, p.bpos, newSize⟩ s bound := by
      refine ⟨h.holds.realloc (by omega), fun hne => ?_, hbpos,
        (length_realloc p.buf newSize).symm, by dsimp only; omega, by dsimp only; omega⟩
      exact (h.terminated hne).realloc
        (by simp only [List.length_append, List.length_singleton]; omega)
    exact put_eq hrep (by dsimp only; omega)
  · exact put_eq h (by omega)

/-- The macro and the function do the same, on any buffer and with any text. -/
theorem memappendFast_eq_memappend (p : Printbuf) (buf : CString) :
    p.memappendFast buf = p.memappend buf := by
  unfold memappendFast memappend
  split
  · rw [if_neg (by omega)]
  · rfl

/-- Either way the whole text is appended. -/
theorem sprintbuf_eq_memappend (p : Printbuf) (text : CString) :
    p.sprintbuf text = p.memappend text := by
  unfold sprintbuf
  dsimp only
  split
  · rfl
  · rw [List.take_take, List.take_of_length_le (by omega)]

theorem reset_eq (h : Represents p s bound) :
    ∃ p', p.reset = some p' ∧ Represents p' [] bound ∧ Terminated p' [] := by
  have hsize := h.size_eq
  have hlt := h.lt_size
  obtain ⟨m, hstore, hholds, hlen⟩ :=
    (holds_nil p.buf).exists_store [nul]
      (by simp only [List.length_nil, List.length_singleton]; omega)
  refine ⟨⟨m, 0, p.size⟩, ?_,
    ⟨holds_nil _, fun _ => hholds, rfl, by simp only [hlen, hsize], ?_, h.size_le⟩, hholds⟩
  · rw [List.length_nil] at hstore
    rw [reset, hstore]
    rfl
  · rw [List.length_nil]
    dsimp only
    omega

/-! ## Calls in sequence -/

/-- Appends a text, in as many calls as it may take, to any buffer with room below the bound. -/
def Writes (f : Printbuf → Option Printbuf) (text : CString) : Prop :=
  ∀ ⦃p pre bound⦄, bound < 2 ^ 30 → Represents p pre bound →
    pre.length + text.length ≤ bound → ∃ p', f p = some p' ∧ Represents p' (pre ++ text) bound

variable {f g : Printbuf → Option Printbuf}

theorem writes_nil : Writes some [] := by
  intro p pre bound _ h _
  exact ⟨p, rfl, by rwa [List.append_nil]⟩

theorem writes_memappend (t : CString) : Writes (·.memappend t) t := by
  intro p pre bound hbound h hlen
  obtain ⟨p', hp', hrep, -⟩ := memappend_eq h hbound hlen
  exact ⟨p', hp', hrep⟩

theorem writes_sprintbuf (t : CString) : Writes (·.sprintbuf t) t := by
  simpa only [sprintbuf_eq_memappend] using writes_memappend t

/-- **One after the other**, two printers append their texts one behind the other. -/
theorem Writes.bind (hf : Writes f s) (hg : Writes g t) :
    Writes (fun p => (f p).bind g) (s ++ t) := by
  intro p pre bound hbound h hlen
  rw [List.length_append] at hlen
  obtain ⟨p₁, hp₁, h₁⟩ := hf hbound h (by omega)
  obtain ⟨p₂, hp₂, h₂⟩ := hg hbound h₁ (by rw [List.length_append]; omega)
  refine ⟨p₂, ?_, by rwa [List.append_assoc] at h₂⟩
  exact (congrArg (Option.bind · g) hp₁).trans hp₂

end Printbuf

/-! ## The printer -/

open Printbuf

theorem writes_appendRun (run : CString) : Writes (appendRun run) run := by
  unfold appendRun
  split
  · rename_i hrun
    rw [hrun]
    exact writes_nil
  · exact writes_memappend run

theorem hexChar_eq {n : Nat} (h : n < 16) : hexChar n = Nat.digitChar n := by
  revert n
  decide

/-- **One round of the loop**: the byte is left in the run, or the run and an escape are
written. -/
theorem escapeLoop_cons (c : Char) (str : CString) :
    (Json.escape c = [c] ∧
      ∀ run p, escapeLoop run (c :: str) p = escapeLoop (run ++ [c]) str p) ∨
    ∃ f, Writes f (Json.escape c) ∧ ∀ run p, escapeLoop run (c :: str) p =
      (appendRun run p).bind fun p => (f p).bind (escapeLoop [] str) := by
  have happend : ∀ escaped, Json.escape c = escaped →
      (∀ run p, escapeLoop run (c :: str) p =
        (appendRun run p).bind fun p => (p.memappend escaped).bind (escapeLoop [] str)) →
      ∃ f, Writes f (Json.escape c) ∧ ∀ run p, escapeLoop run (c :: str) p =
        (appendRun run p).bind fun p => (f p).bind (escapeLoop [] str) := by
    rintro escaped rfl h
    exact ⟨_, writes_memappend _, h⟩
  by_cases h₁ : c = '\x08'
  · subst h₁
    exact .inr (happend _ rfl fun run p => rfl)
  by_cases h₂ : c = '\n'
  · subst h₂
    exact .inr (happend _ rfl fun run p => rfl)
  by_cases h₃ : c = '\r'
  · subst h₃
    exact .inr (happend _ rfl fun run p => rfl)
  by_cases h₄ : c = '\t'
  · subst h₄
    exact .inr (happend _ rfl fun run p => rfl)
  by_cases h₅ : c = '"'
  · subst h₅
    exact .inr (happend _ rfl fun run p => rfl)
  by_cases h₆ : c = '\\'
  · subst h₆
    exact .inr (happend _ rfl fun run p => rfl)
  by_cases h₇ : c = '/'
  · subst h₇
    exact .inr (happend _ rfl fun run p => rfl)
  have hescape : Json.escape c = if c.toNat < 32 then
      ['\\', 'u', '0', '0', Nat.digitChar (c.toNat / 16), Nat.digitChar (c.toNat % 16)]
    else [c] := by
    unfold Json.escape
    split <;> first | contradiction | rfl
  by_cases hlt : c.toNat < 32
  · refine .inr ⟨(·.sprintbuf
      ("\\u00".toList ++ [hexChar (c.toNat / 16), hexChar (c.toNat % 16)])), ?_, fun run p => ?_⟩
    · rw [hescape, if_pos hlt, ← hexChar_eq (n := c.toNat / 16) (by omega),
        ← hexChar_eq (n := c.toNat % 16) (by omega)]
      exact writes_sprintbuf _
    · rw [escapeLoop]
      simp only [h₁, h₂, h₃, h₄, h₅, h₆, h₇, hlt, if_true, if_false]
      rfl
  · refine .inl ⟨by rw [hescape, if_neg hlt], fun run p => ?_⟩
    rw [escapeLoop]
    simp only [h₁, h₂, h₃, h₄, h₅, h₆, h₇, hlt, if_false]

theorem writes_escapeLoop (run str : CString) :
    Writes (escapeLoop run str) (run ++ Json.escapeStr str) := by
  induction str generalizing run with
  | nil =>
    rw [Json.escapeStr, List.flatMap_nil, List.append_nil]
    exact writes_appendRun run
  | cons c str ih =>
    have hcons : Json.escapeStr (c :: str) = Json.escape c ++ Json.escapeStr str :=
      List.flatMap_cons
    rw [hcons]
    rcases escapeLoop_cons c str with ⟨hplain, hloop⟩ | ⟨f, hf, hloop⟩
    · rw [hplain, ← List.append_assoc]
      exact (funext (hloop run)).symm ▸ ih (run ++ [c])
    · have hrest := (writes_appendRun run).bind (hf.bind (ih []))
      rw [List.nil_append] at hrest
      exact (funext (hloop run)).symm ▸ hrest

theorem writes_jsonEscapeStr (str : CString) :
    Writes (jsonEscapeStr str) (Json.escapeStr str) :=
  writes_escapeLoop [] str

namespace Json

mutual

/-- **The printer writes the text of the value**, by induction on the value. -/
theorem writes_printInto : ∀ v : Json, Writes v.printInto v.toJsonString
  | null => writes_sprintbuf _
  | boolean true => writes_sprintbuf _
  | boolean false => writes_sprintbuf _
  | double _ => writes_sprintbuf _
  | int _ => writes_sprintbuf _
  | object entries =>
    (writes_sprintbuf ['{']).bind ((writes_printEntriesInto true entries).bind (writes_sprintbuf _))
  | array elements =>
    (writes_sprintbuf ['[']).bind
      ((writes_printElementsInto true elements).bind (writes_sprintbuf _))
  | string s =>
    (writes_sprintbuf ['"']).bind ((writes_jsonEscapeStr s).bind (writes_sprintbuf _))

theorem writes_printEntriesInto : ∀ (first : Bool) (entries : List (CString × Json)),
    Writes (printEntriesInto first entries) (entriesToJsonString first entries)
  | _, [] => writes_nil
  | first, (key, val) :: entries => by
    have hcomma : Writes (fun p => if first then some p else p.sprintbuf [','])
        (if first then [] else [',']) := by
      cases first with
      | true => exact writes_nil
      | false => exact writes_sprintbuf _
    have hentry := hcomma.bind ((writes_sprintbuf " \"".toList).bind
      ((writes_jsonEscapeStr key).bind ((writes_sprintbuf "\": ".toList).bind
        ((writes_printInto val).bind (writes_printEntriesInto false entries)))))
    rw [entriesToJsonString]
    simp only [List.append_assoc]
    exact hentry

theorem writes_printElementsInto : ∀ (first : Bool) (elements : List Json),
    Writes (printElementsInto first elements) (elementsToJsonString first elements)
  | _, [] => writes_nil
  | first, val :: elements => by
    have hcomma : Writes (fun p => if first then p.sprintbuf [' '] else p.sprintbuf ", ".toList)
        (if first then [' '] else ", ".toList) := by
      cases first with
      | true => exact writes_sprintbuf _
      | false => exact writes_sprintbuf _
    have helement := hcomma.bind
      ((writes_printInto val).bind (writes_printElementsInto false elements))
    rw [elementsToJsonString, List.append_assoc]
    exact helement

end

/-! ## Calls with one buffer -/

variable {pb : Option Printbuf} {bound : Nat}

theorem toJsonString_ne_nil (v : Json) : v.toJsonString ≠ [] := by
  obtain ⟨c, text, h, -⟩ := JsonTokener.exists_toJsonString_eq_cons v
  rw [h]
  exact List.cons_ne_nil c text

theorem printTarget_eq (h : ∀ p ∈ pb, ∃ text, p.Represents text bound) :
    ∃ p, printTarget pb = some p ∧ p.Represents [] bound := by
  cases pb with
  | none => exact ⟨.new, rfl, represents_new bound⟩
  | some p =>
    obtain ⟨text, hp⟩ := h p rfl
    obtain ⟨p', hp', hrep, -⟩ := reset_eq hp
    exact ⟨p', hp', hrep⟩

/-- The text of a value is read from the buffer that it was printed into. -/
theorem printInto_target {v : Json} {levels : Nat} (hv : v.Fits levels) (hbound : bound < 2 ^ 30)
    (hlen : v.toJsonString.length ≤ bound) (h : ∀ p ∈ pb, ∃ text, p.Represents text bound) :
    ∃ p₀ p, printTarget pb = some p₀ ∧ v.printInto p₀ = some p ∧
      p.text = some v.toJsonString ∧ p.Represents v.toJsonString bound := by
  obtain ⟨p₀, hp₀, hrep₀⟩ := printTarget_eq h
  have hfit : ([] : CString).length + v.toJsonString.length ≤ bound := by
    rwa [List.length_nil, Nat.zero_add]
  obtain ⟨p, hp, hrep⟩ := writes_printInto v hbound hrep₀ hfit
  refine ⟨p₀, p, hp₀, hp, ?_, hrep⟩
  have hnul := nul_notMem_toJsonString v levels hv
  rw [(hrep.terminated (toJsonString_ne_nil v)).text_eq]
  exact congrArg some (JsonTokener.cstr_of_nul_notMem hnul)

/-- **One call**, whatever is in the buffer: the text is that of the value, and the buffer can be
used again. -/
theorem toJsonStringIn_eq {v : Json} {levels : Nat} (hv : v.Fits levels) (hbound : bound < 2 ^ 30)
    (hlen : v.toJsonString.length ≤ bound) (h : ∀ p ∈ pb, ∃ text, p.Represents text bound) :
    ∃ pb', v.toJsonStringIn pb = some (v.toJsonString, pb') ∧
      ∀ p ∈ pb', ∃ text, p.Represents text bound := by
  obtain ⟨p₀, p, hp₀, hp, htext, hrep⟩ := printInto_target hv hbound hlen h
  have hrep' : ∀ p' ∈ some p, ∃ text, p'.Represents text bound := by
    rintro p' ⟨⟩
    exact ⟨_, hrep⟩
  cases v with
  | null => exact ⟨pb, rfl, h⟩
  | boolean | double | int | object | array | string =>
    refine ⟨some p, ?_, hrep'⟩
    simp only [toJsonStringIn, hp₀, hp, htext, Option.bind_eq_bind, Option.bind_some]
    rfl

/-- **Every call returns the text of the value**, whatever the calls before it left in the
buffer: no access is outside the block, every byte read was written, no size overflows, and
the block is at most about twice as long as the longest text. -/
theorem toJsonStrings_eq {vs : List Json} (bound : Nat) (hvs : ∀ v ∈ vs, ∃ levels, v.Fits levels)
    (hbound : bound < 2 ^ 30) (hlen : ∀ v ∈ vs, v.toJsonString.length ≤ bound) :
    ∃ pb, toJsonStrings none vs = some (vs.map toJsonString, pb) ∧
      ∀ p ∈ pb, p.size ≤ max 32 (2 * bound + 8) := by
  suffices hrun : ∀ pb : Option Printbuf, (∀ p ∈ pb, ∃ text, p.Represents text bound) →
      ∃ pb', toJsonStrings pb vs = some (vs.map toJsonString, pb') ∧
        ∀ p ∈ pb', ∃ text, p.Represents text bound by
    obtain ⟨pb, hpb, hrep⟩ := hrun none (by rintro p ⟨⟩)
    refine ⟨pb, hpb, fun p hp => ?_⟩
    obtain ⟨text, h⟩ := hrep p hp
    exact h.size_le
  induction vs with
  | nil => exact fun pb h => ⟨pb, rfl, h⟩
  | cons v vs ih =>
    intro pb h
    obtain ⟨levels, hv⟩ := hvs v (List.mem_cons_self ..)
    obtain ⟨pb₁, hpb₁, h₁⟩ := toJsonStringIn_eq hv hbound (hlen v (List.mem_cons_self ..)) h
    obtain ⟨pb₂, hpb₂, h₂⟩ := ih (fun v hv => hvs v (List.mem_cons_of_mem _ hv))
      (fun v hv => hlen v (List.mem_cons_of_mem _ hv)) pb₁ h₁
    refine ⟨pb₂, ?_, h₂⟩
    simp only [toJsonStrings, hpb₁, hpb₂, Option.bind_eq_bind, Option.bind_some, List.map_cons]
    rfl

/-- An object, printed before and after an entry is added. -/
theorem toJsonStrings_entry :
    ∃ pb, toJsonStrings none [object [], object [("a/b".toList, string "\n".toList)]] =
        some (["\x7b \x7d".toList, "\x7b \"a\\/b\": \"\\n\" \x7d".toList], pb) ∧
      ∀ p ∈ pb, p.size ≤ max 32 (2 * 20 + 8) :=
  toJsonStrings_eq 20 (fun v hv => ⟨1, by
      rcases List.mem_pair.mp hv with rfl | rfl
      · exact ⟨Nat.one_pos, trivial⟩
      · exact ⟨Nat.one_pos, by decide, show nul ∉ ['\n'] by decide, trivial⟩⟩)
    (by decide) (by decide)

end Json
end StatsdC
