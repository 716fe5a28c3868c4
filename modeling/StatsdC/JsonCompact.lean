import StatsdC.JsonText

/-!
# JSON without white space

The texts that clients send: arrays and objects without white space, with keys that need no escape.
The tokener reads them as the values that they stand for (`readsAs_compactObject`,
`readsAs_compactArray`).

`ReadsAs` is what a piece of text has to do to stand for a value: wherever there are enough levels
free, the tokener reads it as the value and goes on behind it.  It also has to begin like a value,
so that it can follow a comma.  Texts that do so can be put together: an object is made of entries
whose values read as something, and an array of elements that do, whatever these are made of.  The
entries are in an `EntryText`, with the key, the text of the value, and the value it stands for.

The printer of json-c writes blanks, so the texts of `StatsdC.JsonText` are not among these, but the
rules about positions in a text are the same.  That a number ends where it should is the one point
in which white space matters: a numeral is read as far as its characters go, and so what follows it
must be no part of a number (`headD_flatMap_comma`).  A whole text that reads as a value is parsed
to it (`jsonTokenerParse_of_readsAs`).
-/

namespace StatsdC
open CString

/-- Texts with a comma between each two, as a writer without white space puts them. -/
def commaSep : List CString → CString
  | [] => []
  | text :: texts => text ++ texts.flatMap fun text => ',' :: text

/-- A quoted string that needs no escape, as a client writes its keys. -/
def quoted (s : CString) : CString := '"' :: (s ++ ['"'])

/-- An entry of an object: a key, and the text of its value. -/
def compactEntry (e : CString × CString) : CString := quoted e.1 ++ ':' :: e.2

/-- An object, from its entries. -/
def compactObject (es : List (CString × CString)) : CString :=
  '{' :: (commaSep (es.map compactEntry) ++ ['}'])

/-- An array, from the texts of its elements, without white space. -/
def compactArray (texts : List CString) : CString := '[' :: (commaSep texts ++ [']'])

namespace JsonTokener

/-- Where `levels` levels are free, `text` is the text of `v`, and begins like one. -/
structure ReadsAs (levels : Nat) (text : CString) (v : Json) : Prop where
  starts : ∃ c t, text = c :: t ∧ startsValue c = true
  reads : Reads levels text (some v)

/-- A string without a NUL that needs no escape. -/
structure PlainString (s : CString) : Prop where
  nul_notMem : nul ∉ s
  plain : ∀ c ∈ s, c ≠ '"' ∧ c ≠ '\\'

theorem readsAs_quoted {levels : Nat} {s : CString} (hs : PlainString s) :
    ReadsAs levels (quoted s) (.string s) :=
  ⟨⟨_, _, rfl, by decide⟩, reads_quoted (spells_plain hs.plain) hs.nul_notMem⟩

theorem ReadsAs.startsValue_headD {levels : Nat} {text : CString} {v : Json}
    (h : ReadsAs levels text v) (tail : CString) :
    startsValue ((text ++ tail).headD nul) = true := by
  obtain ⟨c, t, rfl, hc⟩ := h.starts
  exact hc

/-- An entry of an object with its value: the key, its text and what that stands for. -/
structure EntryText where
  key : CString
  text : CString
  value : Json

/-- The entry reads as what it stands for: its key is a plain string, and its text reads as its
value. -/
structure EntryText.ReadsAs (levels : Nat) (e : EntryText) : Prop where
  key : PlainString e.key
  value : JsonTokener.ReadsAs levels e.text e.value

variable {tok : JsonTokener} {v : Json} {r : SuspendedSrec} {below : List SuspendedSrec}
  {entries : List (CString × Json)} {elements : List Json} {key rest tail : CString} {levels : Nat}

/-! ## Objects -/

/-- The entry as it stands in a text. -/
def EntryText.entry (e : EntryText) : CString := compactEntry (e.key, e.text)

/-- An entry up to its value, which leaves the tokener in the state behind a value of the object. -/
theorem Waiting.run_entryText (h : Waiting tok .objectFieldStart (.object entries) below)
    {e : EntryText} (he : e.ReadsAs levels)
    (hdepth : below.length + 1 + levels < jsonTokenerMaxDepth)
    (htail : tail.headD nul ∉ jsonNumberChars) :
    ∃ tok' r, Waiting tok' .finish e.value (r :: below) ∧ AddsEntry r entries e.key ∧
      tok.run (e.entry ++ tail) = tok'.run tail := by
  obtain ⟨tok₁, hwaiting, hname, hrun₁⟩ :=
    h.run_quotedKey (spells_plain he.key.plain) he.key.nul_notMem
  obtain ⟨tok₂, r, htop, hbelow, hadds, hrun₂⟩ :=
    hwaiting.run_pushEntry hname (he.value.startsValue_headD tail) (by omega)
  have hread := he.value.reads tok₂ tail htop (by rw [hbelow, List.length_cons]; exact hdepth) htail
  rw [hbelow] at hread
  obtain ⟨tok₃, hfinish, hrun₃⟩ := hread
  have htext : e.entry ++ tail = '"' :: (e.key ++ '"' :: ':' :: (e.text ++ tail)) := by
    simp [EntryText.entry, compactEntry, quoted]
  refine ⟨tok₃, r, hfinish, hadds, ?_⟩
  rw [htext, hrun₁, hrun₂, hrun₃]

/-- What follows an entry or an element is no part of a number. -/
theorem headD_flatMap_comma {α : Type} (f : α → CString) (xs : List α) {c : Char}
    (hc : c ∉ jsonNumberChars) :
    ((xs.flatMap fun x => ',' :: f x) ++ c :: rest).headD nul ∉ jsonNumberChars := by
  cases xs with
  | nil => exact hc
  | cons x xs => exact (by decide : ',' ∉ jsonNumberChars)

/-- The entries behind the first one, to the end of the object. -/
theorem Waiting.run_entryTexts {es : List EntryText} (hes : ∀ e ∈ es, e.ReadsAs levels)
    (h : Waiting tok .finish v (r :: below)) (hr : AddsEntry r entries key)
    (hdepth : below.length + 1 + levels < jsonTokenerMaxDepth) :
    ∃ tok', Waiting tok' .finish (.object (lhTableAddAll (lhTableAdd entries key v)
        (es.map fun e => (e.key, e.value)))) below ∧
      tok.run ((es.flatMap fun e => ',' :: e.entry) ++ '}' :: rest) = tok'.run rest := by
  induction es generalizing tok v r entries key with
  | nil =>
    obtain ⟨tok₁, hsep, hrun₁⟩ := h.run_addEntry hr '}' rfl (by decide)
    obtain ⟨tok₂, hfinish, hrun₂⟩ := hsep.run_punct '}' rfl (by decide) rfl
    exact ⟨tok₂, hfinish, (hrun₁ rest).trans (hrun₂ rest)⟩
  | cons e es ih =>
    obtain ⟨tok₁, hsep, hrun₁⟩ := h.run_addEntry hr ',' rfl (by decide)
    obtain ⟨tok₂, hfield, hrun₂⟩ := hsep.run_punct ',' rfl (by decide) rfl
    have htail := @headD_flatMap_comma rest _ EntryText.entry es '}' (by decide)
    obtain ⟨tok₃, r', hvalue, hadds, hrun₃⟩ :=
      hfield.run_entryText (hes e (List.mem_cons_self ..)) hdepth htail
    obtain ⟨tok₄, hfinish, hrun₄⟩ := ih (fun e he => hes e (List.mem_cons_of_mem _ he)) hvalue hadds
    refine ⟨tok₄, hfinish, ?_⟩
    rw [List.flatMap_cons, List.append_assoc, List.cons_append, hrun₁, hrun₂, hrun₃, hrun₄]

/-- **An object without white space** reads as its entries, where a key that is given twice counts
once and last. -/
theorem readsAs_compactObject {es : List EntryText} (hes : ∀ e ∈ es, e.ReadsAs levels) :
    ReadsAs (levels + 1) (compactObject (es.map fun e => (e.key, e.text)))
      (.object (lhTableAddAll [] (es.map fun e => (e.key, e.value)))) := by
  refine ⟨⟨_, _, rfl, by decide⟩, fun tok rest htop hdepth _ => ?_⟩
  obtain ⟨tok₁, hopen, hrun₁⟩ := run_openObject htop
  cases es with
  | nil =>
    obtain ⟨tok₂, hfinish, hrun₂⟩ := hopen.run_punct '}' rfl (by decide) rfl
    exact ⟨tok₂, hfinish, (hrun₁ _).trans (hrun₂ rest)⟩
  | cons e es =>
    have htail := @headD_flatMap_comma rest _ EntryText.entry es '}' (by decide)
    obtain ⟨tok₂, r, hvalue, hadds, hrun₂⟩ :=
      hopen.run_entryText (hes e (List.mem_cons_self ..)) (by omega) htail
    obtain ⟨tok₃, hfinish, hrun₃⟩ := hvalue.run_entryTexts
      (fun e he => hes e (List.mem_cons_of_mem _ he)) hadds (by omega)
    have htext : compactObject ((e :: es).map fun e => (e.key, e.text)) ++ rest =
        '{' :: (e.entry ++ ((es.flatMap fun e => ',' :: e.entry) ++ '}' :: rest)) := by
      simp [compactObject, commaSep, EntryText.entry, List.flatMap_map, Function.comp_def]
    exact ⟨tok₃, hfinish, by rw [htext, hrun₁, hrun₂, hrun₃]⟩

/-! ## Arrays -/

/-- An element behind the opening bracket or a comma is added to the array. -/
theorem Waiting.run_elementText (h : Waiting tok .array (.array elements) below)
    {x : CString × Json} (hx : ReadsAs levels x.1 x.2)
    (hdepth : below.length + 1 + levels < jsonTokenerMaxDepth)
    (htail : tail.headD nul ∉ jsonNumberChars) :
    ∃ tok' r, Waiting tok' .finish x.2 (r :: below) ∧ AddsElement r elements ∧
      tok.run (x.1 ++ tail) = tok'.run tail := by
  obtain ⟨tok₁, r, htop, hbelow, hadds, hrun₁⟩ :=
    h.run_pushElement (hx.startsValue_headD tail) (by omega)
  have hread := hx.reads tok₁ tail htop (by rw [hbelow, List.length_cons]; exact hdepth) htail
  rw [hbelow] at hread
  obtain ⟨tok₂, hfinish, hrun₂⟩ := hread
  exact ⟨tok₂, r, hfinish, hadds, hrun₁.trans hrun₂⟩

/-- The elements behind the first one, to the end of the array. -/
theorem Waiting.run_elementTexts {xs : List (CString × Json)}
    (hxs : ∀ x ∈ xs, ReadsAs levels x.1 x.2) (h : Waiting tok .finish v (r :: below))
    (hr : AddsElement r elements) (hdepth : below.length + 1 + levels < jsonTokenerMaxDepth) :
    ∃ tok', Waiting tok' .finish (.array (elements ++ v :: xs.map Prod.snd)) below ∧
      tok.run ((xs.flatMap fun x => ',' :: x.1) ++ ']' :: rest) = tok'.run rest := by
  induction xs generalizing tok v r elements with
  | nil =>
    obtain ⟨tok₁, hsep, hrun₁⟩ := h.run_addElement hr ']' rfl (by decide)
    obtain ⟨tok₂, hfinish, hrun₂⟩ := hsep.run_punct ']' rfl (by decide) rfl
    exact ⟨tok₂, hfinish, (hrun₁ rest).trans (hrun₂ rest)⟩
  | cons x xs ih =>
    obtain ⟨tok₁, hsep, hrun₁⟩ := h.run_addElement hr ',' rfl (by decide)
    obtain ⟨tok₂, harray, hrun₂⟩ := hsep.run_punct ',' rfl (by decide) rfl
    have htail := @headD_flatMap_comma rest _ (Prod.fst : CString × Json → CString) xs ']'
      (by decide)
    obtain ⟨tok₃, r', hvalue, hadds, hrun₃⟩ :=
      harray.run_elementText (hxs x (List.mem_cons_self ..)) hdepth htail
    obtain ⟨tok₄, hfinish, hrun₄⟩ := ih (fun x hx => hxs x (List.mem_cons_of_mem _ hx)) hvalue hadds
    rw [List.append_assoc] at hfinish
    refine ⟨tok₄, hfinish, ?_⟩
    rw [List.flatMap_cons, List.append_assoc, List.cons_append, hrun₁, hrun₂, hrun₃, hrun₄]

/-- **An array without white space** reads as its elements, in their order. -/
theorem readsAs_compactArray {xs : List (CString × Json)} (hxs : ∀ x ∈ xs, ReadsAs levels x.1 x.2) :
    ReadsAs (levels + 1) (compactArray (xs.map Prod.fst)) (.array (xs.map Prod.snd)) := by
  refine ⟨⟨_, _, rfl, by decide⟩, fun tok rest htop hdepth _ => ?_⟩
  obtain ⟨tok₁, hopen, hrun₁⟩ := run_openArray htop
  cases xs with
  | nil =>
    obtain ⟨tok₂, hfinish, hrun₂⟩ := hopen.run_punct ']' rfl (by decide) rfl
    exact ⟨tok₂, hfinish, (hrun₁ _).trans (hrun₂ rest)⟩
  | cons x xs =>
    have htail := @headD_flatMap_comma rest _ (Prod.fst : CString × Json → CString) xs ']'
      (by decide)
    obtain ⟨tok₂, r, hvalue, hadds, hrun₂⟩ :=
      hopen.run_elementText (hxs x (List.mem_cons_self ..)) (by omega) htail
    obtain ⟨tok₃, hfinish, hrun₃⟩ := hvalue.run_elementTexts
      (fun x hx => hxs x (List.mem_cons_of_mem _ hx)) hadds (by omega)
    have htext : compactArray ((x :: xs).map Prod.fst) ++ rest =
        '[' :: (x.1 ++ ((xs.flatMap fun x => ',' :: x.1) ++ ']' :: rest)) := by
      simp [compactArray, commaSep, List.flatMap_map]
    exact ⟨tok₃, hfinish, by rw [htext, hrun₁, hrun₂, hrun₃]⟩

end JsonTokener

/-- A text that reads as a value is parsed to it, as long as the tokener has levels for it. -/
theorem jsonTokenerParse_of_readsAs {levels : Nat} {text : CString} {v : Json}
    (h : JsonTokener.ReadsAs levels text v) (hlevels : levels < jsonTokenerMaxDepth) :
    jsonTokenerParse text = .ok v := by
  obtain ⟨tok, hfinish, hrun⟩ := h.reads .new [] rfl
    (by rw [show JsonTokener.new.below = [] from rfl, List.length_nil, Nat.zero_add]; exact hlevels)
    (by decide)
  rw [List.append_nil] at hrun
  exact hrun.trans hfinish.run_nil

end StatsdC
