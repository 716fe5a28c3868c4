import Mathlib.Data.List.TakeWhile

/-!
# C strings in a buffer

A buffer is a list of bytes, and a pointer into it is an offset.  The string at a pointer is what
stands before the next NUL.  Two kinds of function write to such a buffer, and both are defined
here over arbitrary delimiters and filters: `strtokR`, the reentrant tokeniser of the C library,
which ends each token with a NUL of its own, and `rewriteInPlace`, a filter that copies its result
back over its argument.  A `TextBuffer` is the third thing a program does with a buffer, a text
that is formatted into a block of a given size; `TextBuffer.Fits` is the condition for it.

The specifications follow one pattern.  `StringAt buf p s rest` says that at `p` the buffer holds
`s`, its NUL, and then `rest`; a function's lemma says which string is where afterwards, and that
everything from some offset on is untouched.  The second half is what makes it possible to run one
tokeniser inside another over one buffer.

What a tokeniser finds is also said without a buffer: `tokens delim s` is the list of the nonempty
pieces of `s`.  `strtokR_some` and `strtokR_none` compute a call from the next token of the text,
and `strtokR_restart` says what a tokeniser that is started over at the same string finds: the
first token again, and nothing behind it, because the string now ends there.
-/

/-- The bytes of a C string, without its NUL. -/
abbrev CString := List Char

namespace CString

/-- The NUL byte. -/
def nul : Char := Char.ofNat 0

/-- Bytes in memory. -/
abbrev Buffer := List Char

/-- At offset `p` the buffer holds the string `s`, its NUL, and then `rest`. -/
structure StringAt (buf : Buffer) (p : Nat) (s rest : CString) : Prop where
  drop_eq : buf.drop p = s ++ nul :: rest
  nul_notMem : nul ∉ s

/-- The string at offset `p`, up to the first NUL or the end of the buffer. -/
def cstr (buf : Buffer) (p : Nat) : CString := (buf.drop p).takeWhile (· != nul)

/-- The bytes from `p` on replaced by `bytes`, and all others as they were. -/
def write (buf : Buffer) (p : Nat) (bytes : List Char) : Buffer :=
  buf.take p ++ bytes ++ buf.drop (p + bytes.length)

variable {buf : Buffer} {p : Nat} {s rest : CString}

theorem StringAt.lt_length (h : StringAt buf p s rest) : p + s.length < buf.length := by
  have hlen := congrArg List.length h.drop_eq
  simp only [List.length_drop, List.length_append, List.length_cons] at hlen
  omega

/-- A run of bytes that satisfy `q`, up to the first that does not. -/
theorem takeWhile_append_cons {q : Char → Bool} {c : Char} {t : List Char} (ht : ∀ a ∈ t, q a)
    (hc : q c = false) (r : List Char) : (t ++ c :: r).takeWhile q = t := by
  rw [List.takeWhile_append_of_pos ht, List.takeWhile_cons_of_neg (by simp [hc]), List.append_nil]

theorem StringAt.cstr_eq (h : StringAt buf p s rest) : cstr buf p = s := by
  rw [cstr, h.drop_eq]
  refine takeWhile_append_cons (fun a ha => ?_) (by simp) rest
  simp only [bne_iff_ne, ne_eq]
  rintro rfl
  exact h.nul_notMem ha

/-- The string that starts inside another one. -/
theorem StringAt.shift {t : CString} (h : StringAt buf p (s ++ t) rest) :
    StringAt buf (p + s.length) t rest := by
  refine ⟨?_, fun hm => h.nul_notMem (List.mem_append_right s hm)⟩
  rw [← List.drop_drop, h.drop_eq, List.append_assoc, List.drop_left]

theorem drop_write (hp : p ≤ buf.length) :
    (write buf p s).drop p = s ++ buf.drop (p + s.length) := by
  rw [write, List.append_assoc, List.drop_append_of_le_length (by simp [hp]),
    List.drop_of_length_le (List.length_take_le p buf), List.nil_append]

/-- A write leaves what follows it alone. -/
theorem drop_write_of_le {q : Nat} (hp : p ≤ buf.length) (hq : p + s.length ≤ q) :
    (write buf p s).drop q = buf.drop q := by
  obtain ⟨k, rfl⟩ := Nat.exists_eq_add_of_le hq
  rw [Nat.add_assoc, ← List.drop_drop, drop_write hp, ← List.drop_drop, List.drop_left,
    List.drop_drop, Nat.add_assoc]

/-- A buffer that a text is formatted into: the bytes reserved for it, and the text. -/
structure TextBuffer where
  size : Nat
  text : CString

/-- There is room for the text and its NUL, so that `sprintf` stays inside. -/
def TextBuffer.Fits (b : TextBuffer) : Prop := b.text.length + 1 ≤ b.size

/-! ## Rewriting a string in place -/

/-- `memcpy(k, dest, c + 1)`: the string at `p` replaced by its image under `f`. -/
def rewriteInPlace (f : CString → CString) (buf : Buffer) (p : Nat) : Buffer :=
  write buf p (f (cstr buf p) ++ [nul])

section Rewrite
variable {f : CString → CString}

/-- The rewritten string. -/
theorem rewriteInPlace_cstr (h : StringAt buf p s rest) (hf : nul ∉ f s) :
    cstr (rewriteInPlace f buf p) p = f s := by
  rw [rewriteInPlace, h.cstr_eq]
  have hp : p ≤ buf.length := by have := h.lt_length; omega
  have hat : StringAt (write buf p (f s ++ [nul])) p (f s) (buf.drop (p + (f s ++ [nul]).length)) :=
    ⟨by rw [drop_write hp, List.append_assoc, List.singleton_append], hf⟩
  exact hat.cstr_eq

/-- A string that does not grow is rewritten without touching what follows it, its
old NUL included. -/
theorem drop_rewriteInPlace {q : Nat} (h : StringAt buf p s rest) (hf : (f s).length ≤ s.length)
    (hq : p + s.length ≤ q) : (rewriteInPlace f buf p).drop q = buf.drop q := by
  have hlt := h.lt_length
  have hlen : (f s ++ [nul]).length = (f s).length + 1 := by simp
  rw [rewriteInPlace, h.cstr_eq]
  rcases Nat.lt_or_ge ((f s).length + p) q with hlt' | hge
  · exact drop_write_of_le (by omega) (by omega)
  · -- the copy is as long as the string: its NUL falls on the old one
    obtain rfl : q = p + (f s).length := by omega
    have heq : (f s).length = s.length := by omega
    have hold : buf.drop (p + s.length) = nul :: rest := by
      rw [← List.drop_drop, h.drop_eq, List.drop_left]
    rw [← List.drop_drop, drop_write (by omega), List.append_assoc, List.drop_left, hlen, heq,
      hold, ← Nat.add_assoc, ← List.drop_drop, hold]
    rfl

end Rewrite

/-! ## The tokeniser -/

/-- What `strtok_r` leaves behind: the token's offset (`none` is `NULL`), the save
pointer, and the buffer. -/
structure Strtok where
  token : Option Nat
  save : Nat
  buf : Buffer

/-- `strtok_r` with the one delimiter `d`, scanning from offset `p`: delimiters are
skipped, the token ends at the next delimiter, which becomes its NUL, or at the end
of the string. -/
def strtokR (buf : Buffer) (p : Nat) (d : Char) : Strtok :=
  let p := p + ((buf.drop p).takeWhile (· == d)).length
  if buf.getD p nul = nul then
    ⟨none, p, buf⟩
  else
    let e := p + ((buf.drop p).takeWhile (fun c => c != d && c != nul)).length
    if buf.getD e nul = nul then ⟨some p, e, buf⟩ else ⟨some p, e + 1, write buf e [nul]⟩

/-- The first token of a string and what is left for the next call. -/
def nextToken (d : Char) (w : CString) : Option (CString × CString) :=
  match w.dropWhile (· == d) with
  | [] => none
  | c :: cs => some ((c :: cs).takeWhile (· != d), ((c :: cs).dropWhile (· != d)).tail)

/-- All the tokens of a string: its nonempty fields between delimiters, in their order. -/
def tokens (d : Char) (w : CString) : List CString := (w.splitOn d).filter (· ≠ [])

variable {d : Char} {w : CString}

/-- How a string is cut at its first token: delimiters, the token, and then the end
of the string or one more delimiter. -/
theorem nextToken_eq_some {t r : CString} (h : nextToken d w = some (t, r)) :
    ∃ ds, (∀ c ∈ ds, c = d) ∧ t ≠ [] ∧ d ∉ t ∧
      ((w = ds ++ t ∧ r = []) ∨ w = ds ++ (t ++ d :: r)) := by
  refine ⟨w.takeWhile (· == d), fun c hc => by simpa using List.mem_takeWhile_imp hc, ?_⟩
  have hw := List.takeWhile_append_dropWhile (p := (· == d)) (l := w)
  unfold nextToken at h
  split at h
  · cases h
  · rename_i c cs hdrop
    have hc : c ≠ d := by
      have hhead := List.head?_dropWhile_not (· == d) w
      rw [hdrop] at hhead
      simpa using hhead
    simp only [Option.some.injEq, Prod.mk.injEq] at h
    obtain ⟨rfl, rfl⟩ := h
    have hcs := List.takeWhile_append_dropWhile (p := (· != d)) (l := c :: cs)
    refine ⟨by simp [hc], fun hm => ?_, ?_⟩
    · simpa using List.mem_takeWhile_imp hm
    · rw [hdrop] at hw
      cases hrest : (c :: cs).dropWhile (· != d) with
      | nil =>
        rw [hrest, List.append_nil] at hcs
        exact .inl ⟨by rw [hcs, hw], rfl⟩
      | cons e r =>
        have he : e = d := by
          have hhead := List.head?_dropWhile_not (· != d) (c :: cs)
          rw [hrest] at hhead
          simpa using hhead
        rw [hrest, he] at hcs
        exact .inr (by rw [List.tail_cons, hcs, hw])

theorem nextToken_eq_none (h : nextToken d w = none) : ∀ c ∈ w, c = d := by
  unfold nextToken at h
  split at h
  · rename_i hdrop
    intro c hc
    simpa using List.dropWhile_eq_nil_iff.mp hdrop c hc
  · cases h

theorem tokens_delimiters {ds : CString} (h : ∀ c ∈ ds, c = d) (w : CString) :
    tokens d (ds ++ w) = tokens d w := by
  induction ds with
  | nil => rfl
  | cons c ds ih =>
    obtain rfl : c = d := h c (List.mem_cons_self ..)
    rw [List.cons_append, ← ih fun a ha => h a (List.mem_cons_of_mem _ ha), tokens,
      List.splitOn_cons_eq_if_modifyHead]
    simp [tokens]

theorem tokens_single {t : CString} (hne : t ≠ []) (ht : d ∉ t) : tokens d t = [t] := by
  rw [tokens, List.splitOn_eq_singleton ht]
  simp [hne]

theorem tokens_cons {t : CString} (hne : t ≠ []) (ht : d ∉ t) (r : CString) :
    tokens d (t ++ d :: r) = t :: tokens d r := by
  rw [tokens, List.splitOn_append_cons_self_of_not_mem ht, List.filter_cons_of_pos (by simp [hne])]
  rfl

/-- The tokens of a string are its first token and the tokens of what is left. -/
theorem tokens_eq (d : Char) (w : CString) :
    tokens d w =
      match nextToken d w with
      | none => []
      | some (t, r) => t :: tokens d r := by
  cases h : nextToken d w with
  | none =>
    have hall := nextToken_eq_none h
    rw [← List.append_nil w, tokens_delimiters hall]
    simp [tokens]
  | some tr =>
    obtain ⟨t, r⟩ := tr
    obtain ⟨ds, hds, hne, ht, ⟨rfl, rfl⟩ | rfl⟩ := nextToken_eq_some h
    · rw [tokens_delimiters hds, tokens_single hne ht]
      simp [tokens]
    · rw [tokens_delimiters hds, tokens_cons hne ht]

theorem nextToken_length {t r : CString} (h : nextToken d w = some (t, r)) :
    t.length + r.length ≤ w.length ∧ 0 < t.length := by
  obtain ⟨ds, -, hne, -, ⟨rfl, rfl⟩ | rfl⟩ := nextToken_eq_some h
  all_goals
    have := List.length_pos_iff.mpr hne
    simp only [List.length_append, List.length_cons, List.length_nil]
    omega

section Spec
variable {w : CString}

theorem StringAt.getD_nul (h : StringAt buf p [] rest) : buf.getD p nul = nul := by
  have hget : (buf.drop p)[0]? = some nul := by rw [h.drop_eq]; rfl
  rw [List.getElem?_drop, Nat.add_zero] at hget
  rw [List.getD_eq_getElem?_getD, hget, Option.getD_some]

theorem StringAt.getD_ne {c : Char} {s : CString} (h : StringAt buf p (c :: s) rest) :
    buf.getD p nul = c ∧ c ≠ nul := by
  have hget : (buf.drop p)[0]? = some c := by rw [h.drop_eq]; rfl
  rw [List.getElem?_drop, Nat.add_zero] at hget
  refine ⟨by rw [List.getD_eq_getElem?_getD, hget, Option.getD_some], ?_⟩
  rintro rfl
  exact h.nul_notMem (List.mem_cons_self ..)

/-- The scan over the delimiters before a token. -/
theorem span_delimiters {ds t : CString} (hd : d ≠ nul) (h : StringAt buf p (ds ++ t) rest)
    (hds : ∀ c ∈ ds, c = d) (ht : d ∉ t.take 1) :
    ((buf.drop p).takeWhile (· == d)).length = ds.length := by
  rw [h.drop_eq, List.append_assoc]
  cases t with
  | nil =>
    rw [List.nil_append, takeWhile_append_cons (by simpa using hds) (by simpa using hd.symm)]
  | cons c t =>
    have hc : c ≠ d := by rintro rfl; simp at ht
    rw [List.cons_append, takeWhile_append_cons (by simpa using hds) (by simpa using hc)]

/-- **`strtok_r` without a token left**: the buffer is as it was, and no further call finds one. -/
theorem strtokR_none (hd : d ≠ nul) (h : StringAt buf p w rest) (hw : nextToken d w = none) :
    strtokR buf p d = ⟨none, p + w.length, buf⟩ := by
  have hall := nextToken_eq_none hw
  rw [← List.append_nil w] at h
  have hspan := span_delimiters hd h hall (by simp)
  simp only [strtokR, hspan, h.shift.getD_nul, if_true]

/-- A delimiter becomes the NUL of what stands before it. -/
theorem StringAt.cut {s r : CString} (h : StringAt buf p (s ++ d :: r) rest) :
    StringAt (write buf (p + s.length) [nul]) p s (r ++ nul :: rest) ∧
      StringAt (write buf (p + s.length) [nul]) (p + s.length + 1) r rest := by
  have hdel := h.shift
  have hlt := hdel.lt_length
  simp only [List.length_cons] at hlt
  have hle : p + s.length ≤ buf.length := by omega
  refine ⟨⟨?_, fun hm => h.nul_notMem (List.mem_append_left _ hm)⟩,
    ⟨?_, fun hm => hdel.nul_notMem (List.mem_cons_of_mem _ hm)⟩⟩
  · rw [write, List.append_assoc, List.drop_append_of_le_length (by simp; omega), List.drop_take,
      h.drop_eq, Nat.add_sub_cancel_left, List.append_assoc, List.take_left,
      List.length_singleton, ← List.drop_drop, hdel.drop_eq]
    rfl
  · rw [drop_write_of_le hle (by simp), ← List.drop_drop, hdel.drop_eq]
    rfl

/-- **`strtok_r` cuts the string behind its first token**: the string at `p` is now the
delimiters and the token, and the save pointer is at what is left. -/
theorem strtokR_cut {t r : CString} (hd : d ≠ nul) (h : StringAt buf p w rest)
    (hw : nextToken d w = some (t, r)) :
    ∃ ds save buf' mid, (∀ c ∈ ds, c = d) ∧
      strtokR buf p d = ⟨some (p + ds.length), save, buf'⟩ ∧ StringAt buf' p (ds ++ t) mid ∧
      StringAt buf' save r rest ∧ p + ds.length + t.length ≤ save ∧
      save + r.length = p + w.length := by
  obtain ⟨ds, hds, hne, ht, hcut⟩ := nextToken_eq_some hw
  obtain ⟨c, t', rfl⟩ := List.exists_cons_of_ne_nil hne
  -- the string does not begin with a delimiter
  have hfirst : ∀ u, d ∉ ((c :: t') ++ u).take 1 := fun u hm => by
    simp only [List.cons_append, List.take_succ_cons, List.take_zero, List.mem_singleton] at hm
    exact ht (hm ▸ List.mem_cons_self ..)
  rcases hcut with ⟨rfl, rfl⟩ | rfl
  · -- the token ends with the string
    have hspan := span_delimiters hd h hds (by simpa using hfirst [])
    have htok := h.shift
    have hnul := htok.getD_ne
    have hpred : ∀ a ∈ c :: t', (a != d && a != nul) = true := by
      intro a ha
      have h1 : a ≠ d := fun he => ht (he ▸ ha)
      have h2 : a ≠ nul := fun he => htok.nul_notMem (he ▸ ha)
      simp [h1, h2]
    have hend : ((buf.drop (p + ds.length)).takeWhile (fun c => c != d && c != nul)).length
        = (c :: t').length := by
      rw [htok.drop_eq, takeWhile_append_cons hpred (by simp)]
    have hlast : StringAt buf (p + ds.length + (c :: t').length) [] rest := by
      have hs := htok
      rw [← List.append_nil (c :: t')] at hs
      exact hs.shift
    refine ⟨ds, p + ds.length + (c :: t').length, buf, rest, hds, ?_, h, hlast,
      Nat.le_refl _, by simp; omega⟩
    simp only [strtokR, hspan, hnul.1, if_neg hnul.2, hend, hlast.getD_nul, if_true]
  · -- the token ends at a delimiter, which becomes its NUL
    have hspan := span_delimiters hd h hds (hfirst _)
    have htok := h.shift
    have hnul := (show StringAt buf (p + ds.length) (c :: (t' ++ d :: r)) rest from htok).getD_ne
    have hpred : ∀ a ∈ c :: t', (a != d && a != nul) = true := by
      intro a ha
      have h1 : a ≠ d := fun he => ht (he ▸ ha)
      have h2 : a ≠ nul := fun he => htok.nul_notMem (he ▸ List.mem_append_left _ ha)
      simp [h1, h2]
    have hend : ((buf.drop (p + ds.length)).takeWhile (fun c => c != d && c != nul)).length
        = (c :: t').length := by
      rw [htok.drop_eq, List.append_assoc, List.cons_append (a := d),
        takeWhile_append_cons hpred (by simp)]
    obtain ⟨hget, hdne⟩ := htok.shift.getD_ne
    rw [← List.append_assoc] at h
    obtain ⟨hbefore, hbehind⟩ := h.cut
    rw [List.length_append, ← Nat.add_assoc] at hbefore hbehind
    refine ⟨ds, p + ds.length + (c :: t').length + 1,
      write buf (p + ds.length + (c :: t').length) [nul], _, hds, ?_, hbefore, hbehind,
      by omega, by simp; omega⟩
    simp only [strtokR, hspan, hnul.1, if_neg hnul.2, hend, hget, if_neg hdne]

/-- **`strtok_r` with a token**: the token stands at its offset, closed by a NUL, the
save pointer is behind it at the string the next call works on, and the total extent
of the string is what it was. -/
theorem strtokR_some {t r : CString} (hd : d ≠ nul) (h : StringAt buf p w rest)
    (hw : nextToken d w = some (t, r)) :
    ∃ tok save buf', strtokR buf p d = ⟨some tok, save, buf'⟩ ∧
      (∃ mid, StringAt buf' tok t mid) ∧ StringAt buf' save r rest ∧
      tok + t.length ≤ save ∧ save + r.length = p + w.length := by
  obtain ⟨ds, save, buf', mid, -, heq, hbefore, hbehind, hle, hend⟩ := strtokR_cut hd h hw
  exact ⟨p + ds.length, save, buf', heq, ⟨mid, hbefore.shift⟩, hbehind, hle, hend⟩

/-- Delimiters and one token. -/
theorem nextToken_delimiters {ds t : CString} (hds : ∀ c ∈ ds, c = d) (hne : t ≠ [])
    (ht : d ∉ t) : nextToken d (ds ++ t) = some (t, []) := by
  obtain ⟨c, t', rfl⟩ := List.exists_cons_of_ne_nil hne
  have hc : c ≠ d := fun heq => ht (heq ▸ List.mem_cons_self ..)
  have hdrop : (ds ++ c :: t').dropWhile (· == d) = c :: t' := by
    rw [List.dropWhile_append_of_pos (by simpa using hds),
      List.dropWhile_cons_of_neg (by simpa using hc)]
  have hall : ∀ a ∈ c :: t', (a != d) = true := by
    intro a ha
    have hne : a ≠ d := fun heq => ht (heq ▸ ha)
    simpa using hne
  simp only [nextToken, hdrop, List.takeWhile_eq_self_iff.mpr hall,
    List.dropWhile_eq_nil_iff.mpr hall, List.tail_nil]

/-- **`strtok_r` started over** at the same string finds its first token again. -/
theorem strtokR_restart {t r : CString} (hd : d ≠ nul) (h : StringAt buf p w rest)
    (hw : nextToken d w = some (t, r)) :
    ∃ tok save buf' w' rest', strtokR buf p d = ⟨some tok, save, buf'⟩ ∧ cstr buf' tok = t ∧
      StringAt buf' p w' rest' ∧ nextToken d w' = some (t, []) := by
  obtain ⟨ds, save, buf', mid, hds, heq, hbefore, -⟩ := strtokR_cut hd h hw
  obtain ⟨_, _, hne, ht, _⟩ := nextToken_eq_some hw
  exact ⟨p + ds.length, save, buf', ds ++ t, mid, heq, hbefore.shift.cstr_eq, hbefore,
    nextToken_delimiters hds hne ht⟩

end Spec
end CString
