import StatsdC.GraphitePayload
import StatsdC.Lib.GrowableBlock
import StatsdC.Restarts

/-!
# The text buffer

A pass prints its report for Graphite into a `UT_string`, with one call for each metric.  The call
formats into the space that is left, learns how long the text is, and if there is too little space
makes room and formats again.

So no call needs more than two rounds, or writes outside the block, and the text is everything that
was printed (`Represents.foldlM_printf`).  What `vsnprintf` formats is given as the text; what of it
is written, and where its NUL is put, is followed byte by byte.  Between the two rounds of a call
the buffer holds the front of the new text with a NUL in its last cell, which the second round
writes over (`Fills`).

The bytes that are then sent are those of the report, and they can be taken apart into its samples
again (`graphitePass_decodes`).  The fields of a line are read with `strtod` and `atol` for this, so
that a value comes back as the double next to its six decimals, an infinity as an infinity, and a
time as it was.  What receives the bytes is not part of the program, and `decodePayload` is no model
of it: it is an inverse of the format, which shows that nothing is lost in it.

`vsnprintf` returns an `int`, and `utstring_len` is an `unsigned`; the theorem is about reports of
less than `2 ^ 31` bytes.
-/

namespace StatsdC
open CString Decimal Fallible GrowableBlock

/-- What keeps a call from its end: a loop that goes on, or an access that is not legal. -/
inductive UtStringFault where
  /-- A loop that is still running. -/
  | outOfFuel
  /-- An access outside the block, or to a byte that was never written. -/
  | badAccess
  deriving DecidableEq

/-- `UT_string`: the block, its size, and the position behind the text. -/
structure UtString where
  d : Cells Char
  n : Nat
  i : Nat

namespace UtString

/-- `utstring_reserve`, which grows the block by the amount that is asked for. -/
def reserve (s : UtString) (amt : Nat) : UtString :=
  if s.n - s.i < amt then { s with d := realloc s.d (s.n + amt), n := s.n + amt } else s

/-- A store behind the text, which fails outside the block. -/
def write (s : UtString) (bytes : List Char) : Except UtStringFault UtString :=
  match store s.d s.i bytes with
  | some d => .ok { s with d }
  | none => .error .badAccess

/-- `utstring_new`, with a block of a hundred bytes and the empty text in it. -/
def new : Except UtStringFault UtString := (reserve ⟨[], 0, 0⟩ 100).write [nul]

/-- `vsnprintf (&s->d[s->i], s->n-s->i, fmt, cp)`, of the formatted text: what it leaves in the
block and what it returns.  A length that is no `int` is an error. -/
def vsnprintf (s : UtString) (text : CString) : Except UtStringFault (UtString × Int) := do
  if text.length < 2 ^ 31 then
    let room := s.n - s.i
    let s ← (if 0 < room then s.write (text.take (room - 1) ++ [nul]) else .ok s)
    return (s, text.length)
  else
    return (s, -1)

/-- `utstring_printf`, for `fuel` rounds at most: each formats the text and then knows how much
space it takes. -/
def printf (text : CString) : Nat → UtString → Except UtStringFault UtString
  | 0, _ => .error .outOfFuel
  | fuel + 1, s => do
    let (s, n) ← s.vsnprintf text
    if -1 < n ∧ n.toNat < s.n - s.i then
      return { s with i := s.i + n.toNat }
    else if -1 < n then
      printf text fuel (s.reserve (n.toNat + 1))
    else
      printf text fuel (s.reserve (s.n * 2))

/-- `utstring_len`, which is an `unsigned` and so the position modulo `2 ^ 32`. -/
def len (s : UtString) : Nat := s.i % UInt32.size

/-- `utstring_body`, as a C string, up to the first NUL of the block. -/
def body (s : UtString) : Option CString := readUntil (· == nul) s.d

/-- The bytes that `send(sock, utstring_body(s), utstring_len(s), 0)` is given. -/
def sent (s : UtString) : Option (List Char) := load s.d s.len

/-- The buffer once the texts have been printed, one call for each. -/
def printAll (fuel : Nat) (texts : List CString) : Except UtStringFault UtString := do
  let s ← new
  texts.foldlM (fun s text => printf text fuel s) s

/-! ## The text in the buffer -/

/-- The buffer has the text, with a NUL behind it inside the block. -/
structure Represents (s : UtString) (text : CString) : Prop where
  i : s.i = text.length
  n : s.d.length = s.n
  holds : GrowableBlock.Holds s.d (text ++ [nul])

variable {s : UtString} {text t : CString} {fuel : Nat}

/-- The buffer has the text, with some space behind it, so that a NUL has room there. -/
structure Fills (s : UtString) (text : CString) : Prop where
  i : s.i = text.length
  n : s.d.length = s.n
  room : text.length < s.n
  holds : GrowableBlock.Holds s.d text

theorem Represents.fills (h : s.Represents text) : s.Fills text := by
  have hle := h.holds.length_le
  rw [List.length_append, List.length_singleton, h.n] at hle
  exact ⟨h.i, h.n, hle, h.holds.of_append⟩

theorem exists_new : ∃ s, new = .ok s ∧ s.Represents [] :=
  ⟨_, rfl, rfl, rfl, List.prefix_append _ _⟩

/-- Space for `amt` bytes, whether or not the block has to grow for it. -/
theorem Fills.reserve (h : s.Fills text) (amt : Nat) :
    (s.reserve amt).Fills text ∧ amt ≤ (s.reserve amt).n - (s.reserve amt).i := by
  obtain ⟨hi, hn, hroom, hholds⟩ := h
  unfold UtString.reserve
  split
  · refine ⟨⟨hi, length_realloc .., hroom.trans_le (Nat.le_add_right _ _), hholds.realloc ?_⟩, ?_⟩
    · omega
    · dsimp only
      omega
  · exact ⟨⟨hi, hn, hroom, hholds⟩, by omega⟩

/-- As much of a text as there is space for is in the block, and a NUL. -/
theorem Fills.vsnprintf (h : s.Fills text) (ht : t.length < 2 ^ 31) :
    ∃ d, s.vsnprintf t = .ok ({ s with d }, t.length) ∧ d.length = s.n ∧
      GrowableBlock.Holds d (text ++ (t.take (s.n - s.i - 1) ++ [nul])) := by
  have hroom : 0 < s.n - s.i := by
    rw [h.i]
    exact Nat.sub_pos_of_lt h.room
  obtain ⟨d, hstore, hholds, hlength⟩ :=
    h.holds.exists_store (t.take (s.n - s.i - 1) ++ [nul]) (by
      rw [List.length_append, List.length_take, List.length_singleton, h.n, ← h.i]
      omega)
  rw [← h.i] at hstore
  refine ⟨d, ?_, hlength.trans h.n, hholds⟩
  simp only [UtString.vsnprintf, if_pos ht, if_pos hroom, write, hstore, bind, Except.bind, pure,
    Except.pure]

/-- The round that has the space. -/
theorem Fills.printf_fits (h : s.Fills text) (ht : t.length < 2 ^ 31)
    (hspace : t.length < s.n - s.i) (fuel : Nat) :
    ∃ s', printf t (fuel + 1) s = .ok s' ∧ s'.Represents (text ++ t) := by
  obtain ⟨d, hprint, hlength, hholds⟩ := h.vsnprintf ht
  have hfits : (-1 : Int) < t.length ∧ (t.length : Int).toNat < s.n - s.i :=
    ⟨by omega, by rwa [Int.toNat_natCast]⟩
  rw [List.take_of_length_le (by omega), ← List.append_assoc] at hholds
  refine ⟨{ s with d, i := s.i + (t.length : Int).toNat }, ?_, ?_, hlength, hholds⟩
  · rw [printf, hprint]
    exact if_pos hfits
  · rw [Int.toNat_natCast, h.i, List.length_append]

/-- **A call** appends its text, in two rounds at most: the first finds out how much space is
missing. -/
theorem Fills.printf (h : s.Fills text) (ht : t.length < 2 ^ 31) (fuel : Nat) :
    ∃ s', printf t (fuel + 2) s = .ok s' ∧ s'.Represents (text ++ t) := by
  rcases Nat.lt_or_ge t.length (s.n - s.i) with hspace | hspace
  · exact h.printf_fits ht hspace (fuel + 1)
  · obtain ⟨d, hprint, hlength, hholds⟩ := h.vsnprintf ht
    have h₁ : Fills { s with d } text := ⟨h.i, hlength, h.room, hholds.of_append⟩
    obtain ⟨h₂, hroom⟩ := h₁.reserve (t.length + 1)
    obtain ⟨s', hok, hs'⟩ := h₂.printf_fits ht hroom fuel
    refine ⟨s', ?_, hs'⟩
    have hlarge : ¬ ((-1 : Int) < t.length ∧ (t.length : Int).toNat < s.n - s.i) := by
      rw [Int.toNat_natCast]
      omega
    rw [UtString.printf, hprint]
    show (if (-1 : Int) < t.length ∧ (t.length : Int).toNat < s.n - s.i then _
      else if (-1 : Int) < t.length then _ else _) = _
    rw [if_neg hlarge, if_pos (by omega), Int.toNat_natCast]
    exact hok

/-- A text whose length is no `int` is formatted again and again, because the length that comes back
is negative. -/
theorem printf_hangs (ht : 2 ^ 31 ≤ t.length) (fuel : Nat) (s : UtString) :
    UtString.printf t fuel s = .error .outOfFuel := by
  induction fuel generalizing s with
  | zero => rfl
  | succ fuel ih =>
    have hprint : s.vsnprintf t = .ok (s, -1) := by
      rw [UtString.vsnprintf, if_neg (not_lt.mpr ht)]
      rfl
    rw [UtString.printf, hprint]
    exact ih _

/-! ## Calls one after another -/

/-- **Calls that append their texts** leave them in the buffer one behind the other. -/
theorem Represents.foldlM_printf (h : s.Represents text) {texts : List CString}
    (ht : ∀ t ∈ texts, t.length < 2 ^ 31) (fuel : Nat) :
    ∃ s', texts.foldlM (fun s t => UtString.printf t (fuel + 2) s) s = .ok s' ∧
      s'.Represents (text ++ texts.flatten) := by
  induction texts generalizing s text with
  | nil =>
    refine ⟨s, rfl, ?_⟩
    rwa [List.flatten_nil, List.append_nil]
  | cons t texts ih =>
    obtain ⟨hfirst, hrest⟩ := List.forall_mem_cons.mp ht
    obtain ⟨s₁, hok, h₁⟩ := h.fills.printf hfirst fuel
    obtain ⟨s', hfold, hs'⟩ := ih h₁ hrest
    refine ⟨s', ?_, ?_⟩
    · rw [List.foldlM_cons, hok]
      exact hfold
    · rwa [List.flatten_cons, ← List.append_assoc]

/-- **The calls come to an end** exactly if the length of every text is an `int`. -/
theorem printAll_ok_iff (texts : List CString) (fuel : Nat) :
    (∃ s, printAll (fuel + 2) texts = .ok s) ↔ ∀ t ∈ texts, t.length < 2 ^ 31 := by
  obtain ⟨s, hok, hs⟩ := exists_new
  have hall : printAll (fuel + 2) texts =
      texts.foldlM (fun s t => UtString.printf t (fuel + 2) s) s := by
    rw [printAll, hok]
    rfl
  rw [hall]
  clear hok hall
  constructor
  · rintro ⟨s', hfold⟩
    clear hs
    induction texts generalizing s with
    | nil => exact nofun
    | cons t texts ih =>
      rw [List.foldlM_cons, bind_eq_ok] at hfold
      obtain ⟨s₁, hfirst, hrest⟩ := hfold
      refine List.forall_mem_cons.mpr ⟨?_, ih s₁ hrest⟩
      by_contra hlong
      cases (printf_hangs (not_lt.mp hlong) (fuel + 2) s).symm.trans hfirst
  · intro ht
    obtain ⟨s', hfold, -⟩ := hs.foldlM_printf ht fuel
    exact ⟨s', hfold⟩

theorem Represents.body_eq (h : s.Represents text) (hnul : nul ∉ text) : s.body = some text := by
  rw [body, h.holds.readUntil_eq (by decide), List.takeWhile_eq_self_iff.mpr]
  intro c hc
  have hne : c ≠ nul := fun heq => hnul (heq ▸ hc)
  simpa using hne

theorem Represents.sent_eq (h : s.Represents text) (hlen : text.length < UInt32.size) :
    s.sent = some text := by
  rw [sent, len, h.i, Nat.mod_eq_of_lt hlen, h.holds.of_append.load_eq]

end UtString

/-! ## The text of a pass -/

section Pass
variable {firstByte : Num → Int} {cfg : FlushConfig}

/-- The texts that the loop over the timers prints: one for each that has samples. -/
def timerTexts (firstByte : Num → Int) (cfg : FlushConfig) (ts : Int) :
    List (StatsdTimer Num) → Except FlushFault (List CString)
  | [] => .ok []
  | t :: timers => do
    let (_, report) ← flushTimer firstByte cfg ts t
    let texts ← timerTexts firstByte cfg ts timers
    return if 0 < t.count then report.graphitePayload :: texts else texts

/-- The texts that a pass prints. -/
def passTexts (firstByte : Num → Int) (cfg : FlushConfig) (env : FlushEnv) (t : Tables Num) :
    Except FlushFault (List CString) := do
  let timers ← timerTexts firstByte cfg env.ts t.timers
  let numStats := t.counters.length + t.timers.length + t.gauges.length
  return if cfg.enableGraphite then
    t.counters.map (fun c => (flushCounter cfg env.ts c).2.graphitePayload) ++
      (timers ++ (t.gauges.map (fun g => (flushGauge cfg env.ts g).graphitePayload) ++
        [(reportTotals cfg env.ts numStats : Report Num).graphitePayload]))
  else
    []

theorem graphitePayload_append (r s : Report Num) :
    (r.append s).graphitePayload = r.graphitePayload ++ s.graphitePayload := List.flatMap_append

theorem graphitePayload_concat (rs : List (Report Num)) :
    (Report.concat rs).graphitePayload = (rs.map Report.graphitePayload).flatten := by
  induction rs with
  | nil => rfl
  | cons r rs ih =>
    show (r.append (Report.concat rs)).graphitePayload = _
    rw [graphitePayload_append, ih]
    rfl

/-- The texts of the timers that have samples are the report on the timers. -/
theorem timerTexts_eq {ts : Int} {timers : List (StatsdTimer Num)}
    {r : List (StatsdTimer Num) × Report Num}
    (h : flushTimers firstByte cfg ts timers = .ok r) :
    ∃ texts, timerTexts firstByte cfg ts timers = .ok texts ∧
      texts.flatten = r.2.graphitePayload := by
  induction timers generalizing r with
  | nil =>
    obtain rfl := Except.ok.inj h
    exact ⟨[], rfl, rfl⟩
  | cons t timers ih =>
    obtain ⟨first, rest, hfirst, hrest, rfl⟩ := flushTimers_cons_eq_ok h
    obtain ⟨texts, htexts, hflatten⟩ := ih hrest
    refine ⟨if 0 < t.count then first.2.graphitePayload :: texts else texts, ?_, ?_⟩
    · rw [timerTexts, hfirst, htexts]
      rfl
    · rw [graphitePayload_append, ← hflatten]
      split
      · rfl
      · rename_i hcount
        rw [flushTimer, if_neg hcount] at hfirst
        obtain rfl := Except.ok.inj hfirst
        rfl

/-- **The texts of a pass**, one after another, are its report. -/
theorem passTexts_eq {env : FlushEnv} {t : Tables Num} {r : Tables Num × Report Num}
    (hgraphite : cfg.enableGraphite = true) (h : flushPass firstByte cfg env t = .ok r) :
    ∃ texts, passTexts firstByte cfg env t = .ok texts ∧
      texts.flatten = r.2.graphitePayload := by
  obtain ⟨timers, htimers, hreport, -⟩ := flushPass_eq_ok h
  obtain ⟨texts, htexts, hflatten⟩ := timerTexts_eq htimers
  rw [passTexts, htexts, hreport]
  refine ⟨_, rfl, ?_⟩
  rw [if_pos hgraphite, graphitePayload_append, graphitePayload_append, graphitePayload_append,
    graphitePayload_concat, graphitePayload_concat, ← hflatten, List.map_map, List.map_map]
  simp only [List.flatten_append, List.flatten_cons, List.flatten_nil, List.append_nil]
  rfl

/-! ## Taking the bytes apart -/

/-- A sample: a path, a value and a time. -/
abbrev GraphiteSample := CString × Num × Int

/-- A line, taken apart at its blanks.  The fields are read with `strtod` and `atol`. -/
def decodeLine (line : CString) : Option GraphiteSample :=
  match line.splitOn ' ' with
  | [path, value, ts] => some (path, strtod value, atol ts)
  | _ => none

/-- The bytes of a pass, taken apart at the newlines.  There is one at the end of each line.
What receives the bytes is not part of the program: this is an inverse of its format. -/
def decodePayload (bytes : List Char) : Option (List GraphiteSample) :=
  let lines := bytes.splitOn '\n'
  if lines.getLast? = some [] then lines.dropLast.mapM decodeLine else none

/-- The value that a formatted one is read as. -/
def MetricValue.reread : MetricValue Num → Num
  | .real x => x.toSix
  | .int n => .ofRat n

/-- A line as it is read again. -/
def GraphiteLine.sample (l : GraphiteLine Num) : GraphiteSample := (l.path, l.value.reread, l.ts)

/-- **A formatted value is read again**, whatever it is. -/
theorem MetricValue.strtod_text (v : MetricValue Num) : strtod v.text = v.reread := by
  cases v with
  | real x => exact strtod_printLf x
  | int n => exact Numeral.strtod_printD_eq_ofRat n

/-- **A line** is taken apart into what it was put together from. -/
theorem decodeLine_text {l : GraphiteLine Num} (hpath : StatsPath l.path)
    (h : -2 ^ 63 ≤ l.ts ∧ l.ts < 2 ^ 63) : decodeLine l.text = some l.sample := by
  obtain ⟨hpath, hvalue, hts⟩ := notMem_fields (c := ' ') (by decide) (by decide) hpath
  have hsplit : l.text.splitOn ' ' = [l.path, l.value.text, printD l.ts] := by
    rw [GraphiteLine.text, List.splitOn_append_cons_self_of_not_mem hpath,
      List.splitOn_append_cons_self_of_not_mem hvalue, List.splitOn_eq_singleton hts]
  rw [decodeLine, hsplit]
  dsimp only
  rw [l.value.strtod_text, atol_printD ⟨l.ts, h.1, h.2⟩, GraphiteLine.sample]

theorem mapM_decodeLine {lines : List (GraphiteLine Num)}
    (hpaths : ∀ l ∈ lines, StatsPath l.path)
    (h : ∀ l ∈ lines, -2 ^ 63 ≤ l.ts ∧ l.ts < 2 ^ 63) :
    (lines.map GraphiteLine.text).mapM decodeLine = some (lines.map GraphiteLine.sample) := by
  induction lines with
  | nil => rfl
  | cons l lines ih =>
    obtain ⟨hpath, hpaths⟩ := List.forall_mem_cons.mp hpaths
    obtain ⟨hline, hlines⟩ := List.forall_mem_cons.mp h
    rw [List.map_cons, List.mapM_cons, decodeLine_text hpath hline, ih hpaths hlines]
    rfl

/-- The lines of a report. -/
theorem decodePayload_graphitePayload {r : Report Num} (hpaths : OnPaths r)
    (h : ∀ l ∈ r.graphite, -2 ^ 63 ≤ l.ts ∧ l.ts < 2 ^ 63) :
    decodePayload r.graphitePayload = some (r.graphite.map GraphiteLine.sample) := by
  have hsplit : r.graphitePayload.splitOn '\n' = r.graphite.map GraphiteLine.text ++ [[]] := by
    have hpayload : r.graphitePayload =
        (r.graphite.map GraphiteLine.text).flatMap (· ++ ['\n']) := by
      rw [List.flatMap_map]
      rfl
    rw [hpayload]
    refine splitOn_lines fun line hline => ?_
    obtain ⟨l, hl, rfl⟩ := List.mem_map.mp hline
    exact newline_notMem_text (hpaths l hl)
  have hlast : (r.graphite.map GraphiteLine.text ++ [[]]).getLast? = some [] :=
    List.getLast?_concat
  rw [decodePayload, hsplit]
  simp only [hlast, if_true, List.dropLast_concat]
  exact mapM_decodeLine hpaths h

theorem nul_notMem_graphitePayload {r : Report Num} (hpaths : OnPaths r) :
    nul ∉ r.graphitePayload := by
  intro hmem
  obtain ⟨l, hl, hmem⟩ := List.mem_flatMap.mp hmem
  obtain ⟨hpath, hvalue, hts⟩ := notMem_fields (c := nul) (by decide) (by decide) (hpaths l hl)
  have hspace : nul ≠ ' ' := by decide
  have hnewline : nul ≠ '\n' := by decide
  simp [GraphiteLine.text, hpath, hvalue, hts, hspace, hnewline] at hmem

/-- **The bytes of a pass** from a reachable state, of which there are fewer than `2 ^ 31`, are the
report of the pass.  They can be taken apart into its samples, in the order in which the metrics
are in the tables, with each value to six decimals.  No call that prints them needs more than two
rounds. -/
theorem graphitePass_decodes {t t' : Tables Num} {env : FlushEnv} {report : Report Num}
    (h : (daemon firstByte).Reachable t) (hgraphite : cfg.enableGraphite = true)
    (hpass : flushPass firstByte cfg env t = .ok (t', report))
    (hlen : report.graphitePayload.length < 2 ^ 31)
    (hts : ∀ l ∈ report.graphite, -2 ^ 63 ≤ l.ts ∧ l.ts < 2 ^ 63) :
    ∃ texts s bytes, passTexts firstByte cfg env t = .ok texts ∧
      UtString.printAll 2 texts = .ok s ∧ s.body = some bytes ∧ s.sent = some bytes ∧
      decodePayload bytes = some (report.graphite.map GraphiteLine.sample) := by
  have hpaths := onPaths_flushPass (reachable_daemonState h).keysClean hpass
  obtain ⟨texts, htexts, hflatten⟩ := passTexts_eq hgraphite hpass
  have hshort : ∀ text ∈ texts, text.length < 2 ^ 31 := by
    intro text htext
    have hle := (List.sublist_flatten_of_mem htext).length_le
    rw [hflatten] at hle
    exact hle.trans_lt hlen
  obtain ⟨s, hok, hs⟩ := UtString.exists_new
  obtain ⟨s', hprint, hs'⟩ := hs.foldlM_printf hshort 0
  rw [List.nil_append, hflatten] at hs'
  refine ⟨texts, s', _, htexts, ?_, hs'.body_eq (nul_notMem_graphitePayload hpaths),
    hs'.sent_eq (hlen.trans (by decide)), decodePayload_graphitePayload hpaths hts⟩
  rw [UtString.printAll, hok]
  exact hprint

end Pass

/-- The report of the pass after the packet for the counter `k`. -/
def sevenReport : Report Num where
  graphite :=
    [⟨"stats.k".toList, .real (.fin (7 / 10)), 60⟩, ⟨"stats_counts_k".toList, .real (.fin 7), 60⟩,
      ⟨"statsd.numStats".toList, .int 1, 60⟩]
  gmetric := []

/-- The bytes of that pass. -/
theorem graphitePass_decodes_seven :
    ∃ texts s bytes,
      passTexts (fun _ => 0) ⟨true, false, 10, 90, none⟩ ⟨60, 61, true⟩ sevenTables = .ok texts ∧
      UtString.printAll 2 texts = .ok s ∧ s.body = some bytes ∧ s.sent = some bytes ∧
      decodePayload bytes = some [("stats.k".toList, (Num.fin (7 / 10)).toSix, 60),
        ("stats_counts_k".toList, (Num.fin 7).toSix, 60),
        ("statsd.numStats".toList, .ofRat 1, 60)] := by
  have hts : ∀ l ∈ sevenReport.graphite, -2 ^ 63 ≤ l.ts ∧ l.ts < 2 ^ 63 := by
    have hsixty : ∀ l ∈ sevenReport.graphite, l.ts = 60 := by
      rintro l (_ | ⟨_, _ | ⟨_, _ | ⟨_, ⟨⟩⟩⟩⟩) <;> rfl
    intro l hl
    rw [hsixty l hl]
    decide
  have hdecodes := @graphitePass_decodes (fun _ => 0) ⟨true, false, 10, 90, none⟩ sevenTables _
    ⟨60, 61, true⟩ sevenReport (reachable_sevenTables _) rfl rfl (by decide +kernel) hts
  rwa [show sevenReport.graphite.map GraphiteLine.sample = _ from rfl] at hdecodes

end StatsdC
