import StatsdC.GraphitePayload
import StatsdC.Management
import StatsdC.TimerSamples

/-!
# The listing of the timers

The management command `timers` sends a line for each timer, with its samples between brackets.
The loop over the samples sends its comma before the first and then clears the flag that it tests,
so the samples themselves stand without anything between them: no timer with a sample can be read
back (`timersReadable_iff`).

What it means to read a line back is said by `ReadableLine`: what stands between the brackets, cut
at its commas, are the texts of the samples in their order.  A reader that knows how many samples
there are would do no better, since the texts of two numbers run into one another
(`two_samples_not_readable`).  The statement is about every table that can be reached, and it is
about the whole reply, so that a line may not be taken for that of another timer; keys have no
colon in them, and this is what keeps the lines apart (`key_append_inj`).

The lines of the listing are the definitions of `StatsdC.Management`.  The condition under which
the listing can be read, that no timer holds a sample, is met after every pass, since a pass leaves
the timers in the table and takes their samples.
-/

namespace StatsdC
open CString Fallible

/-- A line with a timer and its samples: what stands between the brackets is cut at its commas into
the texts of the samples, in their order. -/
def ReadableLine (s : StatsdTimer Num) (line : CString) : Prop :=
  ∃ body, line = s.key ++ ": ".toList ++ printD s.values.length ++ " [".toList ++ body ++ [']'] ∧
    body.splitOn ',' = s.values.map printLf

/-- The reply has such a line for every timer with a sample.  A timer without samples has no
brackets to read. -/
def TimersReadable (friendly : Bool) (t : Tables Num) : Prop :=
  ∃ reply, mgmtReply friendly t .timers = .ok reply ∧
    ∀ s ∈ t.timers, s.values ≠ [] → ∃ line ∈ reply.splitOn '\n', ReadableLine s line

/-- A table of timers: every key there once, over `[A-Za-z0-9_-]`, and the count that of
the samples. -/
structure TimerTable (t : Tables Num) : Prop where
  nodup : (t.timers.map StatsdTimer.key).Nodup
  chars : ∀ s ∈ t.timers, ∀ c ∈ s.key, isKeyChar c = true
  counted : TimersCounted t

/-- Every state that can be reached has such a table. -/
theorem reachable_timerTable {firstByte : Num → Int} {t : Tables Num}
    (h : (daemon firstByte).Reachable t) : TimerTable t :=
  have hstate := reachable_daemonState h
  ⟨hstate.timers.nodup, hstate.keysClean.timers, reachable_timersCounted h⟩

/-! ## What is sent for a timer -/

theorem streamSendNumber_eq_ok {text text' : CString} (h : streamSendNumber text = .ok text') :
    text' = text := by
  unfold streamSendNumber at h
  split at h
  · exact (Except.ok.inj h).symm
  · cases h

/-- The samples are sent one after another, with a comma before the first. -/
theorem timerValues_eq_ok {first : Bool} {js : List Num} {values : CString}
    (h : timerValues first js = .ok values) :
    values = (if first ∧ js ≠ [] then [','] else []) ++ js.flatMap printLf := by
  induction js generalizing first values with
  | nil =>
    obtain rfl := Except.ok.inj h
    simp
  | cons j js ih =>
    simp only [timerValues, bind_eq_ok] at h
    obtain ⟨value, hvalue, rest, hrest, hok⟩ := h
    have hnext := ih hrest
    simp only [Bool.false_eq_true, false_and, if_false, List.nil_append] at hnext
    rw [← pure_eq_ok.mp hok, streamSendNumber_eq_ok hvalue, hnext]
    cases first <;> simp

/-- What is sent of a timer behind its key, as far as it matters: no newline, and the samples
without anything between them. -/
structure TimerText (s : StatsdTimer Num) (text : CString) : Prop where
  newline_notMem : '\n' ∉ text
  listed : 0 < s.count →
    text = ": ".toList ++ printD s.count ++ " [".toList ++
      (',' :: s.values.flatMap printLf) ++ [']']

theorem newline_notMem_printLf (x : Num) : '\n' ∉ printLf x := by
  intro h
  have hchar := isNumberChar_of_mem_printLf h
  revert hchar
  decide

theorem newline_notMem_printD (z : Int) : '\n' ∉ printD z := by
  intro h
  have hchar := isNumberChar_of_mem_printD h
  revert hchar
  decide

/-- **The line of a timer**: its key, and a text that depends on its samples and that a colon
begins. -/
theorem timerLine_eq_ok {s : StatsdTimer Num} {line : CString}
    (hvalues : 0 < s.count → s.values ≠ []) (h : timerLine s = .ok line) :
    ∃ text, line = s.key ++ text ++ ['\n'] ∧ text.head? = some ':' ∧ TimerText s text := by
  simp only [timerLine, bind_eq_ok] at h
  obtain ⟨count, hcount, list, hlist, hok⟩ := h
  have hnumber := newline_notMem_printD s.count
  rw [← pure_eq_ok.mp hok, streamSendNumber_eq_ok hcount]
  unfold timerList at hlist
  by_cases hpos : 0 < s.count
  · rw [if_pos hpos, bind_eq_ok] at hlist
    obtain ⟨values, hsent, hok'⟩ := hlist
    have htext := timerValues_eq_ok hsent
    rw [if_pos ⟨rfl, hvalues hpos⟩] at htext
    rw [← pure_eq_ok.mp hok', htext]
    refine ⟨": ".toList ++ printD s.count ++ " [".toList ++
      (',' :: s.values.flatMap printLf) ++ [']'], by simp, rfl, ⟨?_, fun _ => rfl⟩⟩
    have hlisted : '\n' ∉ s.values.flatMap printLf := by
      intro hmem
      obtain ⟨x, _, hx⟩ := List.mem_flatMap.mp hmem
      exact newline_notMem_printLf x hx
    simp [hlisted, hnumber]
  · rw [if_neg hpos] at hlist
    obtain rfl := Except.ok.inj hlist
    refine ⟨": ".toList ++ printD s.count, by simp, rfl, ⟨?_, fun h => absurd h hpos⟩⟩
    simp [hnumber]

/-- A timer without a sample is always sent. -/
theorem timerLine_empty {s : StatsdTimer Num} (h : s.count = 0) :
    ∃ line, timerLine s = .ok line := by
  have hcount : streamSendNumber (printD s.count) = .ok ['0'] := by
    rw [h]
    rfl
  have hlist : timerList s = .ok [] := if_neg (by omega)
  exact ⟨_, by rw [timerLine, hcount, hlist]; rfl⟩

/-! ## Lines of the reply -/

/-- The keys and what follows them are told apart at the colon. -/
theorem key_append_inj {key key' text text' : CString} (hkey : ∀ c ∈ key, isKeyChar c = true)
    (hkey' : ∀ c ∈ key', isKeyChar c = true) (htext : text.head? = some ':')
    (htext' : text'.head? = some ':') (h : key ++ text = key' ++ text') :
    key = key' ∧ text = text' := by
  have hkeys : ∀ {k t : CString}, (∀ c ∈ k, isKeyChar c = true) → t.head? = some ':' →
      (k ++ t).takeWhile isKeyChar = k := by
    intro k t hk ht
    cases t with
    | nil => cases ht
    | cons c t =>
      obtain rfl := Option.some.inj ht
      exact takeWhile_append_cons hk (by decide) t
  have heq : key = key' := by
    rw [← hkeys hkey htext, h, hkeys hkey' htext']
  subst heq
  exact ⟨rfl, List.append_cancel_left h⟩

/-- A line of the reply is that of a timer, or has no colon. -/
theorem line_cases {friendly : Bool} {t : Tables Num} (ht : TimerTable t) {reply : CString}
    (hreply : mgmtReply friendly t .timers = .ok reply) :
    ∀ line ∈ reply.splitOn '\n', ':' ∉ line ∨
      ∃ s ∈ t.timers, ∃ text, line = s.key ++ text ∧ text.head? = some ':' ∧ TimerText s text := by
  simp only [mgmtReply, listing, bind_eq_ok] at hreply
  obtain ⟨_, ⟨lines, hlines, hlisted⟩, hok⟩ := hreply
  rw [← pure_eq_ok.mp hok, ← pure_eq_ok.mp hlisted]
  have hline : ∀ line ∈ lines, ∃ s ∈ t.timers, ∃ text, line = s.key ++ text ++ ['\n'] ∧
      text.head? = some ':' ∧ TimerText s text := by
    intro line hmem
    obtain ⟨s, hs, hsent⟩ := exists_of_mem_mapM hlines line hmem
    have hvalues : 0 < s.count → s.values ≠ [] := by
      intro hpos
      rw [ht.counted s hs] at hpos
      exact List.length_pos_iff.mp hpos
    obtain ⟨text, htext⟩ := timerLine_eq_ok hvalues hsent
    exact ⟨s, hs, text, htext⟩
  -- the lines without their newlines, and the two that end the listing
  have hflatten : lines.flatten = (lines.map List.dropLast).flatMap (· ++ ['\n']) := by
    rw [List.flatMap_map, List.flatten_eq_flatMap]
    refine List.flatMap_congr fun line hmem => ?_
    obtain ⟨s, _, text, rfl, _⟩ := hline line hmem
    rw [List.dropLast_concat]
    rfl
  have hend : mgmtEnd = ["END".toList, []].flatMap (· ++ ['\n']) := by decide
  have hprompt : '\n' ∉ mgmtPrompt friendly ∧ ':' ∉ mgmtPrompt friendly := by
    cases friendly <;> decide
  have hnone : ∀ line ∈ lines.map List.dropLast ++ ["END".toList, []], '\n' ∉ line := by
    intro line hmem
    rcases List.mem_append.mp hmem with hmem | hmem
    · obtain ⟨l, hl, rfl⟩ := List.mem_map.mp hmem
      obtain ⟨s, hs, text, rfl, _, htext⟩ := hline l hl
      have hkey : '\n' ∉ s.key := by
        intro hc
        have hchar := ht.chars s hs _ hc
        revert hchar
        decide
      rw [List.dropLast_concat]
      simp [hkey, htext.newline_notMem]
    · have hall : ∀ line ∈ ["END".toList, []], '\n' ∉ line := by decide
      exact hall line hmem
  rw [hflatten, hend, ← List.flatMap_append, splitOn_lines_append hnone hprompt.1]
  intro line hmem
  rcases List.mem_append.mp hmem with hmem | hmem
  · rcases List.mem_append.mp hmem with hmem | hmem
    · obtain ⟨l, hl, rfl⟩ := List.mem_map.mp hmem
      obtain ⟨s, hs, text, rfl, hcolon, htext⟩ := hline l hl
      exact .inr ⟨s, hs, text, List.dropLast_concat, hcolon, htext⟩
    · have hall : ∀ line ∈ ["END".toList, []], ':' ∉ line := by decide
      exact .inl (hall line hmem)
  · rw [List.mem_singleton.mp hmem]
    exact .inl hprompt.2

/-- No line of the reply lists the samples of a timer, neither its own nor that of another one. -/
theorem not_readableLine {friendly : Bool} {t : Tables Num} (ht : TimerTable t) {reply : CString}
    (hreply : mgmtReply friendly t .timers = .ok reply) {s : StatsdTimer Num}
    (hs : s ∈ t.timers) (hne : s.values ≠ []) :
    ∀ line ∈ reply.splitOn '\n', ¬ ReadableLine s line := by
  intro line hline ⟨body, hbody, hsplit⟩
  have hcount := ht.counted s hs
  rcases line_cases ht hreply line hline with hcolon | ⟨s', hs', text, htext, hhead, hsent⟩
  · exact hcolon (by rw [hbody]; simp)
  · -- the line with this key is the one that was sent for this timer
    have hassoc : line = s.key ++ (": ".toList ++ printD s.values.length ++ " [".toList ++ body ++
        [']']) := by
      rw [hbody]
      simp only [List.append_assoc]
    obtain ⟨hkey, hrest⟩ := key_append_inj (ht.chars s hs) (ht.chars s' hs') rfl hhead
      (hassoc.symm.trans htext)
    obtain rfl := List.inj_on_of_nodup_map ht.nodup hs hs' hkey
    rw [hsent.listed (by rw [hcount]; exact List.length_pos_iff.mpr hne), hcount] at hrest
    have hsame : body = ',' :: s.values.flatMap printLf :=
      List.append_cancel_left (List.append_cancel_right hrest)
    -- in front of the comma there is nothing, where the first sample should be
    obtain ⟨x, xs, hxs⟩ := List.exists_cons_of_ne_nil hne
    have hcut := List.splitOn_append_cons_self_of_not_mem (a := ',') List.not_mem_nil
      (s.values.flatMap printLf)
    rw [List.nil_append] at hcut
    rw [hsame, hcut, hxs] at hsplit
    exact printLf_ne_nil x (List.cons.inj hsplit).1.symm

/-- **The listing can be read back** exactly if there is nothing to read: no timer holds a sample.
A single sample has a comma too many. -/
theorem timersReadable_iff {friendly : Bool} {t : Tables Num} (ht : TimerTable t) :
    TimersReadable friendly t ↔ ∀ s ∈ t.timers, s.values = [] := by
  constructor
  · intro ⟨reply, hreply, hread⟩ s hs
    by_contra hne
    obtain ⟨line, hline, hreadable⟩ := hread s hs hne
    exact not_readableLine ht hreply hs hne line hline hreadable
  · intro hempty
    have hlines : ∃ lines, t.timers.mapM timerLine = .ok lines :=
      exists_mapM_ok fun s hs => timerLine_empty (by rw [ht.counted s hs, hempty s hs]; rfl)
    obtain ⟨lines, hlines⟩ := hlines
    refine ⟨lines.flatten ++ mgmtEnd ++ mgmtPrompt friendly, ?_, fun s hs hne =>
      absurd (hempty s hs) hne⟩
    rw [mgmtReply, listing, hlines]
    rfl

/-- Tables with the one timer `load`. -/
def loadTimes (values : List Num) : Tables Num :=
  ⟨[], [], [], [⟨"load".toList, values.length, values⟩]⟩

theorem timerTable_loadTimes (values : List Num) : TimerTable (loadTimes values) := by
  have hchars : ∀ c ∈ "load".toList, isKeyChar c = true := List.all_eq_true.mp (by decide)
  refine ⟨List.nodup_singleton _, fun s hs => ?_, fun s hs => ?_⟩
  · rw [List.mem_singleton.mp hs]
    exact hchars
  · rw [List.mem_singleton.mp hs]

/-- The theorem after a pass, which leaves the timer without samples. -/
theorem timersReadable_cleared : TimersReadable false (loadTimes []) := by
  refine (timersReadable_iff (timerTable_loadTimes [])).mpr fun s hs => ?_
  rw [List.mem_singleton.mp hs]

/-- **Two samples run into one another** in the listing, and the comma stands before both. -/
theorem two_samples_not_readable :
    mgmtReply false (loadTimes [.fin 1, .fin 2]) .timers =
        .ok "load: 2 [,1.0000002.000000]\nEND\n\n".toList ∧
      ¬ TimersReadable false (loadTimes [.fin 1, .fin 2]) := by
  refine ⟨by decide +kernel, ?_⟩
  intro ⟨reply, hreply, hread⟩
  have hmem : (⟨"load".toList, 2, [.fin 1, .fin 2]⟩ : StatsdTimer Num) ∈
      (loadTimes [.fin 1, .fin 2]).timers := List.mem_singleton.mpr rfl
  obtain ⟨line, hline, hreadable⟩ := hread _ hmem (List.cons_ne_nil _ _)
  exact not_readableLine (timerTable_loadTimes _) hreply hmem (List.cons_ne_nil _ _) line hline
    hreadable

end StatsdC
