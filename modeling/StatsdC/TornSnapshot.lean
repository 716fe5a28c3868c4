import StatsdC.Daemon

/-!
# A snapshot that is cut off

The snapshot is written over the old one, in place.  A process that is killed meanwhile leaves a
file with the first bytes of it, and the next process finds this file.

Such a file is never loaded in part (`deserialize_torn`): one that is shorter than 10 bytes is
passed over, and of any other the tokener makes an error, whose pointer the reader follows, so that
the process ends.  The statement is about every state that can be reached, every length of the file
below the whole, and every tables that the reader is called on; it does not depend on which numbers
are in the snapshot.

The tokener is inside the object from its brace on, which is what `Inside` says, and cannot leave it
before the last byte: it would have to complete the value at the bottom of its stack, and only the
brace at the end does that.  The proof goes through the text by the pieces that the printer writes.
A cut is in one of them, and for each kind of piece there is a lemma that says where the tokener is
at every byte of it: in a name between its quotes, in a number, between two entries, or in the text
of a value inside.  At the cut the text ends, and inside an object the end of the text is an error
in every state.

A file that was cut off at its very end, with nothing missing, is the subject of
`StatsdC.SnapshotText`.
-/

namespace StatsdC
open CString Fallible

namespace JsonTokener

/-- What is looked for behind white space, where the text cannot end inside an object. -/
def waits : JsonTokenerState → Bool
  | .start | .array | .arraySep | .objectFieldStart | .objectFieldEnd | .objectValue
  | .objectSep | .finish => true
  | _ => false

/-- The states of a value that is no object and no array. -/
def scalar : JsonTokenerState → Bool
  | .start | .null | .boolean | .string | .number => true
  | _ => false

/-- The states behind a slash or a backslash, which the text of a snapshot never leads to. -/
def special : JsonTokenerState → Bool
  | .commentStart | .comment | .commentEol | .commentEnd | .stringEscape | .escapeUnicode => true
  | _ => false

/-- The tokener is in an object or an array, which may be complete, and has met neither
comments nor escapes. -/
structure Inside (tok : JsonTokener) : Prop where
  plain : special tok.top.state = false
  waits : waits tok.top.savedState = true
  same : JsonTokener.waits tok.top.state = true → tok.top.savedState = tok.top.state
  incomplete : tok.top.state ≠ .eatws → tok.top.state ≠ .finish → tok.top.savedState ≠ .finish
  quote : tok.top.state = .string ∨ tok.top.state = .objectField → tok.quoteChar ≠ nul
  bottom : tok.below = [] → scalar tok.top.state = false ∧ tok.top.savedState ≠ .start
  suspended : ∀ r ∈ tok.below, r.srec.savedState = .array ∨ r.srec.savedState = .objectValue

/-- The outermost value is complete, with nothing but white space expected behind it. -/
def Complete (tok : JsonTokener) : Prop :=
  tok.below = [] ∧ (tok.top.state = .finish ∨
    tok.top.state = .eatws ∧ tok.top.savedState = .finish)

section Rounds
variable {tok tok' : JsonTokener} {c : Char}

/-- Behind white space, the tokener is inside as long as what it waits for is a part of the object.
-/
theorem Inside.waiting (h : Inside tok) (hbelow : tok'.below = tok.below)
    (hstate : tok'.top.state = .eatws) (hwaits : JsonTokener.waits tok'.top.savedState = true)
    (hstart : tok'.top.savedState ≠ .start) : Inside tok' where
  plain := by rw [hstate]; rfl
  waits := hwaits
  same := by rw [hstate]; rintro ⟨⟩
  incomplete := fun hne => absurd hstate hne
  quote := by rw [hstate]; rintro (⟨⟨⟩⟩ | ⟨⟨⟩⟩)
  bottom := fun _ => ⟨by rw [hstate]; rfl, hstart⟩
  suspended := hbelow ▸ h.suspended

/-- On in the same token: the state and the levels below are as before. -/
theorem Inside.stay (h : Inside tok) (hbelow : tok'.below = tok.below)
    (hstate : tok'.top.state = tok.top.state) (hsaved : tok'.top.savedState = tok.top.savedState)
    (hquote : tok'.quoteChar = tok.quoteChar) : Inside tok' where
  plain := by rw [hstate]; exact h.plain
  waits := by rw [hsaved]; exact h.waits
  same := by rw [hstate, hsaved]; exact h.same
  incomplete := by rw [hstate, hsaved]; exact h.incomplete
  quote := by rw [hstate, hquote]; exact h.quote
  bottom := by rw [hbelow, hstate, hsaved]; exact h.bottom
  suspended := hbelow ▸ h.suspended

/-- What is no object and no array is a part of one, since the outermost value is an object. -/
theorem Inside.nested (h : Inside tok) (hscalar : scalar tok.top.state = true) :
    tok.below ≠ [] := by
  intro hnil
  rw [(h.bottom hnil).1] at hscalar
  cases hscalar

/-- At the beginning of a token. -/
theorem Inside.within (h : Inside tok) (hbelow : tok'.below = tok.below)
    (hsaved : tok'.top.savedState = tok.top.savedState) (hfinish : tok.top.savedState ≠ .finish)
    (hplain : special tok'.top.state = false) (hwaits : JsonTokener.waits tok'.top.state = false)
    (hscalar : tok.below = [] → scalar tok'.top.state = false)
    (hquote : tok'.top.state = .string ∨ tok'.top.state = .objectField → tok'.quoteChar ≠ nul) :
    Inside tok' where
  plain := hplain
  waits := hsaved ▸ h.waits
  same := by rw [hwaits]; rintro ⟨⟩
  incomplete := fun _ _ => hsaved ▸ hfinish
  quote := hquote
  bottom := fun hnil => ⟨hscalar (hbelow ▸ hnil), hsaved ▸ (h.bottom (hbelow ▸ hnil)).2⟩
  suspended := hbelow ▸ h.suspended

theorem not_complete_of_state (hfinish : tok.top.state ≠ .finish)
    (heatws : tok.top.state ≠ .eatws) : ¬ Complete tok := by
  rintro ⟨-, h | ⟨h, -⟩⟩
  · exact hfinish h
  · exact heatws h

theorem not_complete_of_saved (hstate : tok.top.state = .eatws)
    (hsaved : tok.top.savedState ≠ .finish) : ¬ Complete tok := by
  rintro ⟨-, h | ⟨-, h⟩⟩
  · rw [hstate] at h
    cases h
  · exact hsaved h

/-- What a round leaves true: the tokener is inside, and an outermost value is completed by its
brace only. -/
def StaysInside (tok : JsonTokener) : Step → Prop
  | .advance tok' => Inside tok'
  | .redo tok' => Inside tok' ∧ (Complete tok' → Complete tok)
  | .out _ err => err = none → Complete tok

/-- White space is skipped, and then the state behind it is taken. -/
theorem Inside.eatws (h : Inside tok) (hs : tok.top.state = .eatws) (hslash : c ≠ '/') :
    StaysInside tok (tok.step c) := by
  have hwaits := h.waits
  simp only [step, hs, if_neg hslash]
  split
  · exact h
  · refine ⟨⟨?_, hwaits, fun _ => rfl, ?_, ?_, fun hnil => ⟨?_, (h.bottom hnil).2⟩,
      h.suspended⟩, ?_⟩
    · show special tok.top.savedState = false
      cases hsaved : tok.top.savedState <;> rw [hsaved] at hwaits <;> first | rfl | cases hwaits
    · exact fun _ hne => hne
    · rintro (hstate | hstate) <;> rw [show tok.top.savedState = _ from hstate] at hwaits <;>
        cases hwaits
    · have hstart := (h.bottom hnil).2
      show scalar tok.top.savedState = false
      cases hsaved : tok.top.savedState <;> rw [hsaved] at hwaits hstart <;>
        first | rfl | exact absurd rfl hstart | cases hwaits
    · rintro ⟨hnil, hstate | ⟨hstate, -⟩⟩
      · exact ⟨hnil, .inr ⟨hs, hstate⟩⟩
      · rw [show tok.top.savedState = _ from hstate] at hwaits
        cases hwaits

/-- A level is pushed for an element or for the value of an entry. -/
theorem Inside.push (h : Inside tok) {s : JsonTokenerState}
    (hadds : s = .arrayAdd ∨ s = .objectValueAdd)
    (hsaved : tok.top.savedState = .array ∨ tok.top.savedState = .objectValue) :
    StaysInside tok (tok.push s hadds) := by
  unfold JsonTokener.push
  split
  · refine ⟨⟨rfl, rfl, ?_, fun hne => absurd rfl hne, ?_, ?_, ?_⟩, ?_⟩
    · rintro ⟨⟩
    · rintro (⟨⟨⟩⟩ | ⟨⟨⟩⟩)
    · rintro ⟨⟩
    · intro r hr
      rcases List.mem_cons.mp hr with rfl | hr
      · exact hsaved
      · exact h.suspended r hr
    · rintro ⟨⟨⟩, -⟩
  · rintro ⟨⟩

theorem quote_ne_nul (h : c = '"' ∨ c = '\x27') : c ≠ nul := by
  rcases h with rfl | rfl <;> decide

/-- A value begins: an object, an array, a string, a word or a number. -/
theorem Inside.start (h : Inside tok) (hs : tok.top.state = .start) :
    StaysInside tok (tok.step c) := by
  have hnest := h.nested (by rw [hs]; rfl)
  have hsaved : tok.top.savedState ≠ .finish :=
    h.incomplete (by rw [hs]; rintro ⟨⟩) (by rw [hs]; rintro ⟨⟩)
  -- `null`, `true` and numbers begin with the byte, which is looked at again
  have hscalar : ∀ {tok' : JsonTokener}, tok'.below = tok.below →
      tok'.top.savedState = tok.top.savedState →
      tok'.top.state = .null ∨ tok'.top.state = .boolean ∨ tok'.top.state = .number →
      StaysInside tok (.redo tok') := by
    rintro tok' hbelow hsame hstate
    refine ⟨h.within hbelow hsame hsaved ?_ ?_ (fun hnil => absurd hnil hnest) ?_,
      fun hc => absurd (hbelow ▸ hc.1) hnest⟩
    · rcases hstate with hstate | hstate | hstate <;> rw [hstate] <;> rfl
    · rcases hstate with hstate | hstate | hstate <;> rw [hstate] <;> rfl
    · rcases hstate with hstate | hstate | hstate <;> rw [hstate] <;> rintro (⟨⟨⟩⟩ | ⟨⟨⟩⟩)
  simp only [step, hs, startStep]
  repeat' split
  · exact h.waiting rfl rfl rfl (by rintro ⟨⟩)
  · exact h.waiting rfl rfl rfl (by rintro ⟨⟩)
  · exact hscalar rfl rfl (.inl rfl)
  · rename_i hquote
    exact h.within rfl rfl hsaved rfl rfl (fun hnil => absurd hnil hnest)
      fun _ => quote_ne_nul hquote
  · exact hscalar rfl rfl (.inr (.inl rfl))
  · exact hscalar rfl rfl (.inr (.inr rfl))
  · rintro ⟨⟩

/-- A value is complete: the level above takes it, which waits for its end. -/
theorem Inside.finish (h : Inside tok) (hs : tok.top.state = .finish) :
    StaysInside tok (tok.step c) := by
  simp only [step, hs, finishStep]
  split
  · rename_i hnil
    exact fun _ => ⟨hnil, .inl hs⟩
  · rename_i r below hbelow
    have hr := h.suspended r (by rw [hbelow]; exact List.mem_cons_self ..)
    have hrest : ∀ r' ∈ below, r'.srec.savedState = .array ∨ r'.srec.savedState = .objectValue :=
      fun r' hr' => h.suspended r' (by rw [hbelow]; exact List.mem_cons_of_mem _ hr')
    refine ⟨⟨?_, ?_, ?_, ?_, ?_, fun _ => ⟨?_, ?_⟩, hrest⟩, fun hc => absurd hc
      (not_complete_of_state ?_ ?_)⟩
    all_goals
      rcases r.adds with hstate | hstate <;> rcases hr with hsaved | hsaved <;>
        simp only [hstate, hsaved] <;> first | decide | (rintro (⟨⟨⟩⟩ | ⟨⟨⟩⟩))

/-- A value that is no object and no array ends in front of the byte. -/
theorem Inside.scalarEnd (h : Inside tok) (hscalar : scalar tok.top.state = true)
    (hbelow : tok'.below = tok.below) (hstate : tok'.top.state = .eatws)
    (hsaved : tok'.top.savedState = .finish) : StaysInside tok (.redo tok') := by
  refine ⟨h.waiting hbelow hstate (by rw [hsaved]; rfl) (by rw [hsaved]; rintro ⟨⟩), ?_⟩
  exact fun hc => absurd (hbelow ▸ hc.1) (h.nested hscalar)

theorem inside_step (h : Inside tok) (hslash : c ≠ '/') (hback : c ≠ '\\') :
    StaysInside tok (tok.step c) := by
  have hplain := h.plain
  have hsame := h.same
  have hincomplete := h.incomplete
  cases hs : tok.top.state with
  | eatws => exact h.eatws hs hslash
  | commentStart | comment | commentEol | commentEnd | stringEscape | escapeUnicode =>
    rw [hs] at hplain
    cases hplain
  | start => exact h.start hs
  | finish => exact h.finish hs
  | null =>
    have hscalar : scalar tok.top.state = true := by rw [hs]; rfl
    simp only [step, hs, nullStep]
    repeat' split
    · exact h.scalarEnd hscalar rfl rfl rfl
    · exact h.stay rfl rfl rfl rfl
    · rintro ⟨⟩
  | boolean =>
    have hscalar : scalar tok.top.state = true := by rw [hs]; rfl
    simp only [step, hs, booleanStep]
    repeat' split
    · exact h.scalarEnd hscalar rfl rfl rfl
    · exact h.stay rfl rfl rfl rfl
    · exact h.scalarEnd hscalar rfl rfl rfl
    · exact h.stay rfl rfl rfl rfl
    · rintro ⟨⟩
  | number =>
    have hscalar : scalar tok.top.state = true := by rw [hs]; rfl
    simp only [step, hs, numberStep]
    repeat' split
    · exact h.stay rfl rfl rfl rfl
    · exact h.scalarEnd hscalar rfl rfl rfl
    · rintro ⟨⟩
    · exact h.scalarEnd hscalar rfl rfl rfl
    · rintro ⟨⟩
  | string =>
    simp only [step, hs, quotedStep, if_neg hback]
    split
    · exact h.waiting rfl rfl rfl (by rintro ⟨⟩)
    · exact h.stay rfl rfl rfl rfl
  | array =>
    rw [hs] at hsame
    simp only [step, hs]
    split
    · exact h.waiting rfl rfl rfl (by rintro ⟨⟩)
    · exact h.push _ (.inl (hsame rfl))
  | arrayAdd =>
    simp only [step, hs]
    exact ⟨h.waiting rfl rfl rfl (by rintro ⟨⟩), fun hc => absurd hc (not_complete_of_saved rfl
      (by rintro ⟨⟩))⟩
  | arraySep =>
    simp only [step, hs]
    split
    · exact h.waiting rfl rfl rfl (by rintro ⟨⟩)
    · split
      · exact h.waiting rfl rfl rfl (by rintro ⟨⟩)
      · rintro ⟨⟩
  | objectFieldStart =>
    rw [hs] at hincomplete
    have hsaved := hincomplete (by rintro ⟨⟩) (by rintro ⟨⟩)
    simp only [step, hs]
    repeat' split
    · exact h.waiting rfl rfl rfl (by rintro ⟨⟩)
    · rename_i hquote
      exact h.within rfl rfl hsaved rfl rfl (fun _ => rfl) fun _ => quote_ne_nul hquote
    · rintro ⟨⟩
  | objectField =>
    simp only [step, hs, quotedStep, if_neg hback]
    split
    · exact h.waiting rfl rfl rfl (by rintro ⟨⟩)
    · exact h.stay rfl rfl rfl rfl
  | objectFieldEnd =>
    simp only [step, hs]
    split
    · exact h.waiting rfl rfl rfl (by rintro ⟨⟩)
    · rintro ⟨⟩
  | objectValue =>
    rw [hs] at hsame
    simp only [step, hs]
    exact h.push _ (.inr (hsame rfl))
  | objectValueAdd =>
    simp only [step, hs]
    exact ⟨h.waiting rfl rfl rfl (by rintro ⟨⟩), fun hc => absurd hc (not_complete_of_saved rfl
      (by rintro ⟨⟩))⟩
  | objectSep =>
    simp only [step, hs]
    split
    · exact h.waiting rfl rfl rfl (by rintro ⟨⟩)
    · split
      · exact h.waiting rfl rfl rfl (by rintro ⟨⟩)
      · rintro ⟨⟩

/-- A byte that is consumed leaves the tokener inside, whatever the number of its rounds. -/
theorem inside_feed (h : Inside tok) (hslash : c ≠ '/') (hback : c ≠ '\\')
    (hfeed : tok.feed c = .advance tok') : Inside tok' := by
  induction tok using rounds_induction c with
  | round tok ih =>
    have hstep := inside_step h hslash hback
    rw [feed_eq] at hfeed
    cases hround : tok.step c with
    | advance tok₁ =>
      rw [hround] at hstep hfeed
      obtain rfl := Fed.advance.inj hfeed
      exact hstep
    | redo tok₁ =>
      rw [hround] at hstep hfeed
      exact ih tok₁ hround hstep.1 hfeed
    | out tok₁ err =>
      rw [hround] at hfeed
      cases hfeed

/-- What consumes a NUL stays in the same state, and that state is not the one behind a value. -/
theorem step_nul (h : Inside tok) (hstep : tok.step nul = .advance tok') :
    tok.top.state ≠ .eatws ∧ tok.top.state ≠ .finish ∧ tok'.top = tok.top := by
  have hquote := h.quote
  have hplain := h.plain
  cases hs : tok.top.state with
  | eatws =>
    have hspace : isspace nul = false := by decide
    simp [step, hs, hspace, show nul ≠ '/' by decide] at hstep
  | commentStart | comment | commentEol | commentEnd | stringEscape | escapeUnicode =>
    rw [hs] at hplain
    cases hplain
  | start =>
    simp only [step, hs] at hstep
    cases (show Step.out tok (some .parseUnexpected) = .advance tok' from hstep)
  | finish =>
    simp only [step, hs, finishStep] at hstep
    split at hstep <;> cases hstep
  | null | boolean | number =>
    refine ⟨by rintro ⟨⟩, by rintro ⟨⟩, ?_⟩
    simp only [step, hs, nullStep, booleanStep, numberStep] at hstep
    repeat' split at hstep
    all_goals cases hstep
    all_goals rfl
  | string | objectField =>
    have hne := (hquote (by simp [hs])).symm
    refine ⟨by rintro ⟨⟩, by rintro ⟨⟩, ?_⟩
    simp only [step, hs, quotedStep, if_neg hne, if_neg (show nul ≠ '\\' by decide)] at hstep
    obtain rfl := Step.advance.inj hstep
    rfl
  | array | objectValue =>
    simp only [step, hs, push, if_neg (show nul ≠ ']' by decide)] at hstep
    split at hstep <;> cases hstep
  | arrayAdd | objectValueAdd =>
    simp only [step, hs] at hstep
    cases hstep
  | arraySep =>
    simp only [step, hs] at hstep
    cases (show Step.out tok (some .parseArray) = .advance tok' from hstep)
  | objectFieldStart =>
    simp only [step, hs] at hstep
    cases (show Step.out tok (some .parseObjectKeyName) = .advance tok' from hstep)
  | objectFieldEnd =>
    simp only [step, hs] at hstep
    cases (show Step.out tok (some .parseObjectKeySep) = .advance tok' from hstep)
  | objectSep =>
    simp only [step, hs] at hstep
    cases (show Step.out tok (some .parseObjectValueSep) = .advance tok' from hstep)

/-- **The end of the text** is an error, unless the outermost value is complete. -/
theorem run_nil_error (h : Inside tok) (hopen : ¬ Complete tok) : ∃ e, tok.run [] = .error e := by
  induction tok using rounds_induction nul with
  | round tok ih =>
    have hinside := inside_step (c := nul) h (by decide) (by decide)
    cases hround : tok.step nul with
    | advance tok₁ =>
      obtain ⟨heatws, hfinish, htop⟩ := step_nul h hround
      rw [run, feed_eq, hround]
      refine ⟨.parseEof, if_pos ⟨rfl, ?_, ?_⟩⟩
      · rwa [htop]
      · rw [htop]
        exact h.incomplete heatws hfinish
    | redo tok₁ =>
      rw [hround] at hinside
      rw [show tok.run [] = tok₁.run [] from run_redo hround]
      exact ih tok₁ hround hinside.1 fun hc => hopen (hinside.2 hc)
    | out tok₁ err =>
      rw [hround] at hinside
      rw [run, feed_eq, hround]
      cases err with
      | none => exact absurd (hinside rfl) hopen
      | some e =>
        simp only [leave]
        split
        · exact ⟨_, rfl⟩
        · exact ⟨e, rfl⟩

/-- Behind a complete value, nothing matters but a comment. -/
theorem Complete.run_eq (h : Complete tok) {rest : CString} (hslash : '/' ∉ rest)
    (hrest : ∃ c ∈ rest, isspace c = false) (tail : CString) :
    tok.run (rest ++ tail) = .ok tok.top.current := by
  have hfinish : ∀ {tok : JsonTokener} (c : Char) (text : CString), tok.below = [] →
      tok.top.state = .finish → tok.run (c :: text) = .ok tok.top.current := by
    intro tok c text hbelow hstate
    have hstep : tok.step c = .out tok none := by simp only [step, hstate, finishStep, hbelow]
    rw [run, feed_eq, hstep]
    simp only [leave]
    exact if_neg fun hc => hc.2.1 hstate
  obtain ⟨hbelow, hstate | ⟨hstate, hsaved⟩⟩ := h
  · obtain ⟨c, hc, -⟩ := hrest
    cases rest with
    | nil => cases hc
    | cons d rest => exact hfinish d (rest ++ tail) hbelow hstate
  · induction rest with
    | nil => exact absurd hrest (by rintro ⟨c, ⟨⟩, -⟩)
    | cons d rest ih =>
      have hd : d ≠ '/' := fun heq => hslash (heq ▸ List.mem_cons_self ..)
      rw [List.cons_append]
      cases hspace : isspace d with
      | true =>
        have hstep : tok.step d = .advance tok := by simp [step, hstate, hspace]
        rw [run_advance hstep]
        refine ih (fun hm => hslash (List.mem_cons_of_mem _ hm)) ?_
        obtain ⟨c, hc, hcspace⟩ := hrest
        rcases List.mem_cons.mp hc with rfl | hc
        · rw [hspace] at hcspace
          cases hcspace
        · exact ⟨c, hc, hcspace⟩
      | false =>
        have hstep : tok.step d = .redo (tok.goto .finish) := by
          simp [step, hstate, hspace, hd, hsaved]
        rw [show tok.run (d :: (rest ++ tail)) = (tok.goto .finish).run (d :: (rest ++ tail)) from
          run_redo hstep]
        exact hfinish d (rest ++ tail) hbelow rfl

/-- **A text that is cut off** in front of its last bytes is rejected, if with a slash behind it
the whole text is. -/
theorem run_prefix_error {front rest : CString} (h : Inside tok)
    (hplain : ∀ c ∈ front ++ rest, c ≠ '/' ∧ c ≠ '\\') (hrest : ∃ c ∈ rest, isspace c = false)
    (herror : ∃ e, tok.run (front ++ (rest ++ ['/'])) = .error e) :
    ∃ e, tok.run front = .error e := by
  induction front generalizing tok with
  | nil =>
    refine run_nil_error h fun hcomplete => ?_
    obtain ⟨e, he⟩ := herror
    have hslash : '/' ∉ rest := fun hm => (hplain '/' hm).1 rfl
    rw [List.nil_append, hcomplete.run_eq hslash hrest] at he
    cases he
  | cons c front ih =>
    obtain ⟨hslash, hback⟩ := hplain c (List.mem_cons_self ..)
    rw [List.cons_append] at herror
    cases hfeed : tok.feed c with
    | advance tok' =>
      rw [run, hfeed] at herror ⊢
      exact ih (inside_feed h hslash hback hfeed)
        (fun d hd => hplain d (List.mem_cons_of_mem _ hd)) herror
    | out tok' err =>
      rw [run, hfeed] at herror ⊢
      exact herror

end Rounds

/-- Behind an opening brace. -/
theorem Waiting.inside {tok : JsonTokener} {v : Json}
    (h : Waiting tok .objectFieldStart v []) : Inside tok where
  plain := by rw [h.state]; rfl
  waits := by rw [h.savedState]; rfl
  same := by rw [h.state]; rintro ⟨⟩
  incomplete := fun hne => absurd h.state hne
  quote := by rw [h.state]; rintro (⟨⟨⟩⟩ | ⟨⟨⟩⟩)
  bottom := fun _ => ⟨by rw [h.state]; rfl, by rw [h.savedState]; rintro ⟨⟩⟩
  suspended := by rw [h.below]; rintro r ⟨⟩

/-- A slash behind a complete value begins a comment that does not end. -/
theorem Waiting.run_slash {tok : JsonTokener} {v : Json} (h : Waiting tok .finish v []) :
    ∃ e, tok.run ['/'] = .error e := by
  have hstep : tok.step '/' = .advance { tok.goto .commentStart with pb := ['/'] } := by
    simp [step, h.state, show isspace '/' = false by decide]
  rw [run_advance hstep, run, feed_eq]
  simp only [step, goto, JsonTokenerSrec.goto, leave, h.savedState, show ¬ nul = '*' by decide,
    show ¬ nul = '/' by decide, if_false]
  exact ⟨.parseComment, if_neg fun hc => hc.2.2 rfl⟩

end JsonTokener

/-! ## The text of a snapshot -/

namespace Json

/-- Without a slash and a backslash, so that no comment and no escape is in it. -/
def Plain (text : CString) : Prop := ∀ c ∈ text, c ≠ '/' ∧ c ≠ '\\'

theorem plain_iff_all {text : CString} :
    text.all (fun c => !(c == '/') && !(c == '\\')) = true ↔ Plain text := by
  simp [Plain]

instance (text : CString) : Decidable (Plain text) := decidable_of_iff _ plain_iff_all

theorem plain_append {s t : CString} : Plain (s ++ t) ↔ Plain s ∧ Plain t := List.forall_mem_append

theorem plain_cons {c : Char} {s : CString} :
    Plain (c :: s) ↔ (c ≠ '/' ∧ c ≠ '\\') ∧ Plain s := List.forall_mem_cons

theorem plain_of_isDigit {text : CString} (h : ∀ c ∈ text, c.isDigit = true) : Plain text := by
  intro c hc
  have hdigit := h c hc
  constructor <;> rintro rfl <;> cases hdigit

theorem plain_printNat (n : Nat) : Plain (Decimal.printNat n) :=
  plain_of_isDigit fun _ hc => Decimal.isDigit_of_mem_printNat hc

theorem plain_printD (z : Int) : Plain (printD z) := by
  unfold printD Decimal.printInt
  split
  · exact plain_cons.mpr ⟨by decide, plain_printNat _⟩
  · exact plain_printNat _

theorem plain_printLf (d : Num) : Plain (printLf d) := by
  cases d with
  | fin q =>
    have hfixed : Plain (Decimal.printFixed 6 (Decimal.roundHalfEven (|q| * 10 ^ 6)).toNat) :=
      plain_append.mpr ⟨plain_printNat _, plain_cons.mpr ⟨by decide,
        plain_of_isDigit fun _ hc => Decimal.isDigit_of_mem_leftpad hc⟩⟩
    simp only [printLf]
    split
    · exact plain_cons.mpr ⟨by decide, hfixed⟩
    · exact hfixed
  | negZero => decide
  | inf neg => cases neg <;> decide
  | nan => decide

theorem plain_entries {entries : List (CString × Json)} (first : Bool)
    (h : ∀ e ∈ entries, Plain (escapeStr e.1) ∧ Plain e.2.toJsonString) :
    Plain (entriesToJsonString first entries) := by
  induction entries generalizing first with
  | nil => rintro c ⟨⟩
  | cons e entries ih =>
    obtain ⟨hkey, hval⟩ := h e (List.mem_cons_self ..)
    have hrest := ih false fun e he => h e (List.mem_cons_of_mem _ he)
    simp only [entriesToJsonString, plain_append]
    exact ⟨⟨⟨⟨⟨by cases first <;> decide, by decide⟩, hkey⟩, by decide⟩, hval⟩, hrest⟩

theorem plain_object {entries : List (CString × Json)}
    (h : ∀ e ∈ entries, Plain (escapeStr e.1) ∧ Plain e.2.toJsonString) :
    Plain (object entries).toJsonString := by
  rw [toJsonString, plain_cons, plain_append]
  exact ⟨by decide, plain_entries true h, by decide⟩

theorem plain_elements {elements : List Json} (first : Bool)
    (h : ∀ x ∈ elements, Plain x.toJsonString) : Plain (elementsToJsonString first elements) := by
  induction elements generalizing first with
  | nil => rintro c ⟨⟩
  | cons x elements ih =>
    have hrest := ih false fun x hx => h x (List.mem_cons_of_mem _ hx)
    simp only [elementsToJsonString, plain_append]
    exact ⟨⟨by cases first <;> decide, h x (List.mem_cons_self ..)⟩, hrest⟩

theorem plain_array {elements : List Json} (h : ∀ x ∈ elements, Plain x.toJsonString) :
    Plain (array elements).toJsonString := by
  rw [toJsonString, plain_cons, plain_append]
  exact ⟨by decide, plain_elements true h, by decide⟩

theorem le_toNat_of_isKeyChar {p : Char} (h : isKeyChar p = true) : 32 ≤ p.toNat := by
  simp only [isKeyChar, Bool.or_eq_true, Bool.and_eq_true, decide_eq_true_eq, beq_iff_eq] at h
  rcases h with (((⟨hle, -⟩ | ⟨hle, -⟩) | ⟨hle, -⟩) | rfl) | rfl
  · exact le_trans (by decide) (UInt32.le_iff_toNat_le.mp hle)
  · exact le_trans (by decide) (UInt32.le_iff_toNat_le.mp hle)
  · exact le_trans (by decide) (UInt32.le_iff_toNat_le.mp hle)
  · decide
  · decide

/-- A metric key is printed as it is, since none of its characters has an escape. -/
theorem plain_escapeStr {key : CString} (h : ∀ c ∈ key, isKeyChar c = true) :
    Plain (escapeStr key) := by
  intro c hc
  obtain ⟨d, hd, hmem⟩ := List.mem_flatMap.mp hc
  have hkey := h d hd
  have hge := le_toNat_of_isKeyChar hkey
  unfold escape at hmem
  split at hmem
  all_goals first | cases hkey | skip
  rw [if_neg (by omega), List.mem_singleton] at hmem
  subst hmem
  constructor <;> rintro rfl <;> cases hkey

end Json

/-- **An object that is cut off** anywhere before its last brace is rejected. -/
theorem parse_take_error {entries : List (CString × Json)} {levels n : Nat}
    (hfits : (Json.object entries).Fits levels) (hlevels : levels < jsonTokenerMaxDepth)
    (hplain : Json.Plain (Json.object entries).toJsonString)
    (hn : n < (Json.object entries).toJsonString.length) :
    ∃ e, jsonTokenerParse ((Json.object entries).toJsonString.take n) = .error e := by
  cases n with
  | zero => exact ⟨_, rfl⟩
  | succ n =>
    have hdepth : JsonTokener.new.below.length + levels < jsonTokenerMaxDepth := by
      rw [show JsonTokener.new.below = [] from rfl, List.length_nil, Nat.zero_add]
      exact hlevels
    have hread := JsonTokener.reads_toJsonString _ levels hfits .new ['/'] rfl hdepth (by decide)
    obtain ⟨body, hbody⟩ : ∃ body, (Json.object entries).toJsonString = '{' :: (body ++ ['}']) :=
      ⟨Json.entriesToJsonString true entries ++ [' '], by simp [Json.toJsonString]⟩
    have hnew : JsonTokener.new.top = .reset := rfl
    obtain ⟨tok, hopen, hrun⟩ := JsonTokener.run_openObject hnew
    rw [hbody] at hread hplain hn ⊢
    rw [List.length_cons, Nat.succ_lt_succ_iff] at hn
    rw [jsonTokenerParse, List.take_succ_cons, hrun]
    have hsplit := List.take_append_drop n (body ++ ['}'])
    have hbrace : (body ++ ['}']).drop n = body.drop n ++ ['}'] := by
      rw [List.length_append, List.length_singleton] at hn
      exact List.drop_append_of_le_length (by omega)
    refine @JsonTokener.run_prefix_error tok _ ((body ++ ['}']).drop n) hopen.inside ?_ ?_ ?_
    · rw [hsplit]
      exact fun c hc => hplain c (List.mem_cons_of_mem _ hc)
    · rw [hbrace]
      exact ⟨'}', by simp, by decide⟩
    · rw [← List.append_assoc, hsplit]
      rw [List.cons_append, hrun] at hread
      cases hback : (Json.object entries).readBack with
      | none =>
        rw [hback] at hread
        exact hread
      | some w =>
        rw [hback] at hread
        obtain ⟨tok', hfinish, hend⟩ := hread
        rw [hend]
        exact hfinish.run_slash

/-! ## The snapshot of a reachable state -/

/-- Tables whose stats have names that are printed as they are, as the three reachable ones do. -/
def PlainStats (t : Tables Num) : Prop :=
  ∀ s ∈ t.stats, Json.Plain (Json.escapeStr s.name.tmpkey)

theorem plainStats_empty : PlainStats .empty := by
  rintro s ⟨⟩

namespace PlainStats
variable {t t' : Tables Num}

theorem updateStat (h : PlainStats t) {group key value : CString}
    (hname : Json.Plain (Json.escapeStr (⟨group, key⟩ : StatsdStatName).tmpkey))
    (hok : StatsdC.updateStat t group key value = .ok t') : PlainStats t' := by
  obtain ⟨i, -, rfl⟩ | ⟨-, rfl⟩ := updateStat_cases hok
  · intro s hs
    obtain ⟨s', hs', heq⟩ := exists_of_mem_modify StatsdStat.name (fun _ => by rfl) hs
    rw [← heq]
    exact h s' hs'
  · intro s hs
    rcases List.mem_append.mp hs with hs | hs
    · exact h s hs
    · rwa [List.mem_singleton.mp hs]

theorem updateLastMsgSeen (h : PlainStats t) {now : Int}
    (hok : StatsdC.updateLastMsgSeen t now = .ok t') : PlainStats t' :=
  h.updateStat (by decide) hok

theorem initStats (h : PlainStats t) {now : Int} (hok : StatsdC.initStats t now = .ok t') :
    PlainStats t' := by
  simp only [StatsdC.initStats, bind_eq_ok] at hok
  obtain ⟨t₁, h₁, t₂, h₂, h₃⟩ := hok
  have hflush := h.updateStat (by decide) h₁
  have hseen := hflush.updateStat (by decide) h₂
  exact hseen.updateStat (by decide) h₃

theorem applyMetricCalls (h : PlainStats t) {calls : List (MetricCall Num)}
    (hok : StatsdC.applyMetricCalls t calls = .ok t') : PlainStats t' := by
  refine foldlM_invariant (I := PlainStats) (fun b call b' _ hb hcall => ?_) h hok
  obtain ⟨key, -, hcases⟩ := call.apply_cases hcall
  rcases hcases with ⟨counters, rfl, -⟩ | ⟨timers, rfl, -⟩ | ⟨gauges, rfl, -⟩
  · exact hb
  · exact hb
  · exact hb

theorem flushPass {firstByte : Num → Int} {cfg : FlushConfig} {env : FlushEnv}
    {report : Report Num} (h : PlainStats t)
    (hok : StatsdC.flushPass firstByte cfg env t = .ok (t', report)) : PlainStats t' := by
  obtain ⟨timers, -, -, hr⟩ := flushPass_eq_ok hok
  have hflushed : PlainStats (flushedTables cfg env.ts t timers.1) := h
  rcases hr with rfl | hstat
  · exact hflushed
  · exact hflushed.updateStat (by decide) hstat

theorem restart (h : PlainStats t) (hstate : DaemonState t) {r : Nat}
    (hok : statsdDeserialize .empty (snapshotText t) = .ok (r, t')) : PlainStats t' := by
  obtain ⟨-, -, -, rfl⟩ := (statsdDeserialize_serialize_iff hstate.nulFree).mp hok
  intro s hs
  obtain ⟨e, he, rfl⟩ := List.mem_map.mp hs
  obtain ⟨s, hs, hkey, -⟩ := exists_key_of_mem_rereadEntries he
  show Json.Plain (Json.escapeStr (statNameOf e.1).tmpkey)
  rw [← hkey, statNameOf_tmpkey (hstate.stats s hs).period_notMem]
  exact h s hs

/-- One event keeps the names, or adds one of the three that the daemon knows. -/
theorem step {firstByte : Num → Int} {e : DaemonEvent} (h : PlainStats t)
    (hstate : DaemonState t) (hstep : e.apply firstByte t = .ok t') : PlainStats t' := by
  rcases DaemonEvent.apply_cases hstep with ⟨calls, t₁, -, happly, hseen⟩ |
    ⟨cfg, env, report, hpass⟩ | ⟨t₁, now, hread, hinit⟩
  · have h₁ := h.applyMetricCalls happly
    rcases hseen with rfl | ⟨now, hok⟩
    · exact h₁
    · exact h₁.updateLastMsgSeen hok
  · exact h.flushPass hpass
  · rcases hread with rfl | ⟨r, hok⟩
    · exact plainStats_empty.initStats hinit
    · exact (h.restart hstate hok).initStats hinit

end PlainStats

theorem reachable_plainStats {firstByte : Num → Int} {t : Tables Num}
    (h : (daemon firstByte).Reachable t) : PlainStats t := by
  have hboth : DaemonState t ∧ PlainStats t := by
    refine h.invariant (I := fun t => DaemonState t ∧ PlainStats t) (fun t hinit => ?_)
      fun _ _ _ ht hstep => ⟨daemonState_step ht.1 hstep, ht.2.step ht.1 hstep⟩
    obtain ⟨now, hok⟩ := hinit
    exact ⟨daemonState_empty.initStats hok, plainStats_empty.initStats hok⟩
  exact hboth.2

/-- A table is printed without a slash and a backslash, if its keys and its values are. -/
theorem plain_tableEntries {ε : Type} {key : ε → CString} {val : ε → Json} {table : List ε}
    (hkey : ∀ s ∈ table, Json.Plain (Json.escapeStr (key s)))
    (hval : ∀ s ∈ table, Json.Plain (val s).toJsonString) :
    Json.Plain (Json.object (tableEntries key val table)).toJsonString := by
  refine Json.plain_object fun e he => ?_
  obtain ⟨s, hs, rfl⟩ := mem_tableEntries he
  exact ⟨hkey s hs, hval s hs⟩

/-- **The text of a snapshot** has no slash and no backslash in it. -/
theorem plain_snapshotText {firstByte : Num → Int} {t : Tables Num}
    (h : (daemon firstByte).Reachable t) : Json.Plain (snapshotText t) := by
  have hstate := reachable_daemonState h
  have hchars : ∀ {keys : List CString}, GoodKeys keys → ∀ k ∈ keys,
      Json.Plain (Json.escapeStr k) :=
    fun hkeys k hk => Json.plain_escapeStr (hkeys.metricKey k hk).chars
  rw [snapshotText, snapshotObject_eq]
  refine Json.plain_object ?_
  simp only [List.forall_mem_cons, List.not_mem_nil, false_implies, implies_true, and_true]
  refine ⟨⟨by decide, ?_⟩, ⟨by decide, ?_⟩, ⟨by decide, ?_⟩, ⟨by decide, ?_⟩⟩
  · exact plain_tableEntries (reachable_plainStats h) fun s _ => Json.plain_printD _
  · refine plain_tableEntries (fun s hs => hchars hstate.timers _ (List.mem_map_of_mem hs))
      fun s _ => Json.plain_array fun x hx => ?_
    obtain ⟨d, -, rfl⟩ := List.mem_map.mp hx
    exact Json.plain_printLf d
  · exact plain_tableEntries (fun g hg => hchars hstate.gauges _ (List.mem_map_of_mem hg))
      fun g _ => Json.plain_printLf _
  · exact plain_tableEntries (fun c hc => hchars hstate.counters _ (List.mem_map_of_mem hc))
      fun c _ => Json.plain_printLf _

/-- A part of the text of a snapshot is read as no object, and then nothing is loaded. -/
theorem deserialize_take {firstByte : Num → Int} {t : Tables Num}
    (h : (daemon firstByte).Reachable t) {n : Nat} (hn : n < (snapshotText t).length)
    (t₀ : Tables Num) :
    statsdDeserialize t₀ ((snapshotText t).take n) =
      if n < 10 then .ok (0, t₀) else .error (.json .errorPointer) := by
  have hfits := snapshotObject_fits (reachable_daemonState h).nulFree
  have hnul : nul ∉ (snapshotText t).take n := fun hmem =>
    Json.nul_notMem_toJsonString _ 3 hfits (List.mem_of_mem_take hmem)
  have hlen : ((snapshotText t).take n).length = n := List.length_take_of_le hn.le
  unfold statsdDeserialize
  rw [hlen]
  split
  · rfl
  · have herror : ∃ e, jsonTokenerParse ((snapshotText t).take n) = .error e := by
      have hplain := plain_snapshotText h
      rw [snapshotText, snapshotObject_eq] at hplain hn ⊢
      rw [snapshotObject_eq] at hfits
      exact parse_take_error hfits (by decide) hplain hn
    obtain ⟨e, he⟩ := herror
    have htext := fileText_eq hnul
    rw [fileText] at htext
    simp only [htext, he]
    rfl

theorem lt_length_snapshotText (t : Tables Num) : 20 < (snapshotText t).length := by
  rw [snapshotText, snapshotObject_eq, Sections.toObject, Json.toJsonString,
    Json.entriesToJsonString, Json.entriesToJsonString]
  have hopen : " \"".toList.length = 2 := by decide
  have hstats : (Json.escapeStr "stats".toList).length = 5 := by decide
  have htimers : (Json.escapeStr "timers".toList).length = 6 := by decide
  have hcolon : "\": ".toList.length = 3 := by decide
  have hend : " \x7d".toList.length = 2 := by decide
  simp only [if_true, List.nil_append, List.length_cons, List.length_append, hopen, hstats, htimers,
    hcolon, hend]
  omega

/-- **A snapshot that is cut off** anywhere is never loaded in part.  The writer gets through in
every state of every run.  The first bytes of its text leave the tables as they are if there are
fewer than ten of them, and are an access through the pointer of an error if there are more. -/
theorem deserialize_torn {firstByte : Num → Int} {t : Tables Num}
    (h : (daemon firstByte).Reachable t) :
    ∃ file, statsdSerialize tmpkeyBlock t = .ok file ∧
      ∀ n < file.length, ∀ t₀, statsdDeserialize t₀ (file.take n) =
        if n < 10 then .ok (0, t₀) else .error (.json .errorPointer) :=
  ⟨snapshotText t, (reachable_daemonState h).statsdSerialize_eq,
    fun _ hn t₀ => deserialize_take h hn t₀⟩

/-- The theorem at the first 20 bytes of what a process writes that has counted one. -/
theorem deserialize_torn_sevenTables :
    ∃ file, statsdSerialize tmpkeyBlock sevenTables = .ok file ∧ 20 < file.length ∧
      statsdDeserialize .empty (file.take 20) = .error (.json .errorPointer) := by
  obtain ⟨file, hwrite, htorn⟩ := deserialize_torn (reachable_sevenTables fun _ => 0)
  obtain ⟨-, rfl⟩ := statsdSerialize_eq_ok_iff.mp hwrite
  have hlen := lt_length_snapshotText sevenTables
  exact ⟨_, hwrite, hlen, htorn 20 hlen .empty⟩

end StatsdC
