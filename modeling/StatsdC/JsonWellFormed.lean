import StatsdC.SnapshotRoundTrip

/-!
# What the tokener accepts

Whatever the text, a value that `json_tokener_parse` returns is well formed: no key is twice in an
object, at most 31 levels have something in them, no string has a NUL, and every number is one of
its type (`wellFormed_of_parse`).  An integer is in the range of an `int`.  A number with a point is
a `double`: a value of the format, a zero with or without a minus sign, an infinity or a NaN; it was
rounded when it was read.

The invariant is that of each level of the stack, at its depth (`Sane`).  A level that is about to
add a value has a sane value to add, with as many levels as there is room for at its depth, and a
level that is in the middle of a string has no NUL in what it has gathered so far.  One round keeps
this, with one lemma for each group of states (`sane_step`), and the rest is an induction over the
bytes.

So what is accepted can be printed and parsed again, and comes back with every number to six
decimals, unless one is not finite; from then on nothing changes any more
(`jsonTokenerParse_stable`).  The first time a number with a point can change, because six decimals
do not tell it apart from its neighbours, and it is rounded again when it is read; the text of the
second printing is that of the first.
-/

namespace StatsdC
open CString Decimal

/-- A number that a variable of type `double` can have: finite and of the format, an infinity or
a NaN. -/
def Num.InRange (x : Num) : Prop := x.IsFinite → x.IsDouble

namespace Json

mutual

/-- A value with unique keys, no NUL and numbers of their types, in which at most `levels`
levels have something in them. -/
def WellFormed (levels : Nat) : Json → Prop
  | null | boolean _ => True
  | double d => d.InRange
  | int i => -2 ^ 31 ≤ i ∧ i < 2 ^ 31
  | object entries =>
    (entries ≠ [] → 0 < levels) ∧ (entries.map Prod.fst).Nodup ∧
      EntriesWellFormed (levels - 1) entries
  | array elements => (elements ≠ [] → 0 < levels) ∧ ElementsWellFormed (levels - 1) elements
  | string s => nul ∉ s

/-- Entries with such values, whose keys have no NUL. -/
def EntriesWellFormed (levels : Nat) : List (CString × Json) → Prop
  | [] => True
  | (key, val) :: entries =>
    nul ∉ key ∧ WellFormed levels val ∧ EntriesWellFormed levels entries

/-- Elements that are such values. -/
def ElementsWellFormed (levels : Nat) : List Json → Prop
  | [] => True
  | val :: elements => WellFormed levels val ∧ ElementsWellFormed levels elements

end

theorem entriesWellFormed_iff {levels : Nat} {entries : List (CString × Json)} :
    EntriesWellFormed levels entries ↔ ∀ e ∈ entries, nul ∉ e.1 ∧ WellFormed levels e.2 := by
  induction entries with
  | nil => simp [EntriesWellFormed]
  | cons e entries ih => simp [EntriesWellFormed, ih, and_assoc]

theorem elementsWellFormed_iff {levels : Nat} {elements : List Json} :
    ElementsWellFormed levels elements ↔ ∀ x ∈ elements, WellFormed levels x := by
  induction elements with
  | nil => simp [ElementsWellFormed]
  | cons x elements ih => simp [ElementsWellFormed, ih]

mutual

theorem WellFormed.mono : ∀ {v : Json} {levels levels' : Nat}, levels ≤ levels' →
    v.WellFormed levels → v.WellFormed levels'
  | .null, _, _, _, _ | .boolean _, _, _, _, _ => trivial
  | .double _, _, _, _, h | .int _, _, _, _, h | .string _, _, _, _, h => h
  | .object _, _, _, hle, ⟨hpos, hnodup, hentries⟩ =>
    ⟨fun hne => (hpos hne).trans_le hle, hnodup, hentries.mono (by omega)⟩
  | .array _, _, _, hle, ⟨hpos, helements⟩ =>
    ⟨fun hne => (hpos hne).trans_le hle, helements.mono (by omega)⟩

theorem EntriesWellFormed.mono : ∀ {entries : List (CString × Json)} {levels levels' : Nat},
    levels ≤ levels' → EntriesWellFormed levels entries → EntriesWellFormed levels' entries
  | [], _, _, _, _ => trivial
  | _ :: _, _, _, hle, ⟨hkey, hval, hentries⟩ => ⟨hkey, hval.mono hle, hentries.mono hle⟩

theorem ElementsWellFormed.mono : ∀ {elements : List Json} {levels levels' : Nat},
    levels ≤ levels' → ElementsWellFormed levels elements → ElementsWellFormed levels' elements
  | [], _, _, _, _ => trivial
  | _ :: _, _, _, hle, ⟨hval, helements⟩ => ⟨hval.mono hle, helements.mono hle⟩

end

/-- An entry is added, or replaced where the key is there already. -/
theorem WellFormed.objectAdd {v val : Json} {key : CString} {levels : Nat}
    (h : v.WellFormed (levels + 1)) (hkey : nul ∉ key) (hval : val.WellFormed levels) :
    (v.objectAdd key val).WellFormed (levels + 1) := by
  cases v with
  | object entries =>
    obtain ⟨-, hnodup, hentries⟩ := h
    refine ⟨fun _ => Nat.succ_pos levels, nodup_lhTableAdd hnodup,
      entriesWellFormed_iff.mpr fun e he => ?_⟩
    rcases mem_lhTableAdd he with he | rfl
    · exact entriesWellFormed_iff.mp hentries e he
    · exact ⟨hkey, hval⟩
  | null | boolean | double | int | array | string => exact h

/-- An element is added. -/
theorem WellFormed.arrayAdd {v val : Json} {levels : Nat} (h : v.WellFormed (levels + 1))
    (hval : val.WellFormed levels) : (v.arrayAdd val).WellFormed (levels + 1) := by
  cases v with
  | array elements =>
    obtain ⟨-, helements⟩ := h
    refine ⟨fun _ => Nat.succ_pos levels, elementsWellFormed_iff.mpr fun x hx => ?_⟩
    rcases List.mem_append.mp hx with hx | hx
    · exact elementsWellFormed_iff.mp helements x hx
    · rwa [List.mem_singleton.mp hx]
  | null | boolean | double | int | object | string => exact h

end Json

/-! ## Numbers -/

theorem Num.inRange_ofRat (q : Rat) : (Num.ofRat q).InRange := Num.isDouble_ofRat

theorem Num.InRange.neg {x : Num} (h : x.InRange) : x.neg.InRange := by
  intro hfinite
  cases x with
  | fin q => exact (h trivial).neg
  | negZero => exact (h trivial).neg
  | inf s => exact hfinite.elim
  | nan => exact hfinite.elim

/-- What a text denotes is rounded to a `double`, so that it is in the range of the type. -/
theorem Literal.inRange_toNum (neg : Bool) (l : Literal) : (l.toNum neg).InRange := by
  cases l with
  | number q =>
    cases neg with
    | false => exact Num.inRange_ofRat q
    | true => exact (Num.inRange_ofRat q).neg
  | inf => exact id
  | nan => exact id

theorem inRange_of_sscanfLf {s : CString} {x : Num} (h : sscanfLf s = some x) : x.InRange := by
  unfold sscanfLf at h
  split at h
  · cases h
  · obtain ⟨⟨neg, l⟩, -, rfl⟩ := Option.map_eq_some_iff.mp h
    exact l.inRange_toNum neg

theorem bounds_of_sscanfD {s : CString} {i : Int} (h : sscanfD s = some i) :
    -2 ^ 31 ≤ i ∧ i < 2 ^ 31 := by
  obtain ⟨z, -, rfl⟩ := Option.map_eq_some_iff.mp h
  exact intOfLong_bounds _

namespace JsonTokener

/-! ## The levels of the stack -/

/-- How many levels may be in a value at this depth, so that the whole has no more than the tokener
allows. -/
def levelsAt (depth : Nat) : Nat := jsonTokenerMaxDepth - 1 - depth

/-- A level at its depth: its value fits, its name has no NUL, and the state to go back to adds no
value. -/
structure LevelSane (depth : Nat) (r : JsonTokenerSrec) : Prop where
  current : r.current.WellFormed (levelsAt depth)
  name : nul ∉ r.objFieldName
  saved : r.savedState ≠ .arrayAdd ∧ r.savedState ≠ .objectValueAdd

/-- The levels below the top. -/
def BelowSane : List SuspendedSrec → Prop
  | [] => True
  | r :: below => LevelSane below.length r.srec ∧ BelowSane below

/-- A level is about to add the value in `obj`, which the level above it has just completed. -/
def adding (r : JsonTokenerSrec) : Prop := r.state = .arrayAdd ∨ r.state = .objectValueAdd

/-- **The invariant of the tokener.** Every level is sane at its depth, and the value in `obj` fits
where it is to be added. -/
structure Sane (tok : JsonTokener) : Prop where
  depth : tok.below.length < jsonTokenerMaxDepth
  top : LevelSane tok.below.length tok.top
  below : BelowSane tok.below
  obj : adding tok.top → tok.below.length + 1 < jsonTokenerMaxDepth ∧
    tok.obj.WellFormed (levelsAt (tok.below.length + 1))

/-- The tokener as a round leaves it, whether or not the byte is consumed. -/
def Step.final : Step → JsonTokener
  | advance tok | redo tok | out tok _ => tok

variable {tok tok' : JsonTokener} {c : Char}

theorem levelSane_reset (depth : Nat) : LevelSane depth .reset :=
  ⟨trivial, List.not_mem_nil, by rintro ⟨⟩, by rintro ⟨⟩⟩

/-- A top level with a sane value, in a state that does not add one. -/
theorem Sane.ofTop (h : Sane tok) (htop : LevelSane tok.below.length tok'.top)
    (hbelow : tok'.below = tok.below) (hadding : ¬ adding tok'.top) : Sane tok' where
  depth := hbelow ▸ h.depth
  top := hbelow ▸ htop
  below := hbelow ▸ h.below
  obj hadd := absurd hadd hadding

/-- The same top level in a state that does not add a value. -/
theorem Sane.ofState (h : Sane tok) (hcurrent : tok'.top.current = tok.top.current)
    (hname : tok'.top.objFieldName = tok.top.objFieldName)
    (hsaved : tok'.top.savedState = tok.top.savedState) (hbelow : tok'.below = tok.below)
    (hadding : ¬ adding tok'.top) : Sane tok' :=
  h.ofTop ⟨hcurrent ▸ h.top.current, hname ▸ h.top.name, hsaved ▸ h.top.saved⟩ hbelow hadding

theorem nul_notMem_cstr (s : CString) : nul ∉ cstr s 0 := by
  intro hm
  have := List.mem_takeWhile_imp hm
  simp at this

/-- A value is complete, and the level waits for the white space behind it. -/
theorem Sane.finishWith (h : Sane tok) {v : Json} (hv : v.WellFormed (levelsAt tok.below.length))
    (htop : tok'.top = tok.top.finishWith v) (hbelow : tok'.below = tok.below) : Sane tok' := by
  refine h.ofTop ?_ hbelow ?_
  · rw [htop]
    exact ⟨hv, h.top.name, by rintro ⟨⟩, by rintro ⟨⟩⟩
  · rw [htop]
    rintro (hs | hs) <;> cases hs

theorem sane_startStep (h : Sane tok) (c : Char) :
    Sane (tok.startStep c).final := by
  have hempty : ∀ (v : Json) (s : JsonTokenerState) (hne : s ≠ .eatws),
      v.WellFormed (levelsAt tok.below.length) → s ≠ .arrayAdd ∧ s ≠ .objectValueAdd →
      Sane { tok with top := { tok.top.eatwsThen s hne with current := v } } := by
    intro v s hne hv hs
    exact h.ofTop ⟨hv, h.top.name, hs⟩ rfl (by rintro (hm | hm) <;> cases hm)
  unfold startStep
  repeat' split
  · exact hempty _ _ _ ⟨fun hne => absurd rfl hne, List.nodup_nil, trivial⟩
      ⟨by rintro ⟨⟩, by rintro ⟨⟩⟩
  · exact hempty _ _ _ ⟨fun hne => absurd rfl hne, trivial⟩ ⟨by rintro ⟨⟩, by rintro ⟨⟩⟩
  iterate 4 exact h.ofState rfl rfl rfl rfl (by rintro (hm | hm) <;> cases hm)
  · exact h

theorem sane_finishStep (h : Sane tok) : Sane tok.finishStep.final := by
  unfold finishStep
  split
  · exact h
  · rename_i r below hbelow
    have hdepth := h.depth
    have htop := h.top.current
    have hlevels := h.below
    rw [hbelow, List.length_cons] at hdepth htop
    rw [hbelow] at hlevels
    exact ⟨by dsimp only [Step.final]; omega, hlevels.1, hlevels.2, fun _ => ⟨hdepth, htop⟩⟩

/-- The words `null`, `true` and `false`, byte by byte. -/
theorem sane_words (h : Sane tok) (c : Char) (hs : ¬ adding tok.top) :
    Sane (tok.nullStep c).final ∧ Sane (tok.booleanStep c).final := by
  have hkeep : ∀ {tok' : JsonTokener}, tok'.top = tok.top → tok'.below = tok.below → Sane tok' :=
    fun htop hbelow => h.ofTop (htop ▸ h.top) hbelow (htop ▸ hs)
  constructor
  · unfold nullStep
    dsimp only
    repeat' split
    · exact h.finishWith (v := .null) trivial rfl rfl
    · exact hkeep rfl rfl
    · exact hkeep rfl rfl
  · unfold booleanStep
    dsimp only
    repeat' split
    · exact h.finishWith (v := .boolean true) trivial rfl rfl
    · exact hkeep rfl rfl
    · exact h.finishWith (v := .boolean false) trivial rfl rfl
    · exact hkeep rfl rfl
    · exact hkeep rfl rfl

theorem sane_numberStep (h : Sane tok) (c : Char) (hs : ¬ adding tok.top) :
    Sane (tok.numberStep c).final := by
  unfold numberStep
  repeat' split
  · exact h.ofTop h.top rfl hs
  · rename_i d hd
    exact h.finishWith (v := .double d) (inRange_of_sscanfLf hd) rfl rfl
  · exact h
  · rename_i i hi
    exact h.finishWith (v := .int i) (bounds_of_sscanfD hi) rfl rfl
  · exact h

theorem sane_quotedStep (h : Sane tok) (c : Char) {self : JsonTokenerState} {hself : self ≠ .eatws}
    {close : CString → JsonTokener} (hs : ¬ adding tok.top)
    (hclose : ∀ s, nul ∉ s → Sane (close s)) (hsaved : self ≠ .arrayAdd ∧ self ≠ .objectValueAdd) :
    Sane (tok.quotedStep c self hself close).final := by
  unfold quotedStep
  repeat' split
  · exact hclose _ (nul_notMem_cstr _)
  · exact h.ofTop ⟨h.top.current, h.top.name, hsaved⟩ rfl (by rintro (hm | hm) <;> cases hm)
  · exact h.ofTop h.top rfl hs

theorem sane_escapeSteps (h : Sane tok) (c : Char) (hs : ¬ adding tok.top) :
    Sane (tok.stringEscapeStep c).final ∧ Sane (tok.escapeUnicodeStep c).final := by
  have hreturn : ∀ pb ucsChar stPos,
      Sane { tok.goto tok.top.savedState with pb, ucsChar, stPos } := by
    intro pb ucsChar stPos
    refine h.ofState rfl rfl rfl rfl ?_
    rintro (hm | hm)
    · exact h.top.saved.1 hm
    · exact h.top.saved.2 hm
  constructor
  · unfold stringEscapeStep
    dsimp only
    repeat' split
    iterate 5 exact hreturn _ _ _
    · exact h.ofState rfl rfl rfl rfl (by rintro (hm | hm) <;> cases hm)
    · exact h
  · unfold escapeUnicodeStep
    dsimp only
    repeat' split
    · exact hreturn _ _ _
    · exact h.ofTop h.top rfl hs
    · exact h

theorem sane_push (h : Sane tok) {s : JsonTokenerState} (hs : s = .arrayAdd ∨ s = .objectValueAdd) :
    Sane (tok.push s hs).final := by
  unfold push
  split
  · rename_i hdepth
    exact ⟨hdepth, levelSane_reset _, ⟨⟨h.top.current, h.top.name, h.top.saved⟩, h.below⟩,
      by rintro (hm | hm) <;> cases hm⟩
  · exact h

theorem levelsAt_eq {depth : Nat} (h : depth + 1 < jsonTokenerMaxDepth) :
    levelsAt depth = levelsAt (depth + 1) + 1 := by
  unfold levelsAt
  omega

/-- **A round keeps the invariant**, with one case for each state of the tokener. -/
theorem sane_step (h : Sane tok) (c : Char) : Sane (tok.step c).final := by
  have hwait : ∀ {tok' : JsonTokener} {s : JsonTokenerState} (hne : s ≠ .eatws),
      tok'.top = tok.top.eatwsThen s hne → tok'.below = tok.below →
      s ≠ .arrayAdd ∧ s ≠ .objectValueAdd → Sane tok' := by
    intro tok' s hne htop hbelow hs
    refine h.ofTop ?_ hbelow ?_
    · rw [htop]
      exact ⟨h.top.current, h.top.name, hs⟩
    · rw [htop]
      rintro (hm | hm) <;> cases hm
  have hstate : ∀ {s}, tok.top.state = s → s ≠ .arrayAdd → s ≠ .objectValueAdd →
      ¬ adding tok.top := by
    rintro s rfl h₁ h₂ (hm | hm)
    · exact h₁ hm
    · exact h₂ hm
  cases hs : tok.top.state with
  | eatws =>
    simp only [step, hs]
    repeat' split
    · exact h
    · exact h.ofState rfl rfl rfl rfl (by rintro (hm | hm) <;> cases hm)
    · refine h.ofState rfl rfl rfl rfl ?_
      rintro (hm | hm)
      · exact h.top.saved.1 hm
      · exact h.top.saved.2 hm
  | start =>
    simp only [step, hs]
    exact sane_startStep h c
  | finish =>
    simp only [step, hs]
    exact sane_finishStep h
  | null =>
    simp only [step, hs]
    exact (sane_words h c (hstate hs (by rintro ⟨⟩) (by rintro ⟨⟩))).1
  | boolean =>
    simp only [step, hs]
    exact (sane_words h c (hstate hs (by rintro ⟨⟩) (by rintro ⟨⟩))).2
  | number =>
    simp only [step, hs]
    exact sane_numberStep h c (hstate hs (by rintro ⟨⟩) (by rintro ⟨⟩))
  | string =>
    simp only [step, hs]
    exact sane_quotedStep h c (hstate hs (by rintro ⟨⟩) (by rintro ⟨⟩))
      (fun s hnul => h.finishWith (v := .string s) hnul rfl rfl) ⟨by rintro ⟨⟩, by rintro ⟨⟩⟩
  | objectField =>
    simp only [step, hs]
    refine sane_quotedStep h c (hstate hs (by rintro ⟨⟩) (by rintro ⟨⟩)) (fun s hnul => ?_)
      ⟨by rintro ⟨⟩, by rintro ⟨⟩⟩
    exact h.ofTop ⟨h.top.current, hnul, by rintro ⟨⟩, by rintro ⟨⟩⟩ rfl
      (by rintro (hm | hm) <;> cases hm)
  | stringEscape =>
    simp only [step, hs]
    exact (sane_escapeSteps h c (hstate hs (by rintro ⟨⟩) (by rintro ⟨⟩))).1
  | escapeUnicode =>
    simp only [step, hs]
    exact (sane_escapeSteps h c (hstate hs (by rintro ⟨⟩) (by rintro ⟨⟩))).2
  | commentStart | comment | commentEol | commentEnd =>
    simp only [step, hs]
    repeat' split
    all_goals first
      | exact h
      | exact h.ofTop h.top rfl (hstate hs (by rintro ⟨⟩) (by rintro ⟨⟩))
      | exact h.ofState rfl rfl rfl rfl (by rintro (hm | hm) <;> cases hm)
  | array =>
    simp only [step, hs]
    split
    · exact hwait (by decide) rfl rfl ⟨by rintro ⟨⟩, by rintro ⟨⟩⟩
    · exact sane_push h _
  | arrayAdd =>
    obtain ⟨hdepth, hobj⟩ := h.obj (.inl hs)
    have hcurrent := h.top.current
    rw [levelsAt_eq hdepth] at hcurrent
    have hadd := hcurrent.arrayAdd hobj
    rw [← levelsAt_eq hdepth] at hadd
    simp only [step, hs]
    exact h.ofTop ⟨hadd, h.top.name, by rintro ⟨⟩, by rintro ⟨⟩⟩ rfl
      (by rintro (hm | hm) <;> cases hm)
  | objectValue =>
    simp only [step, hs]
    exact sane_push h _
  | objectValueAdd =>
    obtain ⟨hdepth, hobj⟩ := h.obj (.inr hs)
    have hcurrent := h.top.current
    rw [levelsAt_eq hdepth] at hcurrent
    have hadd := hcurrent.objectAdd h.top.name hobj
    rw [← levelsAt_eq hdepth] at hadd
    simp only [step, hs]
    exact h.ofTop ⟨hadd, List.not_mem_nil, by rintro ⟨⟩, by rintro ⟨⟩⟩ rfl
      (by rintro (hm | hm) <;> cases hm)
  | arraySep | objectFieldEnd | objectSep =>
    simp only [step, hs]
    repeat' split
    all_goals first
      | exact h
      | exact hwait (by decide) rfl rfl ⟨by rintro ⟨⟩, by rintro ⟨⟩⟩
  | objectFieldStart =>
    simp only [step, hs]
    repeat' split
    · exact hwait (by decide) rfl rfl ⟨by rintro ⟨⟩, by rintro ⟨⟩⟩
    · exact h.ofState rfl rfl rfl rfl (by rintro (hm | hm) <;> cases hm)
    · exact h

/-! ## The whole text -/

/-- The tokener as a byte leaves it. -/
def Fed.final : Fed → JsonTokener
  | advance tok | out tok _ => tok

theorem sane_feedLoop (h : Sane tok) (fuel : Nat) (c : Char) :
    Sane (feedLoop fuel tok c).final := by
  induction fuel generalizing tok with
  | zero => exact h
  | succ fuel ih =>
    have hstep := sane_step h c
    unfold feedLoop
    cases hres : tok.step c with
    | advance tok' =>
      rw [hres] at hstep
      exact hstep
    | out tok' err =>
      rw [hres] at hstep
      exact hstep
    | redo tok' =>
      rw [hres] at hstep
      exact ih hstep

theorem wellFormed_of_leave {err : Option JsonTokenerError} {v : Json} (h : Sane tok)
    (hleave : tok.leave c err = .ok v) : v.WellFormed (jsonTokenerMaxDepth - 1) := by
  unfold leave at hleave
  split at hleave
  · cases hleave
  · split at hleave
    · cases hleave
    · obtain rfl := Except.ok.inj hleave
      exact h.top.current.mono (Nat.sub_le ..)

theorem wellFormed_of_run {text : CString} {v : Json} (h : Sane tok) (hrun : tok.run text = .ok v) :
    v.WellFormed (jsonTokenerMaxDepth - 1) := by
  induction text generalizing tok with
  | nil =>
    have hfeed := sane_feedLoop h 10 nul
    unfold run feed at hrun
    cases hres : feedLoop 10 tok nul with
    | advance tok' =>
      rw [hres] at hrun hfeed
      exact wellFormed_of_leave hfeed hrun
    | out tok' err =>
      rw [hres] at hrun hfeed
      exact wellFormed_of_leave hfeed hrun
  | cons c text ih =>
    have hfeed := sane_feedLoop h 10 c
    unfold run feed at hrun
    cases hres : feedLoop 10 tok c with
    | advance tok' =>
      rw [hres] at hrun hfeed
      exact ih hfeed hrun
    | out tok' err =>
      rw [hres] at hrun hfeed
      exact wellFormed_of_leave hfeed hrun

theorem sane_new : Sane .new where
  depth := by decide
  top := levelSane_reset _
  below := trivial
  obj := by rintro (hm | hm) <;> cases hm

end JsonTokener

/-- **What the tokener accepts is well formed**, whatever the text. -/
theorem wellFormed_of_parse {str : CString} {v : Json} (h : jsonTokenerParse str = .ok v) :
    v.WellFormed (jsonTokenerMaxDepth - 1) :=
  JsonTokener.wellFormed_of_run JsonTokener.sane_new h

/-- An object with a key that is given twice, which is parsed to an object that has it once. -/
theorem wellFormed_of_parse_twice :
    Json.WellFormed 31 (.object [("a".toList, .array [.int 7])]) :=
  @wellFormed_of_parse "\x7b'a':null, 'a':[7]\x7d".toList
    (.object [("a".toList, .array [.int 7])]) rfl

/-! ## Printed and parsed again -/

namespace JsonTokener

mutual

/-- A well-formed value is read back, at any depth where its levels have room. -/
theorem reads_of_wellFormed : ∀ (v : Json) (levels : Nat), v.WellFormed levels →
    Reads levels v.toJsonString v.readBack
  | .null, _, _ => reads_null
  | .boolean true, _, _ => reads_true
  | .boolean false, _, _ => reads_false
  | .double (.fin q), _, _ => reads_printLf (d := .fin q) trivial
  | .double .negZero, _, _ => reads_printLf (d := .negZero) trivial
  | .double (.inf neg), _, _ => reads_not_finite (d := .inf neg) id
  | .double .nan, _, _ => reads_not_finite (d := .nan) id
  | .int _, _, ⟨hlo, hhi⟩ => reads_printD hlo hhi
  | .string _, _, hs => reads_string hs
  | .object [], _, _ => reads_object_nil
  | .object ((_, val) :: es), levels, ⟨hlevels, _, hkey, hval, hes⟩ =>
    reads_object_cons (hlevels (List.cons_ne_nil _ _)) hkey
      (reads_of_wellFormed val (levels - 1) hval) (readsEntries_of_wellFormed es (levels - 1) hes)
  | .array [], _, _ => reads_array_nil
  | .array (val :: xs), levels, ⟨hlevels, hval, hxs⟩ =>
    reads_array_cons (hlevels (List.cons_ne_nil _ _))
      (reads_of_wellFormed val (levels - 1) hval) (readsElements_of_wellFormed xs (levels - 1) hxs)

theorem readsEntries_of_wellFormed : ∀ (es : List (CString × Json)) (levels : Nat),
    Json.EntriesWellFormed levels es → ReadsEntries levels es
  | [], _, _ => fun _ _ _ _ _ _ _ h hr _ => h.yields_objectEnd hr
  | (_, val) :: es, levels, ⟨hkey, hval, hes⟩ =>
    readsEntries_cons hkey (reads_of_wellFormed val levels hval)
      (readsEntries_of_wellFormed es levels hes)

theorem readsElements_of_wellFormed : ∀ (xs : List Json) (levels : Nat),
    Json.ElementsWellFormed levels xs → ReadsElements levels xs
  | [], _, _ => fun _ _ _ _ _ _ h hr _ => h.yields_arrayEnd hr
  | val :: xs, levels, ⟨hval, hxs⟩ =>
    readsElements_cons (reads_of_wellFormed val levels hval)
      (readsElements_of_wellFormed xs levels hxs)

end

end JsonTokener

namespace Json

mutual

/-- What is read back is well formed, and is itself read back as it is. -/
theorem WellFormed.reread : ∀ {v : Json} {levels : Nat}, v.WellFormed levels → v.ReadsBack →
    v.reread.WellFormed levels ∧ v.reread.readBack = some v.reread
  | .null, _, _, _ | .boolean _, _, _, _ => ⟨trivial, rfl⟩
  | .double (.fin q), _, h, _ => by
    have hdouble := Num.isDouble_toSix (h trivial)
    have hval : (double (.fin q)).reread = double (Num.fin q).toSix := rfl
    rw [hval]
    refine ⟨fun _ => hdouble, ?_⟩
    rw [readBack_double hdouble.isFinite, Num.toSix_toSix (h trivial)]
  | .double .negZero, _, h, _ => ⟨h, rfl⟩
  | .double (.inf _), _, _, hback => by
    obtain ⟨w, ⟨⟩⟩ := hback
  | .double .nan, _, _, hback => by
    obtain ⟨w, ⟨⟩⟩ := hback
  | .int _, _, h, _ => ⟨h, rfl⟩
  | .string _, _, h, _ => ⟨h, rfl⟩
  | .object entries, levels, ⟨hpos, hnodup, hentries⟩, hback => by
    obtain ⟨w, hw⟩ := hback
    obtain ⟨hall, rfl⟩ := (readBack_object_iff hnodup).mp hw
    have hval : (object entries).reread = object (rereadEntries entries) := by
      rw [Json.reread, hw, Option.getD_some]
    obtain ⟨hwell, hagain⟩ := hentries.reread hall
    have hkeys : ((rereadEntries entries).map Prod.fst).Nodup := by rwa [map_fst_rereadEntries]
    rw [hval]
    refine ⟨⟨fun hne => hpos ?_, hkeys, hwell⟩, (readBack_object_iff hkeys).mpr ⟨?_, ?_⟩⟩
    · rintro rfl
      exact hne rfl
    · exact fun e he => ⟨_, hagain e he⟩
    · have hsame : ∀ e ∈ rereadEntries entries, (e.1, e.2.reread) = e := by
        intro e he
        rw [Json.reread, hagain e he, Option.getD_some]
      have htwice : rereadEntries (rereadEntries entries) = rereadEntries entries :=
        (List.map_congr_left hsame).trans (List.map_id' _)
      rw [htwice]
  | .array elements, levels, ⟨hpos, helements⟩, hback => by
    have hall := readsBack_array_iff.mp hback
    obtain ⟨hwell, hagain⟩ := helements.reread hall
    rw [reread_array hall]
    refine ⟨⟨fun hne => hpos ?_, hwell⟩, ?_⟩
    · rintro rfl
      exact hne rfl
    · have hreads : ∀ x ∈ elements.map Json.reread, x.ReadsBack := fun x hx => ⟨_, hagain x hx⟩
      have hsame : ∀ x ∈ elements.map Json.reread, x.reread = x := by
        intro x hx
        rw [Json.reread, hagain x hx, Option.getD_some]
      rw [readBack_of_readsBack (readsBack_array_iff.mpr hreads), reread_array hreads,
        List.map_congr_left hsame, List.map_id']

theorem EntriesWellFormed.reread : ∀ {entries : List (CString × Json)} {levels : Nat},
    EntriesWellFormed levels entries → (∀ e ∈ entries, e.2.ReadsBack) →
    EntriesWellFormed levels (rereadEntries entries) ∧
      ∀ e ∈ rereadEntries entries, e.2.readBack = some e.2
  | [], _, _, _ => ⟨trivial, by rintro e ⟨⟩⟩
  | (_, _) :: _, _, ⟨hkey, hval, hentries⟩, hall => by
    obtain ⟨hhead, htail⟩ := List.forall_mem_cons.mp hall
    obtain ⟨hwell, hagain⟩ := hval.reread hhead
    obtain ⟨hwells, hagains⟩ := hentries.reread htail
    exact ⟨⟨hkey, hwell, hwells⟩, List.forall_mem_cons.mpr ⟨hagain, hagains⟩⟩

theorem ElementsWellFormed.reread : ∀ {elements : List Json} {levels : Nat},
    ElementsWellFormed levels elements → (∀ x ∈ elements, x.ReadsBack) →
    ElementsWellFormed levels (elements.map Json.reread) ∧
      ∀ x ∈ elements.map Json.reread, x.readBack = some x
  | [], _, _, _ => ⟨trivial, by rintro e ⟨⟩⟩
  | _ :: _, _, ⟨hval, helements⟩, hall => by
    obtain ⟨hhead, htail⟩ := List.forall_mem_cons.mp hall
    obtain ⟨hwell, hagain⟩ := hval.reread hhead
    obtain ⟨hwells, hagains⟩ := helements.reread htail
    exact ⟨⟨hwell, hwells⟩, List.forall_mem_cons.mpr ⟨hagain, hagains⟩⟩

end

end Json

/-- A well-formed value, printed and parsed: it is read back, or the parse fails where a number has
no text in JSON. -/
theorem parse_toJsonString_of_wellFormed {v : Json}
    (h : v.WellFormed (jsonTokenerMaxDepth - 1)) :
    match v.readBack with
    | some w => jsonTokenerParse v.toJsonString = .ok w
    | none => ∃ e, jsonTokenerParse v.toJsonString = .error e := by
  have hread := JsonTokener.reads_of_wellFormed v _ h .new [] rfl (by decide) (by decide)
  rw [List.append_nil] at hread
  cases hback : v.readBack with
  | none =>
    rw [hback] at hread
    exact hread
  | some w =>
    rw [hback] at hread
    obtain ⟨tok, hfinish, hrun⟩ := hread
    exact hrun.trans hfinish.run_nil

/-- **What the tokener has accepted, it accepts again once it is printed**, as the value
with every number to six decimals, and from then on unchanged.  Only a value with a number
that is not finite is rejected. -/
theorem jsonTokenerParse_stable {str : CString} {v : Json} (h : jsonTokenerParse str = .ok v) :
    match v.readBack with
    | some w => jsonTokenerParse v.toJsonString = .ok w ∧ jsonTokenerParse w.toJsonString = .ok w
    | none => ∃ e, jsonTokenerParse v.toJsonString = .error e := by
  have hwell := wellFormed_of_parse h
  have hparse := parse_toJsonString_of_wellFormed hwell
  cases hback : v.readBack with
  | none =>
    rw [hback] at hparse
    exact hparse
  | some w =>
    rw [hback] at hparse
    obtain ⟨hwell', hagain⟩ := hwell.reread ⟨w, hback⟩
    rw [Json.reread, hback, Option.getD_some] at hwell' hagain
    have hparse' := parse_toJsonString_of_wellFormed hwell'
    rw [hagain] at hparse'
    exact ⟨hparse, hparse'⟩

/-- An array with a comment in it. -/
theorem jsonTokenerParse_stable_array :
    jsonTokenerParse "[ true, \"a\\/b\" ]".toList =
        .ok (.array [.boolean true, .string "a/b".toList]) ∧
      jsonTokenerParse "[ true, \"a\\/b\" ]".toList =
        .ok (.array [.boolean true, .string "a/b".toList]) :=
  @jsonTokenerParse_stable "[TRUE/**/,'a/b']".toList
    (.array [.boolean true, .string "a/b".toList]) rfl

end StatsdC
