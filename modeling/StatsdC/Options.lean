import StatsdC.Flush
import StatsdC.Lib.CString
import StatsdC.Lib.Fallible
import StatsdC.Numbers

/-!
# The options

The two options of `main` that a pass depends on, `-T` and `-F`.  The loop of `-T` does not go on
with the string that `strtok` works on but starts over at its beginning: it finds its first field
again and again, until it writes behind the array (`percentileLoop_outOfBounds`).  So it only ends
on an argument without a field (`parsesPercentiles_iff`), and a daemon that has started at all
reports 90 percent (`mainOptions_percentile`).

What one would want is said by `ParsesPercentiles`: the loop ends, and the array has the fields of
the argument as numbers, in their order.  The loop is followed on the buffer that `strtok` writes
to, since it is the NUL behind the first field that makes the loop find that field again and nothing
else.  Five thresholds have room in the array; the sixth round writes behind it, and this is the
fault the model has.  Whether the program survives such a write is not a question the model can
answer.

`-F` takes any integer, zero and negative ones included, as `atoi` reads it; what comes of that is
in `StatsdC.FlushArithmetic`.  The other options set what they are told to set and are fields of the
configurations; the order in which `getopt` finds them does not matter to these two.
-/

namespace StatsdC
open CString Fallible

/-- `atoi`, as the conversion of what `strtol` reads to an `int`. -/
def atoi (s : CString) : Int := intOfLong (atol s)

/-- `percentiles`, `num_percentiles` and `flush_interval`.  The array has five places. -/
structure DaemonOptions where
  percentiles : Vector Int 5
  numPercentiles : Nat
  flushInterval : Int

/-- At the start of the process, with no percentile and an interval of ten seconds. -/
def DaemonOptions.start : DaemonOptions := ⟨.replicate 5 0, 0, 10⟩

inductive OptionFault where
  /-- A write behind `percentiles[4]`. -/
  | outOfBounds
  /-- More rounds than were asked for. -/
  | endless
  deriving DecidableEq

/-- `percentiles[num_percentiles] = value`, and the increment that follows.  The sixth one is
outside the array. -/
def DaemonOptions.storePercentile (o : DaemonOptions) (value : Int) :
    Except OptionFault DaemonOptions :=
  if h : o.numPercentiles < 5 then
    .ok { o with
      percentiles := o.percentiles.set o.numPercentiles value
      numPercentiles := o.numPercentiles + 1 }
  else
    .error .outOfBounds

/-- The loop of `-T` over the tokens that `strtok` returns.  Each round starts over with the whole
argument. -/
def percentileLoop : Nat → DaemonOptions → Strtok → Except OptionFault DaemonOptions
  | _, o, ⟨none, _, _⟩ => .ok o
  | 0, _, ⟨some _, _, _⟩ => .error .endless
  | fuel + 1, o, ⟨some pch, _, pRaw⟩ => do
    let o ← o.storePercentile (atoi (cstr pRaw pch))
    -- `p_raw` again, not `NULL`
    percentileLoop fuel o (strtokR pRaw 0 ',')

/-- `case 'T'`: a copy of the argument is split at commas. -/
def optionT (fuel : Nat) (o : DaemonOptions) (optarg : CString) :
    Except OptionFault DaemonOptions :=
  let pRaw := optarg ++ [nul]
  percentileLoop fuel o (strtokR pRaw 0 ',')

/-- `case 'F'`: the interval, which no test checks. -/
def optionF (o : DaemonOptions) (optarg : CString) : DaemonOptions :=
  { o with flushInterval := atoi optarg }

/-- An option with its argument.  The other options do not touch these fields. -/
inductive MainOption where
  | T (optarg : CString)
  | F (optarg : CString)

/-- The argument is a C string. -/
def MainOption.WellFormed : MainOption → Prop
  | T optarg | F optarg => nul ∉ optarg

/-- The `switch` on an option, of which two change these fields. -/
def mainOption (fuel : Nat) (o : DaemonOptions) : MainOption → Except OptionFault DaemonOptions
  | .T optarg => optionT fuel o optarg
  | .F optarg => .ok (optionF o optarg)

/-- The default percentile, which is set where no `-T` has set one. -/
def DaemonOptions.defaultPercentile (o : DaemonOptions) : DaemonOptions :=
  if o.numPercentiles = 0 then
    { o with percentiles := o.percentiles.set 0 90, numPercentiles := 1 }
  else o

/-- The options of `main`, one after another, and then the default. -/
def mainOptions (fuel : Nat) (opts : List MainOption) : Except OptionFault DaemonOptions := do
  let o ← opts.foldlM (mainOption fuel) .start
  return o.defaultPercentile

/-! ## The loop -/

section Loop
variable {buf : Buffer} {o o' : DaemonOptions} {w t r rest : CString}

theorem comma_ne_nul : ',' ≠ nul := by decide

/-- A string with a token keeps the loop going until there is no room left. -/
theorem percentileLoop_outOfBounds (h : StringAt buf 0 w rest)
    (hw : nextToken ',' w = some (t, r)) {fuel : Nat} (hfuel : 5 - o.numPercentiles < fuel) :
    percentileLoop fuel o (strtokR buf 0 ',') = .error .outOfBounds := by
  induction fuel generalizing buf o w r rest with
  | zero => omega
  | succ fuel ih =>
    -- the next call finds the same token in what this one leaves
    obtain ⟨tok, save, buf', w', rest', heq, -, h', hw'⟩ := strtokR_restart comma_ne_nul h hw
    rw [heq]
    by_cases hroom : o.numPercentiles < 5
    · simp only [percentileLoop, DaemonOptions.storePercentile, dif_pos hroom]
      refine ih h' hw' ?_
      show 5 - (o.numPercentiles + 1) < fuel
      omega
    · simp only [percentileLoop, DaemonOptions.storePercentile, dif_neg hroom]
      rfl

/-- **The loop ends** only without a token; with one it runs until it leaves the array, or out of
fuel. -/
theorem percentileLoop_ne_ok (h : StringAt buf 0 w rest) (hw : nextToken ',' w = some (t, r))
    (fuel : Nat) : percentileLoop fuel o (strtokR buf 0 ',') ≠ .ok o' := by
  induction fuel generalizing buf o w r rest with
  | zero =>
    obtain ⟨tok, save, buf', w', rest', heq, -⟩ := strtokR_restart comma_ne_nul h hw
    rw [heq]
    exact nofun
  | succ fuel ih =>
    obtain ⟨tok, save, buf', w', rest', heq, -, h', hw'⟩ := strtokR_restart comma_ne_nul h hw
    intro hok
    rw [heq] at hok
    simp only [percentileLoop, bind_eq_ok] at hok
    obtain ⟨o₁, -, hrest⟩ := hok
    exact ih h' hw' hrest

end Loop

theorem stringAt_optarg {optarg : CString} (h : nul ∉ optarg) :
    StringAt (optarg ++ [nul]) 0 optarg [] := ⟨rfl, h⟩

/-- An argument that has no token is all commas, or empty. -/
theorem nextToken_eq_none_iff {d : Char} {w : CString} :
    nextToken d w = none ↔ ∀ c ∈ w, c = d := by
  constructor
  · exact nextToken_eq_none
  · intro hall
    have hdrop : w.dropWhile (· == d) = [] := List.dropWhile_eq_nil_iff.mpr (by simpa using hall)
    rw [nextToken, hdrop]

/-- `-T` ends on such an argument alone, and does nothing: the default stays to be set. -/
theorem optionT_eq_ok_iff {o o' : DaemonOptions} {optarg : CString} (h : nul ∉ optarg)
    (fuel : Nat) : optionT fuel o optarg = .ok o' ↔ (∀ c ∈ optarg, c = ',') ∧ o' = o := by
  rw [← nextToken_eq_none_iff]
  have hat := stringAt_optarg h
  cases hw : nextToken ',' optarg with
  | none =>
    rw [optionT, strtokR_none comma_ne_nul hat hw, percentileLoop]
    simp [eq_comm]
  | some tr =>
    simp only [reduceCtorEq, false_and, iff_false]
    exact percentileLoop_ne_ok hat hw fuel

/-! ## What the option promises -/

/-- `-T` ends without a write behind the array, and stores its fields in order, all of them
where there is room. -/
def ParsesPercentiles (o : DaemonOptions) (optarg : CString) : Prop :=
  ∃ fuel o', optionT fuel o optarg = .ok o' ∧
    o'.percentiles.toList.take o'.numPercentiles <+: (tokens ',' optarg).map atoi ∧
    ((tokens ',' optarg).length ≤ 5 → o'.numPercentiles = (tokens ',' optarg).length)

/-- **When `-T` keeps its promise**: on an argument without a field. -/
theorem parsesPercentiles_iff {o : DaemonOptions} {optarg : CString} (h : nul ∉ optarg)
    (hstart : o.numPercentiles = 0) :
    ParsesPercentiles o optarg ↔ ∀ c ∈ optarg, c = ',' := by
  constructor
  · intro ⟨fuel, o', hok, _⟩
    exact ((optionT_eq_ok_iff h fuel).mp hok).1
  · intro hall
    have hnone : tokens ',' optarg = [] := by
      rw [tokens_eq, nextToken_eq_none_iff.mpr hall]
    refine ⟨0, o, (optionT_eq_ok_iff h 0).mpr ⟨hall, rfl⟩, ?_, ?_⟩
    · rw [hstart, List.take_zero]
      exact List.nil_prefix
    · intro _
      rw [hstart, hnone]
      rfl

/-- An argument of two commas. -/
theorem parsesPercentiles_commas : ParsesPercentiles .start ",,".toList :=
  (parsesPercentiles_iff (by decide) rfl).mpr (by simp)

/-- The argument `90`. -/
theorem percentile_not_parsed : ¬ ParsesPercentiles .start "90".toList := by
  intro ⟨fuel, o', hok, _⟩
  have hall := ((optionT_eq_ok_iff (by decide) fuel).mp hok).1
  exact absurd (hall '9' (by decide)) (by decide)

/-! ## A daemon that has started -/

/-- Every `-T` is reached with an empty array, because none before it has come to its end with one
stored. -/
theorem mainOption_numPercentiles {fuel : Nat} {o o' : DaemonOptions} {opt : MainOption}
    (hopt : opt.WellFormed) (h : mainOption fuel o opt = .ok o') :
    o'.numPercentiles = o.numPercentiles := by
  cases opt with
  | T optarg =>
    have heq := ((optionT_eq_ok_iff hopt fuel).mp h).2
    rw [heq]
  | F optarg =>
    obtain rfl := Except.ok.inj h
    rfl

/-- **A daemon that has started** reports 90 percent, whatever its options. -/
theorem mainOptions_percentile {fuel : Nat} {opts : List MainOption} {o : DaemonOptions}
    (hopts : ∀ opt ∈ opts, opt.WellFormed) (h : mainOptions fuel opts = .ok o) :
    o.percentiles[0] = 90 ∧ o.numPercentiles = 1 := by
  obtain ⟨o', hloop, hdefault⟩ := bind_eq_ok.mp h
  have hnone : o'.numPercentiles = 0 := by
    refine foldlM_invariant (I := fun o => o.numPercentiles = 0) ?_ rfl hloop
    intro o opt o' hmem hzero hstep
    rw [mainOption_numPercentiles (hopts opt hmem) hstep, hzero]
  rw [← pure_eq_ok.mp hdefault, DaemonOptions.defaultPercentile, if_pos hnone]
  exact ⟨Vector.getElem_set_self .., rfl⟩

/-- The interval is ten seconds, or what an `-F` has set. -/
theorem mainOptions_flushInterval {fuel : Nat} {opts : List MainOption} {o : DaemonOptions}
    (hopts : ∀ opt ∈ opts, opt.WellFormed) (h : mainOptions fuel opts = .ok o) :
    o.flushInterval = 10 ∨ ∃ optarg, nul ∉ optarg ∧ o.flushInterval = atoi optarg := by
  obtain ⟨o', hloop, hdefault⟩ := bind_eq_ok.mp h
  have hset : o'.flushInterval = 10 ∨ ∃ optarg, nul ∉ optarg ∧ o'.flushInterval = atoi optarg := by
    refine foldlM_invariant (I := fun o => o.flushInterval = 10 ∨
      ∃ optarg, nul ∉ optarg ∧ o.flushInterval = atoi optarg) ?_ (.inl rfl) hloop
    intro o opt o' hmem hset hstep
    cases opt with
    | T optarg =>
      have heq := ((optionT_eq_ok_iff (hopts _ hmem) fuel).mp hstep).2
      rwa [heq]
    | F optarg =>
      obtain rfl := Except.ok.inj hstep
      exact .inr ⟨optarg, hopts _ hmem, rfl⟩
  rw [← pure_eq_ok.mp hdefault]
  unfold DaemonOptions.defaultPercentile
  split
  · exact hset
  · exact hset

end StatsdC
