import StatsdC.Daemon

/-!
# The count of a timer

`count` is kept beside the array of samples, and every function that changes one has to change the
other.  In every state that can be reached it is the number of samples in the array
(`reachable_timersCounted`): an update adds to both, a pass clears both, and the reader of a
snapshot takes the count from the length of the array it reads.

The proof is an induction over the runs of `StatsdC.Daemon`.  What any property of timers needs is
said first (`TimersAll`): it has to allow a new sample (`TakesSample`) and the cleared entry of a
pass, with one rule for each function that touches the timers.  The functions that do not, such as
the updates of a stat or a counter, leave the property alone because they leave the table alone
(`TimersAll.of_timers_eq`).  Entries are only changed through the pointer of a lookup or appended,
and what holds of every entry before such a change holds afterwards (`forall_mem_modify`).

The percentile index is computed from the count, and the loops of a pass run up to it, so the
invariant is what keeps them inside the array.  It is used for the arithmetic of a pass, for the
listing of the timers, and wherever a timer that is read from a file is compared with the one that
was written.
-/

namespace StatsdC
open OrderedTable Fallible

/-- What holds of an entry before and after an update holds in the table. -/
theorem forall_mem_modify {ε : Type} {p : ε → Prop} {table : List ε} {i : Nat} {g : ε → ε}
    (h : ∀ e ∈ table, p e) (hg : ∀ e, p e → p (g e)) : ∀ e ∈ table.modify i g, p e := by
  intro e he
  obtain ⟨j, hj⟩ := List.mem_iff_getElem?.mp he
  rw [List.getElem?_modify, Option.map_eq_map, Option.map_eq_some_iff] at hj
  obtain ⟨e', he', heq⟩ := hj
  have hmem := h e' (List.mem_of_getElem? he')
  rw [← heq]
  split
  · exact hg e' hmem
  · exact hmem

/-! ## What holds of every timer -/

/-- Every timer has the property. -/
def TimersAll {α : Type} (P : StatsdTimer α → Prop) (t : Tables α) : Prop := ∀ s ∈ t.timers, P s

/-- A sample that the property allows, in an entry that is there and in a new one. -/
structure TakesSample {α : Type} (P : StatsdTimer α → Prop) (value : α) : Prop where
  change : ∀ s, P s → P { s with values := s.values ++ [value], count := s.count + 1 }
  fresh : ∀ key, P ⟨key, 1, [value]⟩

namespace TimersAll
variable {α : Type} {P : StatsdTimer α → Prop} {t t' : Tables α}

theorem empty : TimersAll P .empty := nofun

theorem of_timers_eq (h : TimersAll P t) (heq : t'.timers = t.timers) : TimersAll P t' := by
  intro s hs
  rw [heq] at hs
  exact h s hs

theorem updateTimer (h : TimersAll P t) {key : CString} {value : α} (hvalue : TakesSample P value)
    (hok : StatsdC.updateTimer t key value = .ok t') : TimersAll P t' := by
  obtain ⟨i, -, rfl⟩ | ⟨-, -, rfl⟩ := updateTimer_cases hok
  · exact forall_mem_modify h hvalue.change
  · exact List.forall_mem_append.mpr ⟨h, List.forall_mem_singleton.mpr (hvalue.fresh key)⟩

theorem metricCall [Add α] [Sub α] [Mul α] [Div α] [Zero α] [One α] [BEq α]
    (h : TimersAll P t) {call : MetricCall α}
    (hcall : ∀ key value, call = .updateTimer key value → TakesSample P value)
    (hok : call.apply t = .ok t') : TimersAll P t' := by
  cases call with
  | updateCounter key value sampleRate =>
    cases key with
    | none => cases hok
    | some key =>
      obtain ⟨counters, rfl, _⟩ := updateCounter_keys hok
      exact h.of_timers_eq rfl
  | updateTimer key value =>
    cases key with
    | none => cases hok
    | some key => exact h.updateTimer (hcall _ _ rfl) hok
  | updateGaugePlusminus key value plusminus =>
    cases key with
    | none => cases hok
    | some key =>
      obtain ⟨gauges, rfl, _⟩ := updateGaugePlusminus_keys hok
      exact h.of_timers_eq rfl

theorem applyMetricCalls [Add α] [Sub α] [Mul α] [Div α] [Zero α] [One α] [BEq α]
    (h : TimersAll P t) {calls : List (MetricCall α)}
    (hcalls : ∀ key value, .updateTimer key value ∈ calls → TakesSample P value)
    (hok : StatsdC.applyMetricCalls t calls = .ok t') : TimersAll P t' :=
  foldlM_invariant (fun _ _ _ hmem ht hstep =>
    ht.metricCall (fun key value heq => hcalls key value (heq ▸ hmem)) hstep) h hok

theorem updateStat (h : TimersAll P t) {group key value : CString}
    (hok : StatsdC.updateStat t group key value = .ok t') : TimersAll P t' := by
  obtain ⟨_, -, rfl⟩ | ⟨-, rfl⟩ := updateStat_cases hok
  · exact h.of_timers_eq rfl
  · exact h.of_timers_eq rfl

theorem initStats {t t' : Tables Num} {P : StatsdTimer Num → Prop} (h : TimersAll P t) {now : Int}
    (hok : StatsdC.initStats t now = .ok t') : TimersAll P t' := by
  simp only [StatsdC.initStats, bind_eq_ok] at hok
  obtain ⟨t₁, h₁, t₂, h₂, h₃⟩ := hok
  exact ((h.updateStat h₁).updateStat h₂).updateStat h₃

section Flush
variable [Add α] [Div α] [Zero α] [NatCast α] [IntCast α] [LT α] [DecidableLT α] [BEq α]
variable {firstByte : α → Int} {cfg : FlushConfig}

/-- A pass leaves a timer as it is, or clears it. -/
theorem flushTimers (hclear : ∀ s, P s → P { s with values := [], count := 0 }) {ts : Int}
    {timers : List (StatsdTimer α)} (h : ∀ s ∈ timers, P s)
    {r : List (StatsdTimer α) × Report α}
    (hok : StatsdC.flushTimers firstByte cfg ts timers = .ok r) : ∀ s ∈ r.1, P s := by
  induction timers generalizing r with
  | nil =>
    obtain rfl := Except.ok.inj hok
    exact nofun
  | cons s timers ih =>
    obtain ⟨first, rest, hfirst, hrest, rfl⟩ := flushTimers_cons_eq_ok hok
    obtain ⟨hhead, htail⟩ := List.forall_mem_cons.mp h
    refine List.forall_mem_cons.mpr ⟨?_, ih htail hrest⟩
    unfold flushTimer at hfirst
    split at hfirst
    · split at hfirst
      · cases hfirst
      · obtain rfl := Except.ok.inj hfirst
        exact hclear s hhead
    · obtain rfl := Except.ok.inj hfirst
      exact hhead

theorem flushPass (hclear : ∀ s, P s → P { s with values := [], count := 0 }) {env : FlushEnv}
    {r : Tables α × Report α} (h : TimersAll P t)
    (hok : StatsdC.flushPass firstByte cfg env t = .ok r) : TimersAll P r.1 := by
  obtain ⟨timers, htimers, _, hr⟩ := flushPass_eq_ok hok
  have hflushed : TimersAll P (flushedTables cfg env.ts t timers.1) :=
    flushTimers hclear h htimers
  rcases hr with heq | hstat
  · rw [heq]
    exact hflushed
  · exact hflushed.updateStat hstat

end Flush

end TimersAll

/-! ## The counts -/

/-- Every count is the number of samples.  The two are changed at different places of the program,
and by the reader of a snapshot too. -/
def TimersCounted {α : Type} (t : Tables α) : Prop := ∀ s ∈ t.timers, s.count = s.values.length

theorem takesSample_counted {α : Type} (value : α) :
    TakesSample (fun s => s.count = s.values.length) value where
  change s hs := by rw [hs, List.length_append, List.length_singleton]
  fresh _ := rfl

namespace TimersCounted

/-- What is read from a file is counted, whatever tables it is appended to. -/
theorem deserialize {t' : Tables Num} {file : List Char} {r : Nat}
    (hok : statsdDeserialize .empty file = .ok (r, t')) : TimersCounted t' := by
  rw [statsdDeserialize_eq_ok_iff] at hok
  split at hok
  · rw [hok.2]
    exact TimersAll.empty
  · obtain ⟨sections, _, _, _, rfl⟩ := hok
    intro s hs
    obtain ⟨e, _, rfl⟩ := List.mem_map.mp hs
    exact (List.length_map _).symm

/-- One event keeps the counts, be it a packet, a pass or a restart. -/
theorem step {firstByte : Num → Int} {t t' : Tables Num} {e : DaemonEvent} (h : TimersCounted t)
    (hstep : e.apply firstByte t = .ok t') : TimersCounted t' := by
  rcases DaemonEvent.apply_cases hstep with ⟨calls, t₁, _, happly, hseen⟩ |
    ⟨cfg, env, report, hpass⟩ | ⟨t₁, now, hread, hinit⟩
  · have h₁ := TimersAll.applyMetricCalls h (fun _ value _ => takesSample_counted value) happly
    rcases hseen with rfl | ⟨now, hok⟩
    · exact h₁
    · exact h₁.updateStat hok
  · exact TimersAll.flushPass (fun _ _ => rfl) h hpass
  · rcases hread with rfl | ⟨r, hok⟩
    · exact TimersAll.empty.initStats hinit
    · exact TimersAll.initStats (deserialize hok) hinit

end TimersCounted

/-- **The counts of the timers**, in every state of every run, are the numbers of their samples. -/
theorem reachable_timersCounted {firstByte : Num → Int} {t : Tables Num}
    (h : (daemon firstByte).Reachable t) : TimersCounted t := by
  refine h.invariant (I := TimersCounted) (fun t hinit => ?_) fun _ _ _ ht hstep => ht.step hstep
  obtain ⟨now, hok⟩ := hinit
  exact TimersAll.empty.initStats hok

end StatsdC
