import StatsdC.JsonText
import StatsdC.Serialize

/-!
# The snapshot as a text

What the reader finds in the text that the writer printed: the sections as they were, every number
to six decimals, if all numbers are finite, and nothing otherwise (`hasSections_serialize_iff`).  So
the reader's result on a snapshot is known for every state of the tables
(`statsdDeserialize_serialize_iff`).

Between the two are the printer and the tokener, whose agreement is shown in `StatsdC.JsonText` for
values that can be printed.  A snapshot is one: the keys of each table are distinct, so that no
entry of an object replaces another, no name has a NUL in it, and the four sections have their
places in an object with three levels.  What is needed of the tables is thus `KeysUnique` and
`NulFree`, and nothing about where they came from.

The numbers of a snapshot are those that are written as a `double`: the counters and gauges, which
are converted first, and the samples of the timers, which are doubles.  The values of the stats are
written as integers and do not matter here.  If one of the numbers is an infinity or a NaN, the text
has a word in it that the tokener does not know, and the reader does not survive it.
-/

namespace StatsdC
open CString

namespace Json

/-! ## Objects and arrays read back -/

/-- A value with only finite numbers, which is read back from its text. -/
def ReadsBack (v : Json) : Prop := ∃ w, v.readBack = some w

/-- The value that a value with only finite numbers is read back as. -/
def reread (v : Json) : Json := v.readBack.getD null

theorem readBack_of_readsBack {v : Json} (h : v.ReadsBack) : v.readBack = some v.reread := by
  obtain ⟨w, hw⟩ := h
  rw [reread, hw]
  rfl

theorem readBack_of_not_readsBack {v : Json} (h : ¬ v.ReadsBack) : v.readBack = none := by
  cases hback : v.readBack with
  | none => rfl
  | some w => exact absurd ⟨w, hback⟩ h

/-- The entries with their values read back, in the same order and under the same keys. -/
def rereadEntries (entries : List (CString × Json)) : List (CString × Json) :=
  entries.map fun e => (e.1, e.2.reread)

theorem map_fst_rereadEntries (entries : List (CString × Json)) :
    (rereadEntries entries).map Prod.fst = entries.map Prod.fst := by
  rw [rereadEntries, List.map_map]
  rfl

theorem readBackEntries_eq_some_iff {acc entries r : List (CString × Json)} :
    readBackEntries acc entries = some r ↔
      (∀ e ∈ entries, e.2.ReadsBack) ∧ r = lhTableAddAll acc (rereadEntries entries) := by
  induction entries generalizing acc with
  | nil => simp [readBackEntries, rereadEntries, lhTableAddAll, eq_comm]
  | cons e entries ih =>
    obtain ⟨key, val⟩ := e
    by_cases hval : val.ReadsBack
    · have hback := readBack_of_readsBack hval
      simp only [readBackEntries, hback, ih, List.forall_mem_cons, hval, true_and]
      rfl
    · have hback := readBack_of_not_readsBack hval
      simp [readBackEntries, hback, hval]

theorem readBackElements_eq_some_iff {acc elements r : List Json} :
    readBackElements acc elements = some r ↔
      (∀ x ∈ elements, x.ReadsBack) ∧ r = acc ++ elements.map reread := by
  induction elements generalizing acc with
  | nil => simp [readBackElements, eq_comm]
  | cons x elements ih =>
    by_cases hx : x.ReadsBack
    · have hback := readBack_of_readsBack hx
      simp [readBackElements, hback, ih, hx]
    · have hback := readBack_of_not_readsBack hx
      simp [readBackElements, hback, hx]

/-- An object with unique keys keeps its entries. -/
theorem readBack_object_iff {entries : List (CString × Json)} {w : Json}
    (hnd : (entries.map Prod.fst).Nodup) :
    (object entries).readBack = some w ↔
      (∀ e ∈ entries, e.2.ReadsBack) ∧ w = object (rereadEntries entries) := by
  have hadd : lhTableAddAll [] (rereadEntries entries) = rereadEntries entries :=
    lhTableAddAll_of_nodup (by rwa [map_fst_rereadEntries])
  simp only [readBack, Option.map_eq_some_iff, readBackEntries_eq_some_iff, hadd]
  constructor
  · rintro ⟨r, ⟨hall, rfl⟩, rfl⟩
    exact ⟨hall, rfl⟩
  · rintro ⟨hall, rfl⟩
    exact ⟨_, ⟨hall, rfl⟩, rfl⟩

theorem readsBack_array_iff {elements : List Json} :
    (array elements).ReadsBack ↔ ∀ x ∈ elements, x.ReadsBack := by
  simp only [ReadsBack, readBack, Option.map_eq_some_iff, readBackElements_eq_some_iff]
  constructor
  · rintro ⟨w, r, ⟨hall, -⟩, -⟩
    exact hall
  · intro hall
    exact ⟨_, _, ⟨hall, rfl⟩, rfl⟩

theorem reread_array {elements : List Json} (h : ∀ x ∈ elements, x.ReadsBack) :
    (array elements).reread = array (elements.map reread) := by
  have hback : readBackElements [] elements = some (elements.map reread) :=
    readBackElements_eq_some_iff.mpr ⟨h, rfl⟩
  rw [reread, readBack, hback]
  rfl

/-- A finite number is read back to six decimals, as a `double` again. -/
theorem readBack_double {d : Num} (h : d.IsFinite) :
    (double d).readBack = some (double d.toSix) := by
  cases d with
  | fin q => rfl
  | negZero => rfl
  | inf neg => exact h.elim
  | nan => exact h.elim

theorem readsBack_double_iff {d : Num} : (double d).ReadsBack ↔ d.IsFinite := by
  cases d with
  | fin q => exact iff_of_true ⟨_, rfl⟩ trivial
  | negZero => exact iff_of_true ⟨_, rfl⟩ trivial
  | inf neg => exact iff_of_false (by rintro ⟨w, ⟨⟩⟩) id
  | nan => exact iff_of_false (by rintro ⟨w, ⟨⟩⟩) id

/-! ## What fits -/

theorem entriesFit_iff {levels : Nat} {entries : List (CString × Json)} :
    EntriesFit levels entries ↔ ∀ e ∈ entries, nul ∉ e.1 ∧ Fits levels e.2 := by
  induction entries with
  | nil => simp [EntriesFit]
  | cons e entries ih => simp [EntriesFit, ih, and_assoc]

theorem elementsFit_iff {levels : Nat} {elements : List Json} :
    ElementsFit levels elements ↔ ∀ x ∈ elements, Fits levels x := by
  induction elements with
  | nil => simp [ElementsFit]
  | cons x elements ih => simp [ElementsFit, ih]

theorem nul_notMem_escape {c : Char} (h : c ≠ nul) : nul ∉ escape c := by
  unfold escape
  split
  any_goals decide
  split
  · rename_i hlt
    have hdigits : ∀ n < 32, nul ∉ ['\\', 'u', '0', '0', Nat.digitChar (n / 16),
        Nat.digitChar (n % 16)] := by decide
    exact hdigits _ hlt
  · simpa using h.symm

theorem nul_notMem_escapeStr {s : CString} (h : nul ∉ s) : nul ∉ escapeStr s := by
  intro hmem
  obtain ⟨c, hc, hmem⟩ := List.mem_flatMap.mp hmem
  refine nul_notMem_escape ?_ hmem
  rintro rfl
  exact h hc

theorem isDigit_nul : nul.isDigit = false := by decide

theorem nul_notMem_printNat (n : Nat) : nul ∉ Decimal.printNat n := by
  intro h
  have hdigit := Decimal.isDigit_of_mem_printNat h
  rw [isDigit_nul] at hdigit
  cases hdigit

theorem nul_notMem_printFixed (places n : Nat) : nul ∉ Decimal.printFixed places n := by
  intro h
  rcases List.mem_append.mp h with h | h
  · exact nul_notMem_printNat _ h
  · rcases List.mem_cons.mp h with h | h
    · exact absurd h (by decide)
    · have hdigit := Decimal.isDigit_of_mem_leftpad h
      rw [isDigit_nul] at hdigit
      cases hdigit

theorem nul_notMem_printLf (d : Num) : nul ∉ printLf d := by
  cases d with
  | fin q =>
    have hfixed := nul_notMem_printFixed 6 (Decimal.roundHalfEven (|q| * 10 ^ 6)).toNat
    have hminus : nul ≠ '-' := by decide
    unfold printLf
    by_cases hneg : q < 0
    · simp [hneg, hfixed, hminus]
    · simp [hneg, hfixed]
  | negZero =>
    have hminus : nul ≠ '-' := by decide
    simp [printLf, nul_notMem_printFixed 6 0, hminus]
  | inf neg => cases neg <;> decide
  | nan => decide

theorem nul_notMem_printD (z : Int) : nul ∉ printD z := by
  have hnat := nul_notMem_printNat z.natAbs
  have hminus : nul ≠ '-' := by decide
  unfold printD Decimal.printInt
  by_cases hneg : z < 0
  · simp [hneg, hnat, hminus]
  · simp [hneg, hnat]

mutual

/-- A printed text has no NUL, because the strings in the value have none. -/
theorem nul_notMem_toJsonString : ∀ (v : Json) (levels : Nat), v.Fits levels →
    nul ∉ v.toJsonString
  | .null, _, _ => by decide
  | .boolean true, _, _ => by decide
  | .boolean false, _, _ => by decide
  | .double d, _, _ => nul_notMem_printLf d
  | .int i, _, _ => nul_notMem_printD i
  | .string s, _, hs => by
    have hescape := nul_notMem_escapeStr hs
    have hquote : nul ≠ '"' := by decide
    simp [toJsonString, hescape, hquote]
  | .object entries, levels, ⟨_, hentries⟩ => by
    have hbrace : nul ≠ '{' := by decide
    have hend : nul ∉ " \x7d".toList := by decide
    have hrec := nul_notMem_entriesToJsonString entries (levels - 1) hentries true
    simp only [toJsonString, List.mem_cons, List.mem_append, hbrace, hrec, hend, or_self,
      not_false_eq_true]
  | .array elements, levels, ⟨_, helements⟩ => by
    have hbracket : nul ≠ '[' := by decide
    have hend : nul ∉ " ]".toList := by decide
    have hrec := nul_notMem_elementsToJsonString elements (levels - 1) helements true
    simp only [toJsonString, List.mem_cons, List.mem_append, hbracket, hrec, hend, or_self,
      not_false_eq_true]

theorem nul_notMem_entriesToJsonString : ∀ (entries : List (CString × Json)) (levels : Nat),
    EntriesFit levels entries → ∀ first, nul ∉ entriesToJsonString first entries
  | [], _, _ => fun _ => List.not_mem_nil
  | (key, val) :: entries, levels, ⟨hkey, hval, hentries⟩ => fun first => by
    have hcomma : nul ∉ (if first then [] else [',']) := by cases first <;> decide
    have hopen : nul ∉ " \"".toList := by decide
    have hclose : nul ∉ "\": ".toList := by decide
    have hrec := nul_notMem_entriesToJsonString entries levels hentries false
    have hstr := nul_notMem_toJsonString val levels hval
    simp only [entriesToJsonString, List.mem_append, hcomma, hopen, hclose, hrec, hstr,
      nul_notMem_escapeStr hkey, or_self, not_false_eq_true]

theorem nul_notMem_elementsToJsonString : ∀ (elements : List Json) (levels : Nat),
    ElementsFit levels elements → ∀ first, nul ∉ elementsToJsonString first elements
  | [], _, _ => fun _ => List.not_mem_nil
  | val :: elements, levels, ⟨hval, helements⟩ => fun first => by
    have hcomma : nul ∉ (if first then [' '] else ", ".toList) := by cases first <;> decide
    have hrec := nul_notMem_elementsToJsonString elements levels helements false
    have hstr := nul_notMem_toJsonString val levels hval
    simp only [elementsToJsonString, List.mem_append, hcomma, hrec, hstr, or_self,
      not_false_eq_true]

end

end Json

/-! ## The sections of a snapshot -/

/-- The entries that a loop over a table puts in an object, where a key that comes twice counts
once. -/
def tableEntries {ε : Type} (key : ε → CString) (val : ε → Json) (table : List ε) :
    List (CString × Json) :=
  lhTableAddAll [] (table.map fun s => (key s, val s))

section TableEntries
variable {ε : Type} {key : ε → CString} {val : ε → Json} {table : List ε}

theorem tableObject_eq : tableObject key val table = .object (tableEntries key val table) := by
  suffices h : ∀ acc,
      table.foldl (fun (obj : Json) s => obj.objectAdd (key s) (val s)) (.object acc) =
        .object (lhTableAddAll acc (table.map fun s => (key s, val s))) from h []
  induction table with
  | nil => exact fun acc => rfl
  | cons s table ih => exact fun acc => ih (lhTableAdd acc (key s) (val s))

theorem nodup_tableEntries : ((tableEntries key val table).map Prod.fst).Nodup :=
  nodup_lhTableAddAll List.nodup_nil

theorem mem_tableEntries {e : CString × Json} (h : e ∈ tableEntries key val table) :
    ∃ s ∈ table, e = (key s, val s) := by
  rcases mem_lhTableAddAll h with h | h
  · cases h
  · obtain ⟨s, hs, rfl⟩ := List.mem_map.mp h
    exact ⟨s, hs, rfl⟩

theorem mem_map_fst_tableEntries {k : CString} :
    k ∈ (tableEntries key val table).map Prod.fst ↔ ∃ s ∈ table, key s = k := by
  rw [tableEntries, mem_map_fst_lhTableAddAll]
  simp

/-- A table with unique keys is printed as it is. -/
theorem tableEntries_of_nodup (h : (table.map key).Nodup) :
    tableEntries key val table = table.map fun s => (key s, val s) := by
  rw [tableEntries, lhTableAddAll_of_nodup, List.nil_append]
  rw [List.map_nil, List.nil_append, List.map_map]
  exact h

end TableEntries

/-- The sections that are printed, each from its table. -/
def printedSections (t : Tables Num) : Sections where
  stats := tableEntries (fun s => s.name.tmpkey) (fun s => .int (intOfLong s.value)) t.stats
  timers := tableEntries StatsdTimer.key (fun s => .array (s.values.map .double)) t.timers
  gauges := tableEntries StatsdGauge.key (fun g => .double g.value.toDouble) t.gauges
  counters := tableEntries StatsdCounter.key (fun s => .double s.value.toDouble) t.counters

namespace Sections

/-- The object with these sections, in the order in which they are written. -/
def toObject (s : Sections) : Json :=
  .object [("stats".toList, .object s.stats), ("timers".toList, .object s.timers),
    ("gauges".toList, .object s.gauges), ("counters".toList, .object s.counters)]

/-- Sections with only finite numbers, so that the text is JSON. -/
structure ReadBack (s : Sections) : Prop where
  stats : ∀ e ∈ s.stats, e.2.ReadsBack
  timers : ∀ e ∈ s.timers, e.2.ReadsBack
  gauges : ∀ e ∈ s.gauges, e.2.ReadsBack
  counters : ∀ e ∈ s.counters, e.2.ReadsBack

/-- The sections with their values read back. -/
def reread (s : Sections) : Sections :=
  ⟨Json.rereadEntries s.stats, Json.rereadEntries s.timers, Json.rereadEntries s.gauges,
    Json.rereadEntries s.counters⟩

/-- Sections in which no key is there twice, as objects are. -/
structure UniqueKeys (s : Sections) : Prop where
  stats : (s.stats.map Prod.fst).Nodup
  timers : (s.timers.map Prod.fst).Nodup
  gauges : (s.gauges.map Prod.fst).Nodup
  counters : (s.counters.map Prod.fst).Nodup

theorem readBack_toObject_iff {s : Sections} {w : Json} (h : s.UniqueKeys) :
    s.toObject.readBack = some w ↔ s.ReadBack ∧ w = s.reread.toObject := by
  have hobject : ∀ entries : List (CString × Json), (entries.map Prod.fst).Nodup →
      ((Json.object entries).ReadsBack ↔ ∀ e ∈ entries, e.2.ReadsBack) ∧
      ((∀ e ∈ entries, e.2.ReadsBack) →
        (Json.object entries).reread = .object (Json.rereadEntries entries)) := by
    intro entries hnd
    refine ⟨?_, fun hall => ?_⟩
    · simp only [Json.ReadsBack, Json.readBack_object_iff hnd, exists_and_left, exists_eq, and_true]
    · rw [Json.reread, (Json.readBack_object_iff hnd).mpr ⟨hall, rfl⟩, Option.getD_some]
  obtain ⟨hstats, hstats'⟩ := hobject _ h.stats
  obtain ⟨htimers, htimers'⟩ := hobject _ h.timers
  obtain ⟨hgauges, hgauges'⟩ := hobject _ h.gauges
  obtain ⟨hcounters, hcounters'⟩ := hobject _ h.counters
  have hnd : (List.map Prod.fst [("stats".toList, Json.object s.stats),
      ("timers".toList, .object s.timers), ("gauges".toList, .object s.gauges),
      ("counters".toList, .object s.counters)]).Nodup :=
    (by decide :
      ["stats".toList, "timers".toList, "gauges".toList, "counters".toList].Nodup)
  rw [toObject, Json.readBack_object_iff hnd]
  simp only [List.forall_mem_cons, hstats, htimers, hgauges, hcounters, List.not_mem_nil,
    false_implies, implies_true, and_true, Json.rereadEntries, List.map_cons, List.map_nil]
  constructor
  · rintro ⟨⟨h₁, h₂, h₃, h₄⟩, rfl⟩
    refine ⟨⟨h₁, h₂, h₃, h₄⟩, ?_⟩
    rw [hstats' h₁, htimers' h₂, hgauges' h₃, hcounters' h₄]
    rfl
  · rintro ⟨⟨h₁, h₂, h₃, h₄⟩, rfl⟩
    refine ⟨⟨h₁, h₂, h₃, h₄⟩, ?_⟩
    rw [hstats' h₁, htimers' h₂, hgauges' h₃, hcounters' h₄]
    rfl

/-- The sections of an object are those it was made of. -/
theorem toObject_get (s : Sections) :
    s.toObject.objectGet "stats".toList = .ok (.object s.stats) ∧
      s.toObject.objectGet "timers".toList = .ok (.object s.timers) ∧
      s.toObject.objectGet "gauges".toList = .ok (.object s.gauges) ∧
      s.toObject.objectGet "counters".toList = .ok (.object s.counters) :=
  ⟨rfl, rfl, rfl, rfl⟩

end Sections

theorem printedSections_uniqueKeys (t : Tables Num) : (printedSections t).UniqueKeys :=
  ⟨nodup_tableEntries, nodup_tableEntries, nodup_tableEntries, nodup_tableEntries⟩

theorem snapshotObject_eq (t : Tables Num) : snapshotObject t = (printedSections t).toObject := by
  simp only [snapshotObject, tableObject_eq]
  rfl

/-- Tables whose keys are C strings, so that no text ends at one of them. -/
structure NulFree (t : Tables Num) : Prop where
  stats : ∀ s ∈ t.stats, nul ∉ s.name.tmpkey
  timers : ∀ s ∈ t.timers, nul ∉ s.key
  gauges : ∀ g ∈ t.gauges, nul ∉ g.key
  counters : ∀ c ∈ t.counters, nul ∉ c.key

theorem intOfLong_bounds (z : Int) : -2 ^ 31 ≤ intOfLong z ∧ intOfLong z < 2 ^ 31 := by
  have hlo := Int.le_bmod (x := z) (m := 2 ^ 32) (by decide)
  have hhi := Int.bmod_lt (x := z) (m := 2 ^ 32) (by decide)
  unfold intOfLong
  omega

/-- A snapshot is three levels deep: the object, its sections, and the arrays of the timers. -/
theorem snapshotObject_fits {t : Tables Num} (h : NulFree t) : (snapshotObject t).Fits 3 := by
  have hobject : ∀ {ε : Type} (key : ε → CString) (val : ε → Json) (table : List ε),
      (∀ s ∈ table, nul ∉ key s) → (∀ s ∈ table, (val s).Fits 1) →
      (Json.object (tableEntries key val table)).Fits 2 := by
    intro ε key val table hkey hval
    refine ⟨by decide, Json.entriesFit_iff.mpr fun e he => ?_⟩
    obtain ⟨s, hs, rfl⟩ := mem_tableEntries he
    exact ⟨hkey s hs, hval s hs⟩
  rw [snapshotObject_eq]
  refine ⟨by decide, Json.entriesFit_iff.mpr ?_⟩
  simp only [List.forall_mem_cons, List.not_mem_nil, false_implies, implies_true, and_true]
  refine ⟨⟨by decide, ?_⟩, ⟨by decide, ?_⟩, ⟨by decide, ?_⟩, ⟨by decide, ?_⟩⟩
  · exact hobject _ _ _ h.stats fun s _ => intOfLong_bounds s.value
  · refine hobject _ _ _ h.timers fun s _ => ⟨by decide, Json.elementsFit_iff.mpr fun x hx => ?_⟩
    obtain ⟨d, -, rfl⟩ := List.mem_map.mp hx
    trivial
  · exact hobject _ _ _ h.gauges fun g _ => trivial
  · exact hobject _ _ _ h.counters fun c _ => trivial

/-! ## Reading a snapshot -/

/-- A file without a NUL is its own text. -/
theorem fileText_eq {file : List Char} (h : nul ∉ file) : fileText file = file := by
  have hstring : StringAt (file ++ List.replicate 20 nul) 0 file (List.replicate 19 nul) :=
    ⟨by rw [List.drop_zero, List.replicate_succ], h⟩
  exact hstring.cstr_eq

/-- A snapshot is long enough to be read: more than the ten bytes that the loader asks for. -/
theorem length_snapshotText (t : Tables Num) : ¬ (snapshotText t).length < 10 := by
  rw [snapshotText, snapshotObject_eq, Sections.toObject, Json.toJsonString,
    Json.entriesToJsonString]
  have hopen : " \"".toList.length = 2 := by decide
  have hkey : (Json.escapeStr "stats".toList).length = 5 := by decide
  have hcolon : "\": ".toList.length = 3 := by decide
  simp only [if_true, List.nil_append, List.length_cons, List.length_append, hopen, hkey, hcolon]
  have hend : " \x7d".toList.length = 2 := by decide
  omega

/-- **What is in a snapshot**: the sections that were printed, every number to six
decimals, provided all of them are finite. -/
theorem hasSections_serialize_iff {t : Tables Num} (h : NulFree t) {s : Sections} :
    HasSections (fileText (snapshotText t)) s ↔
      (printedSections t).ReadBack ∧ s = (printedSections t).reread := by
  have hfits := snapshotObject_fits h
  have hparse := jsonTokenerParse_toJsonString hfits (by decide)
  have hback := fun w => Sections.readBack_toObject_iff (w := w) (printedSections_uniqueKeys t)
  rw [snapshotText, fileText_eq (Json.nul_notMem_toJsonString _ 3 hfits)]
  rw [← snapshotObject_eq] at hback
  cases hread : (snapshotObject t).readBack with
  | none =>
    rw [hread] at hparse
    obtain ⟨e, he⟩ := hparse
    refine iff_of_false ?_ ?_
    · rintro ⟨obj, hobj, -⟩
      rw [he] at hobj
      cases hobj
    · rintro ⟨hfinite, -⟩
      have hsome := (hback _).mpr ⟨hfinite, rfl⟩
      rw [hread] at hsome
      cases hsome
  | some w =>
    rw [hread] at hparse
    obtain ⟨hfinite, rfl⟩ := (hback w).mp hread
    simp only at hparse
    have hget := (printedSections t).reread.toObject_get
    constructor
    · rintro ⟨obj, hobj, hstats, htimers, hgauges, hcounters⟩
      obtain rfl := Except.ok.inj (hparse.symm.trans hobj)
      refine ⟨hfinite, ?_⟩
      obtain ⟨h₁, h₂, h₃, h₄⟩ := hget
      cases s with
      | mk stats timers gauges counters =>
        have hs₁ := Json.object.inj (Except.ok.inj (hstats.symm.trans h₁))
        have hs₂ := Json.object.inj (Except.ok.inj (htimers.symm.trans h₂))
        have hs₃ := Json.object.inj (Except.ok.inj (hgauges.symm.trans h₃))
        have hs₄ := Json.object.inj (Except.ok.inj (hcounters.symm.trans h₄))
        simp only at hs₁ hs₂ hs₃ hs₄
        rw [hs₁, hs₂, hs₃, hs₄]
    · rintro ⟨-, rfl⟩
      exact ⟨_, hparse, hget⟩

/-- **The reader on a snapshot**, for every state of the tables. -/
theorem statsdDeserialize_serialize_iff {t t' : Tables Num} (h : NulFree t) {r : Nat} :
    statsdDeserialize .empty (snapshotText t) = .ok (r, t') ↔
      (printedSections t).ReadBack ∧ (printedSections t).reread.Loadable ∧
        r = 1 ∧ t' = (printedSections t).reread.tables := by
  rw [statsdDeserialize_eq_ok_iff, if_neg (length_snapshotText t)]
  simp only [hasSections_serialize_iff h]
  constructor
  · rintro ⟨s, ⟨hback, rfl⟩, hload, hr, ht⟩
    exact ⟨hback, hload, hr, ht⟩
  · rintro ⟨hback, hload, hr, ht⟩
    exact ⟨_, ⟨hback, rfl⟩, hload, hr, ht⟩

end StatsdC
