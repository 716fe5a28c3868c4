import Mathlib.Algebra.Ring.Int.Defs
import StatsdC.PacketDecode

/-!
# Arbitrary packets

What `process_stats_packet` does with `charvalue` over a whole packet of arbitrary bytes.  Before
each segment the pointer is unset, freed, or holds the value of an earlier segment
(`Charvalue.Before`), so a segment whose calls are to be its own has to assign it.  Only the first
field of a segment assigns it, and a segment without a pipe has no field, so it needs both: a pipe,
and something that is not a pipe (`SetsCharvalue`).

A segment that assigns `charvalue` makes one call with its own value and leaves the pointer freed
or holding that value (`decodeSegment_sets`).  A segment that does not assign it either uses an
unset or freed pointer, which is a fault, or makes a call with a value that an earlier segment has
left (`decodeSegment_stale`).  These two lemmas are the step, and the induction over the segments
is `decodeSegments_safe_iff`.

`processStatsPacket_safe_iff` is the exact condition on the packet: it is processed without a
fault, each call with a key and a value of its own, if it is shorter than two bytes, or if there is
a key and every segment behind it assigns `charvalue`.  The packet `k:1` does not meet it
(`pipeless_segment_unsafe`), although it looks like a packet with a value.
-/

namespace StatsdC
open CString

/-- A call with a key, whose value was read from a text that its own segment assigned, or from no
text at all. -/
def TracedCall.Safe {α : Type} (c : TracedCall α) : Prop :=
  c.call.key ≠ none ∧ ∀ a, c.assigned = some a → a = c.iteration

/-- A segment that sets `charvalue`: it has a pipe, without which it has no fields, and something
that is not a pipe, which is its first field. -/
def SetsCharvalue (seg : CString) : Prop := '|' ∈ seg ∧ ∃ c ∈ seg, c ≠ '|'

/-- `charvalue` before iteration `i`: unset or freed, or a block that an earlier iteration has
assigned. -/
def Charvalue.Before (i : Nat) : Charvalue → Prop
  | .block _ a => a < i
  | .unset | .freed => True

theorem tokens_eq_nil_iff {d : Char} {w : CString} : tokens d w = [] ↔ ∀ c ∈ w, c = d := by
  constructor
  · intro h
    rw [tokens_eq] at h
    cases hnext : nextToken d w with
    | none => exact nextToken_eq_none hnext
    | some tr => rw [hnext] at h; cases h
  · intro h
    rw [← List.append_nil w, tokens_delimiters h]
    simp [tokens]

theorem fieldsOf_eq_nil_iff {seg : CString} : fieldsOf seg = [] ↔ ¬ SetsCharvalue seg := by
  unfold fieldsOf SetsCharvalue
  by_cases hpipe : '|' ∈ seg
  · rw [if_pos hpipe, tokens_eq_nil_iff]
    simp [hpipe]
  · simp [hpipe]

/-- Only the first field assigns `charvalue`. -/
theorem decodeFields_charvalue (i j : Nat) (d : Decoded) (fields : List CString) :
    (decodeFields i (j + 2) d fields).charvalue = d.charvalue := by
  induction fields generalizing j d with
  | nil => rfl
  | cons t fields ih =>
    rw [decodeFields, ih (j + 1)]
    rcases j with _ | _ | j
    · show (d.setType t).charvalue = d.charvalue
      unfold Decoded.setType
      split
      · rfl
      · split <;> rfl
    · rfl
    · rfl

section Dispatch
variable {α : Type} [One α] (strtod : CString → α)

/-- The dispatch of a block: one call with the key it is given, traced to the block,
which is kept or freed. -/
theorem dispatch_block (i : Nat) (key : Option CString) {d : Decoded} {text : CString} {a : Nat}
    (hd : d.charvalue = .block text a) :
    ∃ charvalue value call, dispatch strtod i key d = .ok (charvalue, value, call) ∧
      call.call.key = key ∧ call.iteration = i ∧ call.assigned = some a ∧
      (charvalue = .freed ∨ ∃ t, charvalue = .block t a) := by
  unfold dispatch
  rw [hd]
  simp only [Charvalue.read]
  split
  · exact ⟨_, _, _, rfl, rfl, rfl, rfl, .inr ⟨_, rfl⟩⟩
  · split
    · split <;> exact ⟨_, _, _, rfl, rfl, rfl, rfl, .inl rfl⟩
    · exact ⟨_, _, _, rfl, rfl, rfl, rfl, .inr ⟨_, rfl⟩⟩

/-- A segment that sets `charvalue` makes a call of its own, and leaves the pointer as the next
iteration may find it. -/
theorem decodeSegment_sets (i : Nat) (key : CString) (charvalue : Charvalue) {seg : CString}
    (h : SetsCharvalue seg) :
    ∃ charvalue' value call, decodeSegment strtod i (some key) charvalue seg =
        .ok (charvalue', value, call) ∧ call.Safe ∧ charvalue'.Before (i + 1) := by
  cases hfields : fieldsOf seg with
  | nil => exact absurd h (fieldsOf_eq_nil_iff.mp hfields)
  | cons t fields =>
    have hblock := decodeFields_charvalue i 0
      ⟨.block (sanitizeGaugevalue t) i, false, false, none⟩ fields
    obtain ⟨charvalue', value, call, hok, hkey, hiter, hassigned, hnext⟩ :=
      dispatch_block strtod i (some key) hblock
    refine ⟨charvalue', value, call, ?_, ⟨by simp [hkey], ?_⟩, ?_⟩
    · rw [decodeSegment, hfields]
      exact hok
    · intro a ha
      rw [hassigned, Option.some.injEq] at ha
      rw [hiter, ha]
    · rcases hnext with rfl | ⟨t, rfl⟩
      · trivial
      · exact Nat.lt_succ_self i

/-- A segment that does not set it faults, or makes a call with the value of an earlier segment,
which is traced to that one. -/
theorem decodeSegment_stale {i : Nat} (key : Option CString) {charvalue : Charvalue} {seg : CString}
    (hbefore : charvalue.Before i) (h : ¬ SetsCharvalue seg) :
    (∃ e, decodeSegment strtod i key charvalue seg = .error e) ∨
      ∃ charvalue' value call, decodeSegment strtod i key charvalue seg =
        .ok (charvalue', value, call) ∧ ¬ call.Safe := by
  rw [decodeSegment, fieldsOf_eq_nil_iff.mpr h, decodeFields]
  cases charvalue with
  | unset => exact .inl ⟨_, rfl⟩
  | freed => exact .inl ⟨_, rfl⟩
  | block text a =>
    obtain ⟨charvalue', value, call, hok, -, hiter, hassigned, -⟩ :=
      dispatch_block strtod i key (d := ⟨.block text a, false, false, none⟩) rfl
    refine .inr ⟨charvalue', value, call, hok, fun hsafe => ?_⟩
    have hstale : a < i := hbefore
    have := hsafe.2 a hassigned
    omega

theorem decodeSegments_safe_iff (key : CString) {i : Nat} {charvalue : Charvalue}
    (hbefore : charvalue.Before i) (segs : List CString) :
    (∃ calls, decodeSegments strtod (some key) i charvalue segs = .ok calls ∧
      ∀ c ∈ calls, c.Safe) ↔ ∀ seg ∈ segs, SetsCharvalue seg := by
  induction segs generalizing i charvalue with
  | nil => simp [decodeSegments]
  | cons seg segs ih =>
    by_cases hseg : SetsCharvalue seg
    · obtain ⟨charvalue', value, call, hok, hsafe, hnext⟩ :=
        decodeSegment_sets strtod i key charvalue hseg
      simp only [decodeSegments, hok, List.forall_mem_cons, hseg, true_and, ← ih hnext]
      cases decodeSegments strtod (some key) (i + 1) charvalue' segs with
      | error e => simp [Except.map]
      | ok calls => simp [Except.map, hsafe]
    · have hno : ¬ ∀ s ∈ seg :: segs, SetsCharvalue s := fun hall =>
        hseg (hall seg (List.mem_cons_self ..))
      refine iff_of_false ?_ hno
      rintro ⟨calls, hcalls, hall⟩
      rcases decodeSegment_stale strtod (some key) hbefore hseg with
        ⟨e, herr⟩ | ⟨charvalue', value, call, hok, hunsafe⟩
      · simp only [decodeSegments, herr] at hcalls
        cases hcalls
      · simp only [decodeSegments, hok] at hcalls
        cases hrest : decodeSegments strtod (some key) (i + 1) charvalue' segs with
        | error e => rw [hrest] at hcalls; cases hcalls
        | ok rest =>
          rw [hrest] at hcalls
          obtain rfl := Except.ok.inj hcalls
          exact hunsafe (hall call (List.mem_cons_self ..))

end Dispatch

variable {α : Type} [One α] (strtod : CString → α) {buf : Buffer} {packet rest : CString}

/-- **Safety on arbitrary bytes.**  A packet of at least two bytes is processed
without a fault, each call with a key and a value of its own, exactly when it has a
key and every segment behind it has a pipe and something besides pipes. -/
theorem processStatsPacket_safe_iff (h : StringAt buf 0 packet rest) :
    (∃ calls, processStatsPacket strtod buf = .ok calls ∧ ∀ c ∈ calls, c.Safe) ↔
      packet.length < 2 ∨
        ((∃ c ∈ packet, c ≠ ':') ∧ ∀ seg ∈ (tokens ':' packet).tail, SetsCharvalue seg) := by
  have hkey : (∃ c ∈ packet, c ≠ ':') ↔ tokens ':' packet ≠ [] := by
    rw [Ne, tokens_eq_nil_iff]
    simp
  rw [processStatsPacket_eq strtod h, hkey, decodePacket]
  by_cases hlen : packet.length < 2
  · simp [hlen]
  · rw [if_neg hlen]
    simp only [hlen, false_or]
    rcases tokens ':' packet with _ | ⟨key, _ | ⟨seg, segs⟩⟩
    · -- nothing but colons: the key is `NULL`
      simp [TracedCall.Safe, MetricCall.key]
    · simp [TracedCall.Safe, MetricCall.key]
    · have hbefore : Charvalue.unset.Before 2 := trivial
      rw [decodeSegments_safe_iff strtod _ hbefore]
      simp

/-- The theorem at the packet `k:1|c`, which meets the condition. -/
theorem processStatsPacket_safe_counter :
    ∃ calls, processStatsPacket (fun _ => (0 : Int)) ("k:1|c".toList ++ [nul]) = .ok calls ∧
      ∀ c ∈ calls, c.Safe := by
  have hbuf : StringAt ("k:1|c".toList ++ [nul]) 0 "k:1|c".toList [] := ⟨by decide, by decide⟩
  have htokens : tokens ':' "k:1|c".toList = [['k'], ['1', '|', 'c']] := by
    rw [show "k:1|c".toList = ['k'] ++ ':' :: ['1', '|', 'c'] by decide,
      tokens_cons (by decide) (by decide), tokens_single (by decide) (by decide)]
  refine (processStatsPacket_safe_iff _ hbuf).mpr (.inr ⟨⟨'k', by decide, by decide⟩, ?_⟩)
  rw [htokens]
  intro seg hseg
  obtain rfl : seg = ['1', '|', 'c'] := by simpa using hseg
  exact ⟨by decide, '1', by decide, by decide⟩

/-- The packet `k:1`: its segment has no pipe, and the unset `charvalue` is used. -/
theorem pipeless_segment_unsafe :
    ¬ ∃ calls, processStatsPacket (fun _ => (0 : Int)) ("k:1".toList ++ [nul]) = .ok calls ∧
      ∀ c ∈ calls, c.Safe := by
  have hbuf : StringAt ("k:1".toList ++ [nul]) 0 "k:1".toList [] := ⟨by decide, by decide⟩
  have hfault : processStatsPacket (fun _ => (0 : Int)) ("k:1".toList ++ [nul]) =
      .error .charvalueUnset := by
    have htokens : tokens ':' "k:1".toList = [['k'], ['1']] := by
      rw [show "k:1".toList = ['k'] ++ ':' :: ['1'] by decide,
        tokens_cons (by decide) (by decide), tokens_single (by decide) (by decide)]
    rw [processStatsPacket_eq _ hbuf, decodePacket, if_neg (by decide), htokens]
    rfl
  rintro ⟨calls, hok, -⟩
  rw [hfault] at hok
  cases hok

end StatsdC
