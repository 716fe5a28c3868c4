import StatsdC.JsonPacket
import StatsdC.Lib.Fallible
import StatsdC.PacketDecode

/-!
# The keys of the calls

Both front ends pass the text that names a metric through `sanitize_key` before they make a call.
So every key is over `[A-Za-z0-9_-]`, whatever is in the packet.  This is said here of the calls
that a front end makes, before they have any effect on the tables: `MetricCall.Sanitized` is about
one call, and a call whose key is `NULL` meets it, because such a call is a fault of the function
it calls and not of the front end.

For the plain front end the key is the first token of the packet, and it is the same for all calls
of the packet (`sanitized_of_decodePacket`).  For the JSON front end each object has a key of its
own, and the objects of an array are handled one after another
(`sanitized_of_processJsonStatsPacket`).

Both are cases of a rule for any property of calls (`forall_of_decodePacket`,
`forall_of_processJsonStatsPacket`), which goes through the loops of the front end once, so that a
property has only to be shown of the calls that are written in the source.

What is over these characters has no NUL and no dot in it, no blank and no newline, and nothing
that JSON would escape.  That is what the later modules use: the stat names that are printed with
a dot can be taken apart again, the lines for Graphite have two blanks each, and the snapshot is
plain text between its quotes.
-/

namespace StatsdC
open CString Fallible

/-- A call whose key, if it has one, is over `[A-Za-z0-9_-]`.  A call with `NULL` for its key is a
fault of the function it calls, and no concern here. -/
def MetricCall.Sanitized {α : Type} (call : MetricCall α) : Prop :=
  ∀ key, call.key = some key → ∀ c ∈ key, isKeyChar c = true

theorem MetricCall.sanitized_of_key {α : Type} {call : MetricCall α} {k : CString}
    (h : call.key = some (sanitizeKey k)) : call.Sanitized := by
  intro key hkey c hc
  rw [h, Option.some.injEq] at hkey
  exact isKeyChar_of_mem_sanitizeKey (hkey ▸ hc)

/-! ## What holds of every call -/

section Decode
variable {α : Type} [One α] {strtod : CString → α}

/-- **What a dispatch calls**: one of the three updates, under the key it is given and with a value
that `strtod` has read, and a gauge is updated in one of three ways. -/
theorem dispatch_cases {i : Nat} {key : Option CString} {d : Decoded} {charvalue : Charvalue}
    {value : α} {call : TracedCall α}
    (h : dispatch strtod i key d = .ok (charvalue, value, call)) :
    (∃ text, value = strtod text) ∧
      (call.call = .updateTimer key value ∨
        (∃ plusminus, plusminus < 3 ∧ call.call = .updateGaugePlusminus key value plusminus) ∨
          ∃ sampleRate, call.call = .updateCounter key value sampleRate) := by
  unfold dispatch at h
  cases hread : d.charvalue.read with
  | error e =>
    rw [hread] at h
    cases h
  | ok r =>
    rw [hread] at h
    simp only at h
    split at h
    · cases h
      exact ⟨⟨_, rfl⟩, .inl rfl⟩
    · split at h
      · split at h <;> cases h <;> exact ⟨⟨_, rfl⟩, .inr (.inl ⟨_, by decide, rfl⟩)⟩
      · cases h
        exact ⟨⟨_, rfl⟩, .inr (.inr ⟨_, rfl⟩)⟩

/-- A call is made with the key of its packet. -/
theorem dispatch_key {i : Nat} {key : Option CString} {d : Decoded} {charvalue : Charvalue}
    {value : α} {call : TracedCall α}
    (h : dispatch strtod i key d = .ok (charvalue, value, call)) : call.call.key = key := by
  obtain ⟨-, hcall | ⟨plusminus, -, hcall⟩ | ⟨sampleRate, hcall⟩⟩ := dispatch_cases h
  · rw [hcall]
    rfl
  · rw [hcall]
    rfl
  · rw [hcall]
    rfl

/-- What holds of every call that is dispatched under a key holds of the calls of the segments.  The
induction is on the segments, for every iteration and every pointer they begin with. -/
theorem forall_of_decodeSegments {P : MetricCall α → Prop} {key : Option CString} {i : Nat}
    {charvalue : Charvalue} {segs : List CString} {calls : List (TracedCall α)}
    (hdispatch : ∀ {i d charvalue value call},
      dispatch strtod i key d = .ok (charvalue, value, call) → P call.call)
    (h : decodeSegments strtod key i charvalue segs = .ok calls) : ∀ c ∈ calls, P c.call := by
  induction segs generalizing i charvalue calls with
  | nil =>
    obtain rfl := Except.ok.inj h
    rintro c ⟨⟩
  | cons seg segs ih =>
    unfold decodeSegments at h
    cases hseg : decodeSegment strtod i key charvalue seg with
    | error e =>
      rw [hseg] at h
      cases h
    | ok r =>
      obtain ⟨charvalue', value, call⟩ := r
      rw [hseg] at h
      cases hsegs : decodeSegments strtod key (i + 1) charvalue' segs with
      | error e =>
        simp only [hsegs] at h
        cases h
      | ok calls' =>
        simp only [hsegs] at h
        obtain rfl := Except.ok.inj h
        exact List.forall_mem_cons.mpr ⟨hdispatch hseg, ih hsegs⟩

/-- **What holds of every call of a plain packet**: it has to hold of what is dispatched under a
sanitized key, and of the two calls that are made without a segment. -/
theorem forall_of_decodePacket {P : MetricCall α → Prop} {text : CString}
    {calls : List (TracedCall α)} (h : decodePacket strtod text = .ok calls)
    (hnone : P (.updateCounter none 1 1))
    (hkey : ∀ key, P (.updateCounter (some (sanitizeKey key)) 1 1))
    (hdispatch : ∀ {k i d charvalue value call},
      dispatch strtod i (some (sanitizeKey k)) d = .ok (charvalue, value, call) → P call.call) :
    ∀ c ∈ calls, P c.call := by
  unfold decodePacket at h
  split at h
  · obtain rfl := Except.ok.inj h
    rintro c ⟨⟩
  · split at h
    · -- only colons: the key is `NULL`
      obtain rfl := Except.ok.inj h
      exact List.forall_mem_singleton.mpr hnone
    · obtain rfl := Except.ok.inj h
      exact List.forall_mem_singleton.mpr (hkey _)
    · exact forall_of_decodeSegments hdispatch h

end Decode

section Json
variable {P : MetricCall Num → Prop} {calls : List (MetricCall Num)}

/-- What holds of every call of a JSON object.  There is at most one, under the name that the object
gives, and a timer's has the value of the object. -/
theorem forall_of_processJsonStatsObject {sobj : Json}
    (h : processJsonStatsObject sobj = .ok calls)
    (htimer : ∀ {key valueObj}, sobj.objectGet "value".toList = .ok valueObj →
      P (.updateTimer (Option.map sanitizeKey key) valueObj.getDouble))
    (hcounter : ∀ {key value sampleRate},
      P (.updateCounter (Option.map sanitizeKey key) value sampleRate)) : ∀ c ∈ calls, P c := by
  simp only [processJsonStatsObject, bind_eq_ok] at h
  obtain ⟨timerObj, -, counterObj, -, h⟩ := h
  split at h
  · obtain rfl := pure_eq_ok.mp h
    rintro c ⟨⟩
  · split at h
    · obtain ⟨valueObj, hvalue, h⟩ := bind_eq_ok.mp h
      split at h
      · obtain rfl := pure_eq_ok.mp h
        rintro c ⟨⟩
      · obtain rfl := pure_eq_ok.mp h
        exact List.forall_mem_singleton.mpr (htimer hvalue)
    · split at h
      · obtain ⟨valueObj, -, h⟩ := bind_eq_ok.mp h
        obtain ⟨rateObj, -, h⟩ := bind_eq_ok.mp h
        split at h
        · obtain rfl := pure_eq_ok.mp h
          rintro c ⟨⟩
        · obtain rfl := pure_eq_ok.mp h
          exact List.forall_mem_singleton.mpr hcounter
      · obtain rfl := pure_eq_ok.mp h
        rintro c ⟨⟩

theorem forall_of_elementLoop {obj : Json} {is : List Nat} (h : elementLoop obj is = .ok calls)
    (hobject : ∀ {i sobj first}, obj.arrayGetIdx i = .ok sobj →
      processJsonStatsObject sobj = .ok first → ∀ c ∈ first, P c) : ∀ c ∈ calls, P c := by
  induction is generalizing calls with
  | nil =>
    obtain rfl := Except.ok.inj h
    rintro c ⟨⟩
  | cons i is ih =>
    simp only [elementLoop, bind_eq_ok] at h
    obtain ⟨sobj, hget, first, hfirst, rest, hrest, h⟩ := h
    obtain rfl := pure_eq_ok.mp h
    exact List.forall_mem_append.mpr ⟨hobject hget hfirst, ih hrest⟩

theorem eq_ok_of_follow {obj : Except JsonTokenerError Json} {jso : Json}
    (h : follow obj = .ok jso) : obj = .ok jso := by
  cases obj with
  | ok v =>
    obtain rfl := Except.ok.inj h
    rfl
  | error e => cases h

/-- **What holds of every call of a JSON packet**: it has to hold of the calls of an object, which
is the value of the packet or an element of it. -/
theorem forall_of_processJsonStatsPacket {bufIn : Buffer}
    (h : processJsonStatsPacket bufIn = .ok calls)
    (hobject : ∀ {obj sobj first}, jsonTokenerParse (cstr bufIn 0) = .ok obj →
      (sobj = obj ∨ ∃ i, obj.arrayGetIdx i = .ok sobj) →
      processJsonStatsObject sobj = .ok first → ∀ c ∈ first, P c) : ∀ c ∈ calls, P c := by
  unfold processJsonStatsPacket at h
  split at h
  · obtain rfl := Except.ok.inj h
    rintro c ⟨⟩
  · split at h
    · obtain rfl := Except.ok.inj h
      rintro c ⟨⟩
    · simp only [bind_eq_ok] at h
      obtain ⟨obj, hfollow, type, -, h⟩ := h
      have hparse := eq_ok_of_follow hfollow
      cases type with
      | object => exact hobject hparse (.inl rfl) h
      | array =>
        obtain ⟨n, -, h⟩ := bind_eq_ok.mp h
        exact forall_of_elementLoop h fun hget => hobject hparse (.inr ⟨_, hget⟩)
      | boolean | double | int | string =>
        obtain rfl := pure_eq_ok.mp h
        rintro c ⟨⟩

end Json

/-! ## The keys -/

/-- The calls of a plain packet are sanitized: all of them have the key of the packet, or that is
missing and they have none. -/
theorem sanitized_of_decodePacket {α : Type} [One α] {strtod : CString → α} {text : CString}
    {calls : List (TracedCall α)} (h : decodePacket strtod text = .ok calls) :
    ∀ c ∈ calls, c.call.Sanitized := by
  refine forall_of_decodePacket h ?_ (fun key => MetricCall.sanitized_of_key rfl) fun hdispatch =>
    MetricCall.sanitized_of_key (dispatch_key hdispatch)
  rintro key ⟨⟩

/-- A call under the name of a JSON object is sanitized, also if that is no string. -/
theorem MetricCall.sanitized_of_map {α : Type} {call : MetricCall α} {key : Option CString}
    (h : call.key = key.map sanitizeKey) : call.Sanitized := by
  cases key with
  | none =>
    intro k hk
    rw [h] at hk
    cases hk
  | some k => exact MetricCall.sanitized_of_key h

/-- The calls of a JSON packet are sanitized, those of an array element by element. -/
theorem sanitized_of_processJsonStatsPacket {bufIn : Buffer} {calls : List (MetricCall Num)}
    (h : processJsonStatsPacket bufIn = .ok calls) : ∀ c ∈ calls, c.Sanitized :=
  forall_of_processJsonStatsPacket h fun _ _ hobject =>
    forall_of_processJsonStatsObject hobject (fun _ => MetricCall.sanitized_of_map rfl)
      (MetricCall.sanitized_of_map rfl)

end StatsdC
