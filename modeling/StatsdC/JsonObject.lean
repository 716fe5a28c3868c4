import StatsdC.Lib.OrderedTable
import StatsdC.Numbers

/-!
# JSON objects

The values of the vendored json-c, with the accessors the daemon uses and the printer.  A pointer
to a value is the value itself: `Json.null` is `NULL`, which is how json-c represents the JSON
`null`.  Objects list their entries in insertion order, each key once, and an addition under a key
that is there takes the old entry out and appends the new one.  Reference counts are left
out: when a value is given back is not modelled, and so neither is its memory.

An accessor that uses its argument as a value of another type, or follows `NULL`, is a fault
(`JsonFault`).  Some check their argument and have none; `json_object_get_double` of a string, for
instance, reads the number at its front.  Which accessor checks what is taken from the source, one
by one, since callers that forget a check of their own depend on it.

The printer is a function to texts.  Strings are escaped byte by byte, numbers are written with
`%d` and `%lf`, and an infinity or a NaN is written as `printf` writes it, which is no JSON.  How
the text comes about in memory is in `StatsdC.Printbuf`, where the objects live in
`StatsdC.LinkHash`, and the arrays in `StatsdC.ArrayList`; each of these modules shows that nothing
else comes of it than what is said here.
-/

namespace StatsdC
open CString OrderedTable

/-- `struct json_object`, or `NULL`.  An object has its entries in the order of its list, and
reference counts are left out. -/
inductive Json where
  | null
  | boolean (b : Bool)
  | double (d : Num)
  | int (i : Int)
  | object (entries : List (CString × Json))
  | array (elements : List Json)
  | string (s : CString)

/-- An access that is not legal for the value at hand.  The library checks no types, so that each of
them is undefined in C. -/
inductive JsonFault where
  /-- A pointer made by `error_ptr` is followed. -/
  | errorPointer
  | nullPointer
  /-- A value of one type is used as one of another. -/
  | wrongType
  deriving DecidableEq

/-- `enum json_type`, without `json_type_null`, which no object has. -/
inductive JsonType where
  | boolean | double | int | object | array | string
  deriving DecidableEq

/-- The conversion of a `double` to `int`: towards zero, and `INT_MIN` for what does
not fit. -/
def intOfDouble : Num → Int
  | .fin q =>
    let z := q.num.tdiv q.den
    if -2 ^ 31 ≤ z ∧ z < 2 ^ 31 then z else -2 ^ 31
  | .negZero => 0
  | .inf _ | .nan => -2 ^ 31

/-- A key that is added again goes to the end: its entry is deleted, and the new one appended. -/
def lhTableAdd (entries : List (CString × Json)) (key : CString) (val : Json) :
    List (CString × Json) :=
  entries.filter (·.1 ≠ key) ++ [(key, val)]

/-- Entries added one after another, to those in `acc`. -/
def lhTableAddAll (acc entries : List (CString × Json)) : List (CString × Json) :=
  entries.foldl (fun acc e => lhTableAdd acc e.1 e.2) acc

section Table
variable {acc entries : List (CString × Json)} {key : CString} {val : Json}

theorem lhTableAdd_of_notMem (h : key ∉ entries.map Prod.fst) :
    lhTableAdd entries key val = entries ++ [(key, val)] := by
  rw [lhTableAdd, List.filter_eq_self.mpr]
  intro e he
  simp only [ne_eq, decide_eq_true_eq]
  rintro rfl
  exact h (List.mem_map_of_mem he)

theorem mem_map_fst_lhTableAdd {k : CString} :
    k ∈ (lhTableAdd entries key val).map Prod.fst ↔ k ∈ entries.map Prod.fst ∨ k = key := by
  by_cases hk : k = key
  · simp [lhTableAdd, hk]
  · simp only [lhTableAdd, List.map_append, List.mem_append, List.mem_map, List.mem_filter,
      ne_eq, decide_eq_true_eq, List.map_cons, List.map_nil, List.mem_singleton, hk, or_false]
    constructor
    · rintro ⟨e, ⟨he, -⟩, rfl⟩
      exact ⟨e, he, rfl⟩
    · rintro ⟨e, he, rfl⟩
      exact ⟨e, ⟨he, hk⟩, rfl⟩

theorem mem_lhTableAdd {e : CString × Json} (h : e ∈ lhTableAdd entries key val) :
    e ∈ entries ∨ e = (key, val) := by
  rcases List.mem_append.mp h with h | h
  · exact .inl (List.mem_filter.mp h).1
  · exact .inr (List.mem_singleton.mp h)

/-- Keys stay unique, because an older entry with the same key is deleted. -/
theorem nodup_lhTableAdd (h : (entries.map Prod.fst).Nodup) :
    ((lhTableAdd entries key val).map Prod.fst).Nodup := by
  rw [lhTableAdd, List.map_append, List.map_singleton]
  refine List.nodup_append.mpr ⟨?_, List.nodup_singleton key, ?_⟩
  · exact h.sublist (List.filter_sublist.map Prod.fst)
  · intro k hk k' hk' heq
    obtain ⟨e, he, rfl⟩ := List.mem_map.mp hk
    have hne : e.1 ≠ key := by simpa using (List.mem_filter.mp he).2
    exact hne (heq.trans (List.mem_singleton.mp hk'))

theorem nodup_lhTableAddAll (h : (acc.map Prod.fst).Nodup) :
    ((lhTableAddAll acc entries).map Prod.fst).Nodup := by
  induction entries generalizing acc with
  | nil => exact h
  | cons e entries ih => exact ih (nodup_lhTableAdd h)

theorem mem_map_fst_lhTableAddAll {k : CString} :
    k ∈ (lhTableAddAll acc entries).map Prod.fst ↔
      k ∈ acc.map Prod.fst ∨ k ∈ entries.map Prod.fst := by
  induction entries generalizing acc with
  | nil => simp [lhTableAddAll]
  | cons e entries ih =>
    have hrec := @ih (lhTableAdd acc e.1 e.2)
    rw [mem_map_fst_lhTableAdd] at hrec
    rw [List.map_cons, List.mem_cons, ← or_assoc]
    exact hrec

theorem mem_lhTableAddAll {e : CString × Json} (h : e ∈ lhTableAddAll acc entries) :
    e ∈ acc ∨ e ∈ entries := by
  induction entries generalizing acc with
  | nil => exact .inl h
  | cons a entries ih =>
    rcases ih h with h | h
    · rcases mem_lhTableAdd h with h | rfl
      · exact .inl h
      · exact .inr (List.mem_cons_self ..)
    · exact .inr (List.mem_cons_of_mem _ h)

/-- New keys, each once, are just appended. -/
theorem lhTableAddAll_of_nodup (h : (acc.map Prod.fst ++ entries.map Prod.fst).Nodup) :
    lhTableAddAll acc entries = acc ++ entries := by
  induction entries generalizing acc with
  | nil => exact (List.append_nil acc).symm
  | cons e entries ih =>
    rw [List.map_cons] at h
    have hnew : e.1 ∉ acc.map Prod.fst := fun he =>
      (List.nodup_append.mp h).2.2 e.1 he e.1 (List.mem_cons_self ..) rfl
    have hadd : lhTableAdd acc e.1 e.2 = acc ++ [e] := lhTableAdd_of_notMem hnew
    rw [lhTableAddAll, List.foldl_cons, hadd]
    refine (ih ?_).trans (List.append_assoc acc [e] entries)
    simpa using h

end Table

namespace Json

/-! ## Construction -/

/-- `json_object_object_add`, on an object.  On any other value it is not called. -/
def objectAdd : Json → CString → Json → Json
  | object entries, key, val => object (lhTableAdd entries key val)
  | jso, _, _ => jso

/-- `json_object_array_add`, on an array. -/
def arrayAdd : Json → Json → Json
  | array elements, val => array (elements ++ [val])
  | jso, _ => jso

/-! ## Printing -/

/-- `json_escape_str`, one byte: the seven characters with an escape of their own, and the other
control characters as `\u00..`. -/
def escape (c : Char) : CString :=
  match c with
  | '\x08' => ['\\', 'b']
  | '\n' => ['\\', 'n']
  | '\r' => ['\\', 'r']
  | '\t' => ['\\', 't']
  | '"' => ['\\', '"']
  | '\\' => ['\\', '\\']
  | '/' => ['\\', '/']
  | c =>
    if c.toNat < 32 then
      ['\\', 'u', '0', '0', Nat.digitChar (c.toNat / 16), Nat.digitChar (c.toNat % 16)]
    else [c]

/-- `json_escape_str`, over a string.  The slash is escaped as well. -/
def escapeStr (s : CString) : CString := s.flatMap escape

mutual

/-- `json_object_to_json_string`, with the spaces that the printers of this version put. -/
def toJsonString : Json → CString
  | null => "null".toList
  | boolean b => if b then "true".toList else "false".toList
  | double d => printLf d
  | int i => printD i
  | object entries => '{' :: (entriesToJsonString true entries ++ " \x7d".toList)
  | array elements => '[' :: (elementsToJsonString true elements ++ " ]".toList)
  | string s => '"' :: (escapeStr s ++ ['"'])

/-- The loop over the entries of an object, with a comma before each but the first. -/
def entriesToJsonString (first : Bool) : List (CString × Json) → CString
  | [] => []
  | (key, val) :: entries =>
    (if first then [] else [',']) ++ " \"".toList ++ escapeStr key ++ "\": ".toList ++
      toJsonString val ++ entriesToJsonString false entries

/-- The loop over the elements of an array, with a comma before each but the first. -/
def elementsToJsonString (first : Bool) : List Json → CString
  | [] => []
  | val :: elements =>
    (if first then [' '] else ", ".toList) ++ toJsonString val ++
      elementsToJsonString false elements

end

/-! ## Access -/

/-- `json_object_get_type`, which follows the pointer and so must not be given `NULL`. -/
def getType : Json → Except JsonFault JsonType
  | null => .error .nullPointer
  | boolean _ => .ok .boolean
  | double _ => .ok .double
  | int _ => .ok .int
  | object _ => .ok .object
  | array _ => .ok .array
  | string _ => .ok .string

/-- `json_object_object_get`: the value of a key, or `NULL` where it is missing. -/
def objectGet (jso : Json) (key : CString) : Except JsonFault Json :=
  match jso with
  | object entries => .ok (((lookup Prod.fst entries key).map Prod.snd).getD null)
  | null => .error .nullPointer
  | _ => .error .wrongType

/-- The entries `json_object_object_foreach` goes through.  The object table of any
other value is `NULL`. -/
def objectForeach : Json → Except JsonFault (List (CString × Json))
  | object entries => .ok entries
  | _ => .error .nullPointer

/-- `json_object_array_length`, which reads the array of the value without a check of its type. -/
def arrayLength : Json → Except JsonFault Nat
  | array elements => .ok elements.length
  | null => .error .nullPointer
  | _ => .error .wrongType

/-- `json_object_array_get_idx`: the element at an index, or `NULL` behind the last one. -/
def arrayGetIdx (jso : Json) (idx : Nat) : Except JsonFault Json :=
  match jso with
  | array elements => .ok (elements.getD idx null)
  | null => .error .nullPointer
  | _ => .error .wrongType

/-- `json_object_get_double`.  A string is read as a number, and what is no number at all counts as
0. -/
def getDouble : Json → Num
  | double d => d
  | int i => .fin i
  | boolean b => if b then 1 else 0
  | string s => (sscanfLf s).getD 0
  | null | object _ | array _ => 0

/-- `json_object_get_int`.  A `double` is truncated, and a string is read as a number. -/
def getInt : Json → Int
  | int i => i
  | double d => intOfDouble d
  | boolean b => if b then 1 else 0
  | string s => (sscanfD s).getD 0
  | null | object _ | array _ => 0

/-- `json_object_get_string`: the string itself, or the text of any other value. -/
def getString : Json → Option CString
  | null => none
  | string s => some s
  | jso => some jso.toJsonString

/-- The elements of an array, taken by their indices. -/
theorem map_getD_range (elements : List Json) :
    (List.range elements.length).map (fun i => elements.getD i null) = elements := by
  refine List.ext_getElem (by simp) fun i hi hi' => ?_
  simp [hi']

end Json
end StatsdC
