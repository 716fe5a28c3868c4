import StatsdC.Lib.CString

/-!
# The sanitizers

`strings.c`: three filters that rewrite a string in place.  Each walks over its argument, copies
the characters it keeps into a block of its own, and copies that block back over the argument.
The model has them as functions on texts; `CString.rewriteInPlace` is what such a function does
to the buffer it is called on, and `CString.rewriteInPlace_cstr` says that the string in the
buffer is then the function's value.

* `sanitizeKey` maps a key into `[A-Za-z0-9_-]`: a dot becomes an underscore, a slash of either
  kind a hyphen, and what is no key character is dropped (`isKeyChar_of_mem_sanitizeKey`).
* `sanitizeValue` keeps the characters of a decimal number without an exponent: digits, the point
  and the minus sign.
* `sanitizeGaugevalue` keeps plus signs as well.

A gauge value goes through both filters, one after the other, and the second has only the plus
signs left to drop (`sanitizeValue_sanitizeGaugevalue`).  None of the three makes a string longer,
which is why they can work in place.  Where the plus and minus signs stand does not matter to
them: `1-2` is kept as it is, and it is the number conversion that stops at the second sign.
-/

namespace StatsdC

/-- The characters that a key keeps, `[A-Za-z0-9_-]`.  A dot and the slashes are not among them:
they are replaced. -/
def isKeyChar (p : Char) : Bool :=
  ('a' ≤ p && p ≤ 'z') || ('A' ≤ p && p ≤ 'Z') || ('0' ≤ p && p ≤ '9') || p == '_' || p == '-'

/-- What `sanitize_key` writes for one character of its argument, if it writes one.  The order of
the tests is that of the source. -/
def sanitizeKeyChar (p : Char) : Option Char :=
  if p = '.' then some '_'
  else if p = '\\' ∨ p = '/' then some '-'
  else if isKeyChar p then some p
  else none

/-- `sanitize_key`, as a function of the text.  What it does to a buffer is `CString.rewriteInPlace`
of it. -/
def sanitizeKey (k : CString) : CString := k.filterMap sanitizeKeyChar

/-- `sanitize_value`: digits, points and minus signs are kept wherever they stand, so that the
result need not be a numeral. -/
def sanitizeValue (k : CString) : CString :=
  k.filter fun p => p == '.' || p == '-' || ('0' ≤ p && p ≤ '9')

/-- `sanitize_gaugevalue`, which keeps the plus signs as well, since a sign tells a change of a
gauge from a new value. -/
def sanitizeGaugevalue (k : CString) : CString :=
  k.filter fun p => p == '.' || p == '-' || p == '+' || ('0' ≤ p && p ≤ '9')

theorem sanitizeKeyChar_isKeyChar {p q : Char} (h : sanitizeKeyChar p = some q) :
    isKeyChar q = true := by
  unfold sanitizeKeyChar at h
  split at h
  · obtain rfl : '_' = q := Option.some.inj h
    rfl
  · split at h
    · obtain rfl : '-' = q := Option.some.inj h
      rfl
    · split at h
      · obtain rfl : p = q := Option.some.inj h
        assumption
      · cases h

/-- **The image of `sanitize_key`**: whatever the argument, only key characters are left in it. -/
theorem isKeyChar_of_mem_sanitizeKey {k : CString} {q : Char} (h : q ∈ sanitizeKey k) :
    isKeyChar q = true := by
  obtain ⟨p, -, hp⟩ := List.mem_filterMap.mp h
  exact sanitizeKeyChar_isKeyChar hp

theorem isKeyChar_nul : isKeyChar CString.nul = false := by decide

/-- After `sanitize_gaugevalue`, `sanitize_value` has only the plus signs left to
drop. -/
theorem sanitizeValue_sanitizeGaugevalue (k : CString) :
    sanitizeValue (sanitizeGaugevalue k) = sanitizeValue k := by
  rw [sanitizeValue, sanitizeGaugevalue, List.filter_filter, sanitizeValue]
  refine List.filter_congr fun p _ => ?_
  cases p == '.' <;> cases p == '-' <;> cases p == '+' <;> simp

theorem length_sanitizeValue_le (k : CString) : (sanitizeValue k).length ≤ k.length :=
  List.length_filter_le _ _

theorem length_sanitizeGaugevalue_le (k : CString) : (sanitizeGaugevalue k).length ≤ k.length :=
  List.length_filter_le _ _

theorem mem_of_mem_sanitizeGaugevalue {k : CString} {c : Char}
    (h : c ∈ sanitizeGaugevalue k) : c ∈ k :=
  (List.mem_filter.mp h).1

end StatsdC
