import Mathlib.Algebra.Group.Nat.Defs
import Mathlib.Data.List.Basic

/-!
# External data representation

Unsigned integers and strings in units of four bytes: an integer is one unit, highest byte first,
and a string is its length and its bytes, with zeros up to the next unit.  A byte is a `Char`
below 256.

The routines that write are not defined here: a `Library` is any set of them, over streams of any
type, and `Library.Documented` is what their documentation promises of a stream in memory.  A
routine puts the bytes of its item behind those that are in the stream, or fails if there is no
room for them all (`Library.Puts`).  From this follows what a sequence of calls leaves
(`Made.bind`): the bytes of all its items, or nothing if they do not all fit.  So the number of
bytes that a program writes, and whether it writes any, does not depend on the library, as long as
it keeps its promises.  `memoryLibrary` is one such library, so that the promises can be kept
(`memoryLibrary_documented`); a test of a program can be computed with it.

Reading is defined by the format alone, because the readers are other programs.  A `Reader` takes
an item from the front of the bytes and gives the rest back.  Reading an item undoes writing it,
whatever comes behind (`getUInt_append`, `getString_append`), and so a message is read field by
field, in the order in which it was written.
-/

namespace Xdr

/-- `BYTES_PER_XDR_UNIT`, to a multiple of which everything is filled up. -/
def unitSize : Nat := 4

/-- One byte of an integer, the lowest eight bits of the number. -/
def byte (n : Nat) : Char := Char.ofNat (n % 256)

/-- An integer of 32 bits, in four bytes of which the highest comes first. -/
def encodeUInt (n : Nat) : List Char :=
  [byte (n / 2 ^ 24), byte (n / 2 ^ 16), byte (n / 2 ^ 8), byte n]

/-- The zeros behind `n` bytes, up to the next multiple of the unit. -/
def padding (n : Nat) : List Char := List.replicate ((unitSize - n % unitSize) % unitSize) '\x00'

/-- A string: its length as an integer, its bytes, and zeros up to the next unit. -/
def encodeString (s : List Char) : List Char := encodeUInt s.length ++ s ++ padding s.length

/-! ## Writing -/

/-- The routines of a library that write to a stream in memory.  A routine that fails has no
result, and `written` is what is in the memory before `xdr_getpos`.  A string may be
`NULL`. -/
structure Library (σ : Type) where
  xdrmemCreate : UInt32 → σ
  xdrEnum : σ → Nat → Option σ
  xdrUInt : σ → Nat → Option σ
  xdrBool : σ → Bool → Option σ
  xdrString : σ → Option (List Char) → Option σ
  written : σ → List Char

section Documented
variable {σ : Type}

/-- What a routine leaves of the stream `x` that was to take the bytes `bs`: they are behind
the others, or there was no room for them. -/
def Library.Puts (lib : Library σ) (size : σ → Nat) (x : σ) (bs : List Char) : Option σ → Prop
  | none => size x < (lib.written x).length + bs.length
  | some y => (lib.written x).length + bs.length ≤ size x ∧ size y = size x ∧
      lib.written y = lib.written x ++ bs

/-- **What is documented of the routines**, for streams of `size` bytes: an enumerator, an
unsigned integer and a boolean are integers, and a string that is not `NULL` is written
with its length.  Nothing is said about `NULL`, and nothing about strings whose length is
no integer. -/
structure Library.Documented (lib : Library σ) (size : σ → Nat) : Prop where
  create : ∀ n, size (lib.xdrmemCreate n) = n.toNat ∧ lib.written (lib.xdrmemCreate n) = []
  enum : ∀ x n, n < 2 ^ 31 → lib.Puts size x (encodeUInt n) (lib.xdrEnum x n)
  uInt : ∀ x n, n < UInt32.size → lib.Puts size x (encodeUInt n) (lib.xdrUInt x n)
  bool : ∀ x b, lib.Puts size x (encodeUInt (if b then 1 else 0)) (lib.xdrBool x b)
  string : ∀ x s, s.length < UInt32.size →
    lib.Puts size x (encodeString s) (lib.xdrString x (some s))

variable {lib : Library σ} {size : σ → Nat} {x : σ} {bs cs : List Char}

/-- What a function makes of a stream `x` that puts the bytes `bs` in it: all that is written
then, or nothing if there was no room. -/
def Library.Made (lib : Library σ) (size : σ → Nat) (x : σ) (bs : List Char)
    (r : Option (List Char)) : Prop :=
  (lib.written x).length ≤ size x →
    r = if (lib.written x).length + bs.length ≤ size x then some (lib.written x ++ bs) else none

/-- **Calls one after another** put their bytes one after another. -/
theorem Library.Puts.bind {r : Option σ} {f : σ → Option σ} (h : lib.Puts size x bs r)
    (hf : ∀ y, lib.Puts size y cs (f y)) : lib.Puts size x (bs ++ cs) (r.bind f) := by
  cases r with
  | none =>
    have hfull : size x < (lib.written x).length + bs.length := h
    show size x < (lib.written x).length + (bs ++ cs).length
    rw [List.length_append]
    omega
  | some y =>
    obtain ⟨hle, hsize, hwritten⟩ := h
    have hy := hf y
    rw [Option.bind_some]
    cases hfy : f y with
    | none =>
      rw [hfy] at hy
      have hfull : size y < (lib.written y).length + cs.length := hy
      show size x < (lib.written x).length + (bs ++ cs).length
      rw [hsize, hwritten, List.length_append] at hfull
      rw [List.length_append]
      omega
    | some z =>
      rw [hfy] at hy
      obtain ⟨hle', hsize', hwritten'⟩ := hy
      rw [hsize, hwritten, List.length_append] at hle'
      refine ⟨?_, hsize'.trans hsize, ?_⟩
      · rw [List.length_append]
        omega
      · rw [hwritten', hwritten, List.append_assoc]

/-- The end of a function: what is written so far. -/
theorem made_written : lib.Made size x [] (some (lib.written x)) := by
  intro hle
  rw [List.length_nil, List.append_nil, Nat.add_zero, if_pos hle]

/-- **A call and what follows it** make the bytes of both, if there is room for both. -/
theorem Library.Made.bind {r : Option σ} {f : σ → Option (List Char)}
    (h : lib.Puts size x bs r) (hf : ∀ y, lib.Made size y cs (f y)) :
    lib.Made size x (bs ++ cs) (r.bind f) := by
  intro hx
  cases r with
  | none =>
    have hfull : size x < (lib.written x).length + bs.length := h
    rw [if_neg (by rw [List.length_append]; omega)]
    rfl
  | some y =>
    obtain ⟨hle, hsize, hwritten⟩ := h
    have hy := hf y
    rw [Library.Made, hsize, hwritten, List.length_append] at hy
    rw [Option.bind_some, hy hle, List.length_append, List.append_assoc, Nat.add_assoc]

/-- A function that makes the bytes of a new stream. -/
theorem Library.Documented.made_create (hlib : lib.Documented size) {n : UInt32}
    {r : Option (List Char)} (h : lib.Made size (lib.xdrmemCreate n) bs r) :
    r = if bs.length ≤ n.toNat then some bs else none := by
  obtain ⟨hsize, hwritten⟩ := hlib.create n
  rw [Library.Made, hsize, hwritten, List.length_nil, Nat.zero_add, List.nil_append] at h
  exact h (Nat.zero_le _)

end Documented

/-- A stream into memory of `size` bytes: what has been written so far. -/
structure MemoryStream where
  size : Nat
  bytes : List Char

/-- Bytes are taken while there is room for all of them, and otherwise none. -/
def MemoryStream.putBytes (x : MemoryStream) (bs : List Char) : Option MemoryStream :=
  if x.bytes.length + bs.length ≤ x.size then some { x with bytes := x.bytes ++ bs } else none

/-- A library as it is documented, over streams in memory. -/
def memoryLibrary : Library MemoryStream where
  xdrmemCreate n := ⟨n.toNat, []⟩
  xdrEnum x n := x.putBytes (encodeUInt n)
  xdrUInt x n := x.putBytes (encodeUInt n)
  xdrBool x b := x.putBytes (encodeUInt (if b then 1 else 0))
  xdrString x s := s.bind fun s => x.putBytes (encodeString s)
  written := MemoryStream.bytes

theorem memoryLibrary_documented : memoryLibrary.Documented MemoryStream.size := by
  have hputs : ∀ x bs, memoryLibrary.Puts MemoryStream.size x bs (x.putBytes bs) := by
    intro x bs
    unfold MemoryStream.putBytes
    split
    · rename_i hle
      exact ⟨hle, rfl, rfl⟩
    · rename_i hfull
      exact Nat.lt_of_not_le hfull
  exact ⟨fun _ => ⟨rfl, rfl⟩, fun _ _ _ => hputs .., fun _ _ _ => hputs .., fun _ _ => hputs ..,
    fun _ _ _ => hputs ..⟩

/-! ## Lengths -/

theorem length_encodeUInt (n : Nat) : (encodeUInt n).length = 4 := rfl

/-- A string takes its length and at most three zeros more. -/
theorem length_encodeString (s : List Char) :
    (encodeString s).length = 4 + (s.length + 3) / 4 * 4 := by
  simp only [encodeString, padding, unitSize, List.length_append, length_encodeUInt,
    List.length_replicate]
  omega

/-! ## Reading -/

/-- A reader takes what it reads off the bytes, or fails. -/
abbrev Reader := StateT (List Char) Option

/-- What follows a reader that succeeds goes on behind what it has read. -/
theorem Reader.bind_eq {α β : Type} {r : Reader α} {f : α → Reader β} {a : α}
    {bs rest : List Char} (h : r bs = some (a, rest)) : (r >>= f) bs = f a rest := by
  show (r bs).bind (fun p => f p.1 p.2) = f a rest
  rw [h, Option.bind_some]

/-- An integer of 32 bits, from its four bytes. -/
def getUInt : Reader Nat
  | a :: b :: c :: d :: rest =>
    some (a.toNat * 2 ^ 24 + b.toNat * 2 ^ 16 + c.toNat * 2 ^ 8 + d.toNat, rest)
  | _ => none

/-- Some bytes, as many as are asked for. -/
def getBytes (n : Nat) : Reader (List Char) := fun bs =>
  if n ≤ bs.length then some (bs.take n, bs.drop n) else none

/-- A string with zeros up to the next unit, which must be zeros. -/
def getString : Reader (List Char) := do
  let n ← getUInt
  let s ← getBytes n
  let zeros ← getBytes (padding n).length
  if zeros = padding n then return s else failure

/-- A boolean, which is the integer 0 or 1 and nothing else. -/
def getBool : Reader Bool := do
  let n ← getUInt
  if n = 0 then return false else if n = 1 then return true else failure

theorem toNat_byte (n : Nat) : (byte n).toNat = n % 256 := by
  have hvalid : (n % 256).isValidChar := .inl (by omega)
  rw [byte, Char.ofNat, dif_pos hvalid]
  rfl

/-- **Reading an integer** that was written gives it back, whatever follows. -/
theorem getUInt_append {n : Nat} (hn : n < UInt32.size) (rest : List Char) :
    getUInt (encodeUInt n ++ rest) = some (n, rest) := by
  have hvalue : n / 2 ^ 24 % 256 * 2 ^ 24 + n / 2 ^ 16 % 256 * 2 ^ 16 + n / 2 ^ 8 % 256 * 2 ^ 8 +
      n % 256 = n := by
    unfold UInt32.size at hn
    omega
  simp only [encodeUInt, List.cons_append, List.nil_append, getUInt, toNat_byte, hvalue]

theorem getBytes_append (s rest : List Char) : getBytes s.length (s ++ rest) = some (s, rest) := by
  rw [getBytes, if_pos (by simp), List.take_left, List.drop_left]

/-- **Reading a string** that was written gives it back, whatever follows. -/
theorem getString_append {s : List Char} (hs : s.length < UInt32.size) (rest : List Char) :
    getString (encodeString s ++ rest) = some (s, rest) := by
  rw [getString, encodeString, List.append_assoc, List.append_assoc,
    Reader.bind_eq (getUInt_append hs _), Reader.bind_eq (getBytes_append s _),
    Reader.bind_eq (getBytes_append _ rest), if_pos rfl]
  rfl

theorem getBool_append (b : Bool) (rest : List Char) :
    getBool (encodeUInt (if b then 1 else 0) ++ rest) = some (b, rest) := by
  cases b with
  | false =>
    have hzero : 0 < UInt32.size := by decide
    rw [if_neg Bool.false_ne_true, getBool, Reader.bind_eq (getUInt_append hzero rest), if_pos rfl]
    rfl
  | true =>
    have hone : 1 < UInt32.size := by decide
    rw [if_pos rfl, getBool, Reader.bind_eq (getUInt_append hone rest), if_neg Nat.one_ne_zero,
      if_pos rfl]
    rfl

end Xdr
