import Mathlib.Algebra.Group.Nat.Defs
import StatsdC.Lib.CString
import StatsdC.Lib.ChainedHash
import StatsdC.Lib.Fallible
import StatsdC.Lib.OrderedTable

/-!
# uthash

The hash table of `uthash.h`, as far as the daemon uses it: `HASH_FIND`, `HASH_ADD` with the
expansion of the buckets, and the walk in the order of insertion.  An element has two places: it is
in the list of all elements, which `next` and `prev` link, and its handle is in the chain of a
bucket, with the newest handle in front.

The counts of a table are `unsigned`, and nothing in the macros stops the doubling of the buckets: a
chain of ten handles asks for one, however few elements the table has, and `HASH_JEN` can be run
backwards, so that such keys can be made up.  Here an operation that would take a count past the
range of its type is a fault of its own, `overflow`, and no more is said about the table from there
on.  It does not come before the table has `2 ^ 31` buckets or `2 ^ 28` elements (`HasRoom`).  A
`malloc` that fails ends the process, and is left out.

`Fsck` is what `HASH_FSCK` checks when it is compiled in, and a bound of `expand_mult`.  An addition
keeps it, whether or not the buckets are expanded, and never divides by zero (`Fsck.hashAdd`); and
while keys are unique a lookup finds the position that a search of the whole list finds
(`Fsck.hashFind_eq`).  So a table is the list of its elements.
-/

namespace StatsdC
open CString OrderedTable Fallible ChainedHash

/-! ## `HASH_JEN` -/

/-- An `unsigned char` as an `unsigned`, as the bytes of a key are hashed. -/
def unsignedOfByte (c : Char) : UInt32 := UInt32.ofNat c.toNat

/-- `HASH_JEN_MIX`, on the three words of the hash, modulo `2 ^ 32`. -/
def hashJenMix (a b c : UInt32) : UInt32 × UInt32 × UInt32 :=
  let a := (a - b - c) ^^^ (c >>> 13)
  let b := (b - c - a) ^^^ (a <<< 8)
  let c := (c - a - b) ^^^ (b >>> 13)
  let a := (a - b - c) ^^^ (c >>> 12)
  let b := (b - c - a) ^^^ (a <<< 16)
  let c := (c - a - b) ^^^ (b >>> 5)
  let a := (a - b - c) ^^^ (c >>> 3)
  let b := (b - c - a) ^^^ (a <<< 10)
  let c := (c - a - b) ^^^ (b >>> 15)
  (a, b, c)

/-- Four bytes, the lowest one first; those that are not there count nothing. -/
def jenWord (key : List Char) (n : Nat) : UInt32 :=
  let byte (i : Nat) : UInt32 := (key[n + i]?.map unsignedOfByte).getD 0
  byte 0 + (byte 1 <<< 8) + (byte 2 <<< 16) + (byte 3 <<< 24)

/-- The loop over the `blocks` blocks of 12 bytes, with `_hj_i`, `_hj_j` and `hashv`, and
what it leaves. -/
def hashJenBlocks : Nat → UInt32 → UInt32 → UInt32 → List Char →
    UInt32 × UInt32 × UInt32 × List Char
  | 0, i, j, hashv, key => (i, j, hashv, key)
  | blocks + 1, i, j, hashv, key =>
    let m := hashJenMix (i + jenWord key 0) (j + jenWord key 4) (hashv + jenWord key 8)
    hashJenBlocks blocks m.1 m.2.1 m.2.2 (key.drop 12)

/-- `HASH_JEN`.  The cases of its `switch` fall through; the lowest byte of `hashv` is
left to the length. -/
def hashJen (key : List Char) : UInt32 :=
  let (i, j, hashv, rest) :=
    hashJenBlocks (key.length / 12) 0x9e3779b9 0x9e3779b9 0xfeedbeef key
  let hashv := hashv + UInt32.ofNat key.length
  let hashv := hashv + (jenWord rest 8 <<< 8)
  (hashJenMix (i + jenWord rest 0) (j + jenWord rest 4) hashv).2.2

/-! ## Tables -/

/-- `HASH_INITIAL_NUM_BUCKETS`, and its logarithm. -/
def hashInitialNumBuckets : Nat := 32
def hashInitialNumBucketsLog2 : Nat := 5

/-- `HASH_BKT_CAPACITY_THRESH`, the length of a chain from which the table is expanded. -/
def hashBktCapacityThresh : Nat := 10

/-- An operation that has no result, by a division or by a count beyond its type. -/
inductive UtFault where
  /-- `ideal_chain_maxlen` is 0 where it divides. -/
  | divisionByZero
  /-- A count would pass the range of `unsigned`. -/
  | overflow
  deriving DecidableEq

/-- The value of an expression of type `unsigned`, where a value beyond its range is a fault and
does not wrap. -/
def unsigned (n : Nat) : Except UtFault Nat :=
  if n < 2 ^ 32 then .ok n else .error .overflow

/-- `UT_hash_handle`, as it is in a bucket: the bytes of the key, and the position of the
element in the order of insertion. -/
structure UtHashHandle where
  key : List Char
  hashv : UInt32
  elmt : Nat

/-- `UT_hash_bucket`.  `chain` is what starts at `hh_head`, the newest handle first. -/
structure UtHashBucket where
  chain : List UtHashHandle
  count : Nat
  expandMult : Nat

/-- What `memset` leaves of a bucket. -/
def UtHashBucket.zero : UtHashBucket := ⟨[], 0, 0⟩

/-- `UT_hash_table`.  No chain has more than `numItems` handles, so only `numItems` and the
number of buckets can pass their range (`unsigned`). -/
structure UtHashTable where
  buckets : Nat → UtHashBucket
  numBuckets : Nat
  log2NumBuckets : Nat
  numItems : Nat
  idealChainMaxlen : Nat
  nonidealItems : Nat
  ineffExpands : Nat
  noexpand : Bool

namespace UtHashTable

/-- `HASH_MAKE_TABLE`, with 32 empty buckets. -/
def hashMakeTable : UtHashTable where
  buckets _ := .zero
  numBuckets := hashInitialNumBuckets
  log2NumBuckets := hashInitialNumBucketsLog2
  numItems := 0
  idealChainMaxlen := 0
  nonidealItems := 0
  ineffExpands := 0
  noexpand := false

/-- `HASH_TO_BKT`, the lowest bits of the hash value. -/
def hashToBkt (hashv : UInt32) (numBkts : Nat) : Nat := hashv.toNat &&& (numBkts - 1)

/-- The body of the loops of `HASH_EXPAND_BUCKETS`: a handle goes to its new bucket, in front of the
chain there. -/
def moveHandle (numBkts ideal : Nat) (s : (Nat → UtHashBucket) × Nat) (thh : UtHashHandle) :
    Except UtFault ((Nat → UtHashBucket) × Nat) :=
  let bkt := hashToBkt thh.hashv numBkts
  let newbkt := s.1 bkt
  let count := newbkt.count + 1
  if ideal < count then
    if ideal = 0 then .error .divisionByZero
    else
      .ok (Function.update s.1 bkt ⟨thh :: newbkt.chain, count, count / ideal⟩, s.2 + 1)
  else
    .ok (Function.update s.1 bkt ⟨thh :: newbkt.chain, count, newbkt.expandMult⟩, s.2)

/-- `HASH_EXPAND_BUCKETS`, which doubles the buckets and redistributes the handles. -/
def hashExpandBuckets (tbl : UtHashTable) : Except UtFault UtHashTable := do
  let numBuckets ← unsigned (tbl.numBuckets * 2)
  let ideal := (tbl.numItems >>> (tbl.log2NumBuckets + 1)) +
    (if tbl.numItems &&& (numBuckets - 1) ≠ 0 then 1 else 0)
  let (buckets, nonideal) ←
    (contents tbl.numBuckets fun b => (tbl.buckets b).chain).foldlM
      (moveHandle numBuckets ideal) (fun _ => .zero, 0)
  let ineffExpands := if tbl.numItems >>> 1 < nonideal then tbl.ineffExpands + 1 else 0
  return {
    buckets
    numBuckets
    log2NumBuckets := tbl.log2NumBuckets + 1
    numItems := tbl.numItems
    idealChainMaxlen := ideal
    nonidealItems := nonideal
    ineffExpands
    noexpand := if 1 < ineffExpands then true else tbl.noexpand }

/-- `HASH_ADD_TO_BKT`, which may expand the table once its handle is in the chain. -/
def hashAddToBkt (tbl : UtHashTable) (bkt : Nat) (addhh : UtHashHandle) :
    Except UtFault UtHashTable := do
  let head := tbl.buckets bkt
  let count := head.count + 1
  let tbl := { tbl with
    buckets := Function.update tbl.buckets bkt ⟨addhh :: head.chain, count, head.expandMult⟩ }
  let capacity ← unsigned ((head.expandMult + 1) * hashBktCapacityThresh)
  if capacity ≤ count ∧ ¬ tbl.noexpand then
    tbl.hashExpandBuckets
  else
    .ok tbl

/-- `HASH_FIND_IN_BKT`, which compares the keys along the chain. -/
def hashFindInBkt (tbl : UtHashTable) (bkt : Nat) (key : List Char) : Option UtHashHandle :=
  (tbl.buckets bkt).chain.find? fun hh => hh.key = key

end UtHashTable

/-- A head pointer: the elements in the order of insertion, and their table.  Without
elements the pointer is `NULL`. -/
structure UtHash (ε : Type) where
  elements : List ε
  tbl : Option UtHashTable

namespace UtHash
variable {ε : Type}

/-- `NULL`, the head pointer before the first addition. -/
def null : UtHash ε := ⟨[], none⟩

/-- `HASH_FIND`: the position of the element whose key has these bytes, if there is one. -/
def hashFind (u : UtHash ε) (key : List Char) : Option Nat :=
  match u.tbl with
  | none => none
  | some tbl =>
    (tbl.hashFindInBkt (UtHashTable.hashToBkt (hashJen key) tbl.numBuckets) key).map
      UtHashHandle.elmt

/-- `HASH_ADD`, of an element with the bytes `key` in its key field. -/
def hashAdd (u : UtHash ε) (key : List Char) (add : ε) : Except UtFault (UtHash ε) := do
  let tbl := u.tbl.getD .hashMakeTable
  let numItems ← unsigned (tbl.numItems + 1)
  let tbl := { tbl with numItems }
  let hashv := hashJen key
  let tbl ← tbl.hashAddToBkt (UtHashTable.hashToBkt hashv tbl.numBuckets)
    ⟨key, hashv, u.elements.length⟩
  return ⟨u.elements ++ [add], some tbl⟩

/-- The element at a pointer is written to, outside its key. -/
def modify (u : UtHash ε) (i : Nat) (g : ε → ε) : UtHash ε :=
  { u with elements := u.elements.modify i g }

end UtHash

/-! ## What `HASH_FSCK` checks -/

/-- The handles of elements with the keys `keys`, the first one at position `n`, and so on in their
order. -/
def handlesFrom : Nat → List (List Char) → List UtHashHandle
  | _, [] => []
  | n, key :: keys => ⟨key, hashJen key, n⟩ :: handlesFrom (n + 1) keys

/-- A bucket: its count is right, and the multiple of the usual length at which it is
expanded again is no more than the count. -/
structure UtHashBucket.Fsck (bucket : UtHashBucket) : Prop where
  count : bucket.count = bucket.chain.length
  expandMult : bucket.expandMult ≤ bucket.count

/-- The table over the handles `handles`: as many buckets as its logarithm says, a handle
in the bucket of its hash value, and counts that are right. -/
structure UtHashTable.Fsck (tbl : UtHashTable) (handles : List UtHashHandle) : Prop where
  numBuckets : tbl.numBuckets = 2 ^ tbl.log2NumBuckets
  numItems : tbl.numItems = handles.length
  chained : Chained tbl.numBuckets (fun hh : UtHashHandle => hh.hashv.toNat)
    (fun b => (tbl.buckets b).chain) handles
  buckets : ∀ b, (tbl.buckets b).Fsck

/-- The bounds below which no count of the table passes its range in an addition. -/
structure UtHashTable.HasRoom (tbl : UtHashTable) : Prop where
  numBuckets : tbl.numBuckets < 2 ^ 31
  numItems : tbl.numItems < 2 ^ 28

/-- **The invariant of a head pointer.** -/
structure UtHash.Fsck {ε : Type} (keyOf : ε → List Char) (u : UtHash ε) : Prop where
  null : u.tbl = none → u.elements = []
  table : ∀ tbl, u.tbl = some tbl → tbl.Fsck (handlesFrom 0 (u.elements.map keyOf))

/-- The table that an addition finds, a new one for a head pointer that is `NULL`, is within its
bounds. -/
def UtHash.HasRoom {ε : Type} (u : UtHash ε) : Prop := (u.tbl.getD .hashMakeTable).HasRoom

section Handles
variable {n : Nat} {keys : List (List Char)} {hh hh' : UtHashHandle}

theorem handlesFrom_append (key : List Char) :
    handlesFrom n (keys ++ [key]) =
      handlesFrom n keys ++ [⟨key, hashJen key, n + keys.length⟩] := by
  induction keys generalizing n with
  | nil => rfl
  | cons k keys ih =>
    rw [List.cons_append, handlesFrom, ih, handlesFrom, List.cons_append, List.length_cons,
      Nat.add_right_comm, Nat.add_assoc]

theorem of_mem_handlesFrom (h : hh ∈ handlesFrom n keys) :
    hh.key ∈ keys ∧ hh.hashv = hashJen hh.key := by
  induction keys generalizing n with
  | nil => cases h
  | cons key keys ih =>
    rcases List.mem_cons.mp h with rfl | h
    · exact ⟨List.mem_cons_self .., rfl⟩
    · exact ⟨List.mem_cons_of_mem _ (ih h).1, (ih h).2⟩

/-- Keys that are unique have one handle each, so that a key tells the handle. -/
theorem handlesFrom_unique (hnd : keys.Nodup) (h : hh ∈ handlesFrom n keys)
    (h' : hh' ∈ handlesFrom n keys) (hkey : hh.key = hh'.key) : hh = hh' := by
  induction keys generalizing n with
  | nil => cases h
  | cons key keys ih =>
    obtain ⟨hnotMem, hnd⟩ := List.nodup_cons.mp hnd
    rcases List.mem_cons.mp h with rfl | h <;> rcases List.mem_cons.mp h' with rfl | h'
    · rfl
    · have hmem := (of_mem_handlesFrom h').1
      rw [← hkey] at hmem
      exact absurd hmem hnotMem
    · have hmem := (of_mem_handlesFrom h).1
      rw [hkey] at hmem
      exact absurd hmem hnotMem
    · exact ih hnd h h'

/-- Searching all handles is searching all keys, with the positions counted from `n`. -/
theorem find?_handlesFrom (k : List Char) :
    ((handlesFrom n keys).find? fun hh => hh.key = k).map UtHashHandle.elmt =
      (find id keys k).map (· + n) := by
  induction keys generalizing n with
  | nil => rfl
  | cons key keys ih =>
    rw [handlesFrom, find, List.findIdx?_cons, List.find?_cons]
    by_cases hkey : key = k
    · simp [hkey]
    · have hrest := @ih (n + 1)
      rw [find] at hrest
      simp only [id_eq, hkey, decide_false, Bool.false_eq_true, if_false, Option.map_map, hrest]
      congr 1
      funext i
      simp only [Function.comp_apply]
      omega

end Handles

namespace UtHashTable

/-- The bucket of a hash value is its remainder, since the number of buckets is a power of two. -/
theorem hashToBkt_two_pow (hashv : UInt32) (k : Nat) :
    hashToBkt hashv (2 ^ k) = hashv.toNat % 2 ^ k := Nat.and_two_pow_sub_one_eq_mod ..

/-- The ideal length of a chain is not 0 where there are items, so that the division by it has a
result. -/
theorem ideal_pos {n : Nat} (hn : 0 < n) (k : Nat) :
    0 < (n >>> k) + (if n &&& (2 ^ k - 1) ≠ 0 then 1 else 0) := by
  rw [Nat.and_two_pow_sub_one_eq_mod, Nat.shiftRight_eq_div_pow]
  split
  · exact Nat.succ_pos _
  · rename_i hmod
    have hdvd := Nat.div_add_mod n (2 ^ k)
    rw [not_not.mp hmod, Nat.add_zero] at hdvd
    refine Nat.pos_of_ne_zero fun hzero => ?_
    rw [Nat.add_zero] at hzero
    rw [hzero, Nat.mul_zero] at hdvd
    omega

section Move
variable {k ideal : Nat} {s : (Nat → UtHashBucket) × Nat}

/-- A handle that moves is pushed in front of its chain, and the counts of its bucket are right
afterwards. -/
theorem moveHandle_ok (hideal : 0 < ideal) (hbuckets : ∀ b, (s.1 b).Fsck) (hh : UtHashHandle) :
    ∃ s', moveHandle (2 ^ k) ideal s hh = .ok s' ∧
      (fun b => (s'.1 b).chain) =
        push (2 ^ k) (fun hh : UtHashHandle => hh.hashv.toNat) (fun b => (s.1 b).chain) hh ∧
      ∀ b, (s'.1 b).Fsck := by
  have hbucket := hbuckets (hashToBkt hh.hashv (2 ^ k))
  have hupdate : ∀ expandMult ≤ (s.1 (hashToBkt hh.hashv (2 ^ k))).count + 1,
      let bucket : UtHashBucket := ⟨hh :: (s.1 (hashToBkt hh.hashv (2 ^ k))).chain,
        (s.1 (hashToBkt hh.hashv (2 ^ k))).count + 1, expandMult⟩
      let buckets := Function.update s.1 (hashToBkt hh.hashv (2 ^ k)) bucket
      (fun b => (buckets b).chain) =
          push (2 ^ k) (fun hh : UtHashHandle => hh.hashv.toNat) (fun b => (s.1 b).chain) hh ∧
        ∀ b, (buckets b).Fsck := by
    intro expandMult hle bucket buckets
    rw [push, ← hashToBkt_two_pow]
    constructor
    · funext b
      by_cases hb : b = hashToBkt hh.hashv (2 ^ k)
      · simp [buckets, bucket, hb]
      · simp [buckets, hb]
    · intro b
      by_cases hb : b = hashToBkt hh.hashv (2 ^ k)
      · refine ⟨?_, ?_⟩
        · simp [buckets, bucket, hb, hbucket.count]
        · simpa [buckets, bucket, hb] using hle
      · simpa [buckets, hb] using hbuckets b
  simp only [moveHandle, if_neg hideal.ne']
  split
  · exact ⟨_, rfl, hupdate _ (Nat.div_le_self ..)⟩
  · exact ⟨_, rfl, hupdate _ (Nat.le_succ_of_le hbucket.expandMult)⟩

theorem moveAll_ok (hideal : 0 < ideal) (hbuckets : ∀ b, (s.1 b).Fsck)
    (hhs : List UtHashHandle) :
    ∃ s', hhs.foldlM (moveHandle (2 ^ k) ideal) s = .ok s' ∧
      (fun b => (s'.1 b).chain) =
        hhs.foldl (push (2 ^ k) fun hh : UtHashHandle => hh.hashv.toNat)
          (fun b => (s.1 b).chain) ∧
      ∀ b, (s'.1 b).Fsck := by
  induction hhs generalizing s with
  | nil => exact ⟨s, rfl, rfl, hbuckets⟩
  | cons hh hhs ih =>
    obtain ⟨s₁, hmove, hchain, hbuckets₁⟩ := moveHandle_ok (k := k) hideal hbuckets hh
    obtain ⟨s', hfold, hchain', hbuckets'⟩ := ih hbuckets₁
    refine ⟨s', ?_, ?_, hbuckets'⟩
    · rw [List.foldlM_cons, hmove]
      exact hfold
    · rw [hchain', hchain, List.foldl_cons]

end Move

variable {tbl : UtHashTable} {handles : List UtHashHandle}

theorem unsigned_ok {n : Nat} (hn : n < 2 ^ 32) : unsigned n = .ok n := if_pos hn

theorem unsigned_overflow {n : Nat} (hn : ¬ n < 2 ^ 32) : unsigned n = .error .overflow :=
  if_neg hn

theorem fsck_zero : UtHashBucket.zero.Fsck := ⟨rfl, Nat.le_refl _⟩

theorem fsck_hashMakeTable : hashMakeTable.Fsck [] :=
  ⟨rfl, rfl, chained_nil, fun _ => fsck_zero⟩

/-- No chain is longer than the list of all handles. -/
theorem Fsck.count_le (h : tbl.Fsck handles) {b : Nat} (hb : b < tbl.numBuckets) :
    (tbl.buckets b).count ≤ tbl.numItems := by
  rw [(h.buckets b).count, h.numItems, (h.chained b hb).length_eq]
  exact List.length_filter_le ..

/-- **`HASH_EXPAND_BUCKETS`** of a table with items has a result, over the same handles,
unless the number of buckets cannot be doubled. -/
theorem Fsck.hashExpandBuckets (h : tbl.Fsck handles) (hne : handles ≠ []) :
    (∃ tbl', tbl.hashExpandBuckets = .ok tbl' ∧ tbl'.Fsck handles) ∨
      tbl.hashExpandBuckets = .error .overflow ∧ 2 ^ 31 ≤ tbl.numBuckets := by
  by_cases hfit : tbl.numBuckets * 2 < 2 ^ 32
  swap
  · refine .inr ⟨?_, by omega⟩
    rw [UtHashTable.hashExpandBuckets, unsigned_overflow hfit]
    rfl
  have hpos : 0 < tbl.numItems := by
    rw [h.numItems]
    exact List.length_pos_iff.mpr hne
  have hdouble : tbl.numBuckets * 2 = 2 ^ (tbl.log2NumBuckets + 1) := by
    rw [h.numBuckets, Nat.pow_succ]
  have hideal := ideal_pos hpos (tbl.log2NumBuckets + 1)
  obtain ⟨s, hmove, hchain, hcounts⟩ := moveAll_ok (k := tbl.log2NumBuckets + 1)
    (s := (fun _ => .zero, 0)) hideal (fun _ => fsck_zero)
    (contents tbl.numBuckets fun b => (tbl.buckets b).chain)
  obtain ⟨tbl', hexpand, hbuckets, hnum, hlog, hitems⟩ :
      ∃ tbl', tbl.hashExpandBuckets = .ok tbl' ∧ tbl'.buckets = s.1 ∧
        tbl'.numBuckets = 2 ^ (tbl.log2NumBuckets + 1) ∧
        tbl'.log2NumBuckets = tbl.log2NumBuckets + 1 ∧ tbl'.numItems = tbl.numItems := by
    rw [UtHashTable.hashExpandBuckets, unsigned_ok hfit, hdouble, Fallible.ok_bind]
    dsimp only
    rw [hmove]
    exact ⟨_, rfl, rfl, rfl, rfl, rfl⟩
  refine .inl ⟨tbl', hexpand, by rw [hnum, hlog], by rw [hitems, h.numItems], ?_, fun b => ?_⟩
  · rw [hbuckets, hnum, hchain]
    exact h.chained.redistribute (h.numBuckets ▸ Nat.two_pow_pos _) _
  · rw [hbuckets]
    exact hcounts b

/-- **`HASH_ADD_TO_BKT`** has a result, with the new handle and all others, in a table that
has room. -/
theorem Fsck.hashAddToBkt (h : tbl.Fsck handles) (hh : UtHashHandle) :
    (∃ tbl', { tbl with numItems := tbl.numItems + 1 }.hashAddToBkt
        (hashToBkt hh.hashv tbl.numBuckets) hh = .ok tbl' ∧ tbl'.Fsck (handles ++ [hh])) ∨
      { tbl with numItems := tbl.numItems + 1 }.hashAddToBkt
        (hashToBkt hh.hashv tbl.numBuckets) hh = .error .overflow ∧ ¬ tbl.HasRoom := by
  have hbkt : hashToBkt hh.hashv tbl.numBuckets = hh.hashv.toNat % tbl.numBuckets := by
    rw [h.numBuckets, hashToBkt_two_pow]
  have hadded : ∀ head : UtHashBucket, head = tbl.buckets (hashToBkt hh.hashv tbl.numBuckets) →
      UtHashTable.Fsck { tbl with
        numItems := tbl.numItems + 1
        buckets := Function.update tbl.buckets (hashToBkt hh.hashv tbl.numBuckets)
          ⟨hh :: head.chain, head.count + 1, head.expandMult⟩ } (handles ++ [hh]) := by
    rintro head rfl
    refine ⟨h.numBuckets, ?_, ?_, fun b => ?_⟩
    · rw [List.length_append, List.length_singleton, ← h.numItems]
    · have hpush := h.chained.push hh
      rw [ChainedHash.push, ← hbkt] at hpush
      intro b hb
      have hchain := hpush b hb
      by_cases hbb : b = hashToBkt hh.hashv tbl.numBuckets
      · subst hbb
        simpa using hchain
      · simpa [hbb] using hchain
    · by_cases hb : b = hashToBkt hh.hashv tbl.numBuckets
      · have hbucket := h.buckets b
        refine ⟨?_, ?_⟩
        · simp [← hb, hbucket.count]
        · simpa [← hb] using Nat.le_succ_of_le hbucket.expandMult
      · simpa [hb] using h.buckets b
  unfold UtHashTable.hashAddToBkt
  dsimp only
  by_cases hfit : ((tbl.buckets (hashToBkt hh.hashv tbl.numBuckets)).expandMult + 1) *
      hashBktCapacityThresh < 2 ^ 32
  · rw [unsigned_ok hfit, Fallible.ok_bind]
    split
    · rcases (hadded _ rfl).hashExpandBuckets (by simp) with hok | ⟨herror, hmany⟩
      · exact .inl hok
      · exact .inr ⟨herror, fun hroom => Nat.not_lt.mpr hmany hroom.numBuckets⟩
    · exact .inl ⟨_, rfl, hadded _ rfl⟩
  · refine .inr ⟨by rw [unsigned_overflow hfit]; rfl, fun hroom => hfit ?_⟩
    -- the multiple is no more than the chain is long
    have hcount := h.count_le (b := hashToBkt hh.hashv tbl.numBuckets) (by
      rw [hbkt]
      exact Nat.mod_lt _ (h.numBuckets ▸ Nat.two_pow_pos _))
    have hmult := (h.buckets (hashToBkt hh.hashv tbl.numBuckets)).expandMult
    have hitems := hroom.numItems
    rw [hashBktCapacityThresh]
    omega

/-- **`HASH_FIND_IN_BKT`** finds the handle that is in the table. -/
theorem Fsck.hashFindInBkt {keys : List (List Char)} (h : tbl.Fsck (handlesFrom 0 keys))
    (hnd : keys.Nodup) (k : List Char) :
    (tbl.hashFindInBkt (hashToBkt (hashJen k) tbl.numBuckets) k).map UtHashHandle.elmt =
      find id keys k := by
  have hfind := @find?_handlesFrom 0 keys k
  rw [UtHashTable.hashFindInBkt, h.numBuckets, hashToBkt_two_pow, ← h.numBuckets,
    h.chained.find?_eq (p := fun hh => hh.key = k), hfind]
  · simp
  · exact Nat.mod_lt _ (h.numBuckets ▸ Nat.two_pow_pos _)
  · intro hh hmem hkey
    rw [(of_mem_handlesFrom hmem).2, of_decide_eq_true hkey]
  · intro hh hmem hh' hmem' hkey hkey'
    exact handlesFrom_unique hnd hmem hmem'
      ((of_decide_eq_true hkey).trans (of_decide_eq_true hkey').symm)

end UtHashTable

/-! ## A table is the list of its elements -/

theorem fsck_null {ε : Type} (keyOf : ε → List Char) : (UtHash.null : UtHash ε).Fsck keyOf :=
  ⟨fun _ => rfl, nofun⟩

namespace UtHash.Fsck
variable {ε : Type} {keyOf : ε → List Char} {u : UtHash ε}

/-- **`HASH_ADD`** has a result if the table has room: the element is behind the others. -/
theorem hashAdd (h : u.Fsck keyOf) (add : ε) :
    (∃ u', u.hashAdd (keyOf add) add = .ok u' ∧ u'.elements = u.elements ++ [add] ∧
      u'.Fsck keyOf) ∨
      u.hashAdd (keyOf add) add = .error .overflow ∧ ¬ u.HasRoom := by
  have htbl : (u.tbl.getD .hashMakeTable).Fsck (handlesFrom 0 (u.elements.map keyOf)) := by
    cases htbl : u.tbl with
    | none =>
      rw [h.null htbl]
      exact UtHashTable.fsck_hashMakeTable
    | some tbl => exact h.table tbl htbl
  unfold UtHash.hashAdd
  dsimp only
  by_cases hfit : (u.tbl.getD .hashMakeTable).numItems + 1 < 2 ^ 32
  swap
  · refine .inr ⟨by rw [UtHashTable.unsigned_overflow hfit]; rfl, fun hroom => hfit ?_⟩
    have hitems := hroom.numItems
    omega
  rw [UtHashTable.unsigned_ok hfit, ok_bind]
  rcases htbl.hashAddToBkt ⟨keyOf add, hashJen (keyOf add), u.elements.length⟩ with
    ⟨tbl', hadd, hfsck⟩ | ⟨herror, hroom⟩
  · refine .inl ⟨⟨u.elements ++ [add], some tbl'⟩, ?_, rfl, nofun, ?_⟩
    · rw [hadd]
      rfl
    · rintro tbl ⟨⟩
      rw [List.map_append, List.map_singleton, handlesFrom_append, List.length_map, Nat.zero_add]
      exact hfsck
  · refine .inr ⟨?_, hroom⟩
    rw [herror]
    rfl

/-- **`HASH_FIND`** finds what a search of the elements finds, keys being unique. -/
theorem hashFind_eq (h : u.Fsck keyOf) (hnd : (u.elements.map keyOf).Nodup) (k : List Char) :
    u.hashFind k = find keyOf u.elements k := by
  have hkeys : find keyOf u.elements k = find id (u.elements.map keyOf) k :=
    find_congr fun _ _ => .rfl
  rw [hkeys]
  unfold UtHash.hashFind
  cases htbl : u.tbl with
  | none =>
    rw [h.null htbl]
    rfl
  | some tbl => exact (h.table tbl htbl).hashFindInBkt hnd k

/-- Writing to the elements outside their keys changes no bucket, so that the table stays as it is
checked. -/
theorem withElements (h : u.Fsck keyOf) {es : List ε} (hes : es.map keyOf = u.elements.map keyOf) :
    UtHash.Fsck keyOf { u with elements := es } := by
  refine ⟨fun htbl => ?_, fun tbl htbl => ?_⟩
  · rw [h.null htbl] at hes
    exact List.map_eq_nil_iff.mp hes
  · dsimp only
    rw [hes]
    exact h.table tbl htbl

theorem modify (h : u.Fsck keyOf) {i : Nat} {g : ε → ε} (hg : ∀ e, keyOf (g e) = keyOf e) :
    (u.modify i g).Fsck keyOf := h.withElements (map_modify hg)

end UtHash.Fsck
end StatsdC
