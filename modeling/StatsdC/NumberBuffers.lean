import StatsdC.Daemon
import StatsdC.Management

/-!
# The buffers of the numbers

Numbers are formatted into buffers of a fixed size: 32 bytes in the macros `STREAM_SEND_*`, 30 in
`SEND_GMETRIC_*`, and 20 in `ltoa` and `ldtoa`.  A packet can carry a number of any magnitude, and a
counter grows without a bound, so that none of the sizes is enough; for a `long` all but the last
are.

What fits is a question of digits.  With six places behind the point a buffer of `k + 9` bytes holds
`k + 1` digits before it, or `k` and a sign, of the number as it is rounded
(`realBuffer_fits_iff`).  So there is a bound above and another one below zero, and each is the
number from which on the rounded one has a digit more.  For an integer there are no places, and the
bound is that of its digits (`integerBuffer_fits_iff`).

`numbersFit_iff` takes the smallest buffer there is, for every number in the tables and for one
`long`: all of them fit exactly if the numbers are within these bounds.  An infinity or a NaN is a
short text and always fits, and a zero with a minus sign has its sign.  Each buffer is a definition
under the name of the function or macro it is in.

`largeTables` is a state that can be reached with one packet and does not meet the condition.  The
management command that lists the counters faults for such a state
(`mgmtReply_counters_isOk_iff`).
-/

namespace StatsdC
open CString Decimal Fallible

/-! ## The buffers -/

/-- `sprintf` with `%f` or `%Lf` into a buffer of `size` bytes: six decimals, and as many digits
before the point as there are. -/
def realBuffer (size : Nat) (x : Num) : TextBuffer := ⟨size, printLf x⟩

/-- `sprintf` with `%d` or `%ld` into a buffer of `size` bytes: the digits, behind a minus if there
is one. -/
def integerBuffer (size : Nat) (z : Int) : TextBuffer := ⟨size, printD z⟩

/-- `STREAM_SEND_LONG`, which formats into 32 bytes. -/
def streamSendLong (y : Int) : TextBuffer := integerBuffer 32 y

/-- `STREAM_SEND_INT`, which formats into 32 bytes. -/
def streamSendInt (y : Int) : TextBuffer := integerBuffer 32 y

/-- `STREAM_SEND_DOUBLE`, which formats into 32 bytes. -/
def streamSendDouble (y : Num) : TextBuffer := realBuffer 32 y

/-- `STREAM_SEND_LONG_DOUBLE`, which formats into 32 bytes. -/
def streamSendLongDouble (y : Num) : TextBuffer := realBuffer 32 y

/-- `SEND_GMETRIC_DOUBLE`, which formats into the 30 bytes of `mystringvalue`. -/
def sendGmetricDouble (myvalue : Num) : TextBuffer := realBuffer 30 myvalue

/-- `SEND_GMETRIC_INT`, which formats into the 30 bytes of `mystringvalue`. -/
def sendGmetricInt (myvalue : Int) : TextBuffer := integerBuffer 30 myvalue

/-- `ltoa`, which allocates 20 bytes. -/
def ltoa (l : Int) : TextBuffer := integerBuffer 20 l

/-- `ldtoa`, which allocates 20 bytes as well, for a number that may have thousands of digits. -/
def ldtoa (ld : Num) : TextBuffer := realBuffer 20 ld

/-- The buffers that a value of the tables is formatted into, in whichever listing or report it
comes up. -/
def valueBuffers (x : Num) : List TextBuffer :=
  [streamSendDouble x, streamSendLongDouble x, sendGmetricDouble x, ldtoa x]

/-- The buffers that a `long` is formatted into, as it is or as an `int`. -/
def longBuffers (l : Int) : List TextBuffer :=
  [streamSendLong l, streamSendInt (intOfLong l), sendGmetricInt (intOfLong l), ltoa l]

/-- The values of the counters, gauges and timers, as the tables have them. -/
def storedValues (t : Tables Num) : List Num :=
  t.counters.map StatsdCounter.value ++
    (t.gauges.map StatsdGauge.value ++ t.timers.flatMap StatsdTimer.values)

/-- **Every formatted number fits its buffer**: the finite values in the tables, and the
`long` `l`. -/
def NumbersFit (t : Tables Num) (l : Int) : Prop :=
  (∀ x ∈ storedValues t, x.IsFinite → ∀ b ∈ valueBuffers x, b.Fits) ∧
    ∀ b ∈ longBuffers l, b.Fits

/-! ## The replies of the management interface -/

/-- A number is sent exactly if it fits, with its NUL, into the buffer it is formatted into. -/
theorem streamSendNumber_isOk_iff {text : CString} :
    (∃ text', streamSendNumber text = .ok text') ↔ (TextBuffer.mk 32 text).Fits := by
  unfold streamSendNumber TextBuffer.Fits
  by_cases h : text.length < 32
  · rw [if_pos h]
    exact iff_of_true ⟨text, rfl⟩ h
  · rw [if_neg h]
    exact iff_of_false nofun h

theorem counterLine_isOk_iff {s : StatsdCounter Num} :
    (∃ line, counterLine s = .ok line) ↔ (streamSendLongDouble s.value).Fits := by
  rw [← show _ ↔ (streamSendLongDouble s.value).Fits from streamSendNumber_isOk_iff]
  simp only [counterLine, bind_eq_ok, pure_eq_ok]
  constructor
  · intro ⟨line, value, hvalue, _⟩
    exact ⟨value, hvalue⟩
  · intro ⟨value, hvalue⟩
    exact ⟨_, value, hvalue, rfl⟩

/-- **The counters are listed** exactly if the number of each fits its buffer. -/
theorem mgmtReply_counters_isOk_iff {friendly : Bool} {t : Tables Num} :
    (∃ reply, mgmtReply friendly t .counters = .ok reply) ↔
      ∀ s ∈ t.counters, (streamSendLongDouble s.value).Fits := by
  simp only [← counterLine_isOk_iff, ← exists_mapM_ok_iff, mgmtReply, listing, bind_eq_ok,
    pure_eq_ok]
  constructor
  · intro ⟨_, _, ⟨lines, hlines, _⟩, _⟩
    exact ⟨lines, hlines⟩
  · intro ⟨lines, hlines⟩
    exact ⟨_, _, ⟨lines, hlines, rfl⟩, rfl⟩

/-! ## Which numbers fit -/

/-- The digits of a number that is rounded to six places. -/
theorem toNat_roundHalfEven_lt_iff {x : Rat} (hx : 0 ≤ x) (k : Nat) :
    (roundHalfEven (x * 10 ^ 6)).toNat < 10 ^ (k + 6) ↔ x < 10 ^ k - 1 / (2 * 10 ^ 6) := by
  have hnonneg : 0 ≤ roundHalfEven (x * 10 ^ 6) := roundHalfEven_nonneg (by positivity)
  have heven : (10 ^ (k + 6) : Int) % 2 = 0 := by
    rw [pow_succ]
    omega
  calc (roundHalfEven (x * 10 ^ 6)).toNat < 10 ^ (k + 6)
      ↔ roundHalfEven (x * 10 ^ 6) < 10 ^ (k + 6) := by
        rw [Int.toNat_lt hnonneg]
        push_cast
        rfl
    _ ↔ x * 10 ^ 6 < ((10 ^ (k + 6) : Int) : Rat) - 1 / 2 := roundHalfEven_lt_iff heven
    _ ↔ x < 10 ^ k - 1 / (2 * 10 ^ 6) := by
        push_cast
        rw [pow_add]
        generalize (10 : Rat) ^ k = m
        constructor <;> (intro h; linarith)

/-- **A number fits a buffer of `k + 9` bytes** if it has at most `k + 1` digits before
its point, or `k` behind a sign. -/
theorem realBuffer_fits_iff {q : Rat} {k : Nat} (hk : 0 < k) :
    (realBuffer (k + 9) (.fin q)).Fits ↔
      -(10 ^ k - 1 / (2 * 10 ^ 6)) < q ∧ q < 10 ^ (k + 1) - 1 / (2 * 10 ^ 6) := by
  have hone : ∀ j, (1 : Rat) ≤ 10 ^ j := fun j => one_le_pow₀ (by norm_num)
  have hsize : ∀ text : CString, text.length + 1 ≤ k + 9 ↔ text.length ≤ k + 8 := by
    intro text
    omega
  show (printLf (.fin q)).length + 1 ≤ k + 9 ↔ _
  rw [hsize, printLf]
  by_cases hneg : q < 0
  · have hdigits := @length_printFixed_le_iff 6 (roundHalfEven (|q| * 10 ^ 6)).toNat k
      (by decide) hk
    rw [toNat_roundHalfEven_lt_iff (abs_nonneg q)] at hdigits
    have hlen : ∀ text : CString, ('-' :: text).length ≤ k + 8 ↔ text.length ≤ k + 1 + 6 := by
      intro text
      rw [List.length_cons]
      omega
    simp only [if_pos hneg]
    rw [hlen, hdigits, abs_of_neg hneg]
    constructor
    · intro h
      exact ⟨by linarith, by linarith [hone (k + 1)]⟩
    · intro h
      linarith [h.1]
  · have hdigits := @length_printFixed_le_iff 6 (roundHalfEven (|q| * 10 ^ 6)).toNat (k + 1)
      (by decide) (Nat.succ_pos k)
    rw [toNat_roundHalfEven_lt_iff (abs_nonneg q)] at hdigits
    simp only [if_neg hneg]
    rw [hdigits, abs_of_nonneg (not_lt.mp hneg)]
    constructor
    · intro h
      exact ⟨by linarith [hone k], h⟩
    · intro h
      exact h.2

/-- A buffer of `k + 2` bytes holds an integer of `k + 1` digits, or of `k` behind a
sign. -/
theorem integerBuffer_fits_iff {z : Int} {k : Nat} (hk : 0 < k) :
    (integerBuffer (k + 2) z).Fits ↔ -(10 : Int) ^ k < z ∧ z < (10 : Int) ^ (k + 1) := by
  rw [← length_printInt_le_iff hk]
  exact Nat.add_le_add_iff_right

theorem exists_of_mem_valueBuffers {x : Num} {b : TextBuffer} (h : b ∈ valueBuffers x) :
    ∃ k, 0 < k ∧ k ≤ 23 ∧ b = realBuffer (k + 9) x := by
  simp only [valueBuffers, List.mem_cons, List.not_mem_nil, or_false] at h
  rcases h with rfl | rfl | rfl | rfl
  · exact ⟨23, by decide, by decide, rfl⟩
  · exact ⟨23, by decide, by decide, rfl⟩
  · exact ⟨21, by decide, by decide, rfl⟩
  · exact ⟨11, by decide, by decide, rfl⟩

/-- The values that fit every buffer: `ldtoa` has the smallest, and a minus takes a byte of it. -/
theorem valueBuffers_fit_iff {q : Rat} :
    (∀ b ∈ valueBuffers (.fin q), b.Fits) ↔
      -(10 ^ 11 - 1 / (2 * 10 ^ 6)) < q ∧ q < 10 ^ 12 - 1 / (2 * 10 ^ 6) := by
  have h32 : (realBuffer 32 (.fin q)).Fits ↔ _ := realBuffer_fits_iff (k := 23) (by decide)
  have h30 : (realBuffer 30 (.fin q)).Fits ↔ _ := realBuffer_fits_iff (k := 21) (by decide)
  have h20 : (realBuffer 20 (.fin q)).Fits ↔ _ := realBuffer_fits_iff (k := 11) (by decide)
  simp only [valueBuffers, streamSendDouble, streamSendLongDouble, sendGmetricDouble, ldtoa,
    List.forall_mem_cons, List.not_mem_nil, false_imp_iff, implies_true, and_true, h32, h30, h20]
  constructor
  · intro ⟨_, _, _, h⟩
    exact h
  · intro ⟨hlow, hhigh⟩
    norm_num at hlow hhigh ⊢
    exact ⟨⟨by linarith, by linarith⟩, ⟨by linarith, by linarith⟩, hlow, hhigh⟩

/-- A zero with a minus sign has nine bytes. -/
theorem valueBuffers_negZero_fit : ∀ b ∈ valueBuffers .negZero, b.Fits := by
  unfold TextBuffer.Fits
  decide

/-- The `long`s that fit every buffer: `ltoa` has the smallest, and needs it for eighteen
digits and a sign. -/
theorem longBuffers_fit_iff (l : Long) :
    (∀ b ∈ longBuffers l.value, b.Fits) ↔ -(10 : Int) ^ 18 < l.value := by
  have hle := l.le
  have hlt := l.lt
  have hint := intOfLong_bounds l.value
  have h32 : ∀ z, (integerBuffer 32 z).Fits ↔ _ := fun z => integerBuffer_fits_iff (k := 30)
    (by decide)
  have h30 : ∀ z, (integerBuffer 30 z).Fits ↔ _ := fun z => integerBuffer_fits_iff (k := 28)
    (by decide)
  have h20 : ∀ z, (integerBuffer 20 z).Fits ↔ _ := fun z => integerBuffer_fits_iff (k := 18)
    (by decide)
  simp only [longBuffers, streamSendLong, streamSendInt, sendGmetricInt, ltoa,
    List.forall_mem_cons, List.not_mem_nil, false_imp_iff, implies_true, and_true, h32, h30, h20]
  norm_num at hle hlt hint ⊢
  omega

/-- **When every number fits**: the values in the tables have at most twelve digits before
their point, or eleven and a sign, and the `long` has not nineteen digits and a sign. -/
theorem numbersFit_iff (t : Tables Num) (l : Long) :
    NumbersFit t l.value ↔
      (∀ q, .fin q ∈ storedValues t →
        -(10 ^ 11 - 1 / (2 * 10 ^ 6)) < q ∧ q < 10 ^ 12 - 1 / (2 * 10 ^ 6)) ∧
        -(10 : Int) ^ 18 < l.value := by
  unfold NumbersFit
  rw [longBuffers_fit_iff]
  refine and_congr_left' ⟨fun h q hq => valueBuffers_fit_iff.mp (h _ hq trivial), ?_⟩
  intro h x hx hfinite
  cases x with
  | fin q => exact valueBuffers_fit_iff.mpr (h q hx)
  | negZero => exact valueBuffers_negZero_fit
  | inf neg => exact hfinite.elim
  | nan => exact hfinite.elim

/-- The theorem for a process that has just started, and a `long` of two digits. -/
theorem numbersFit_start : NumbersFit startTables 10 :=
  (numbersFit_iff startTables ⟨10, by decide, by decide⟩).mpr ⟨nofun, by decide⟩

/-- The packet `{"counter":"k","value":"1e30"}`. -/
def largePacket : QueuedPacket where
  text := "\x7b\"counter\":\"k\",\"value\":\"1e30\"\x7d".toList
  nul_notMem := by decide
  length_le := by decide

/-- The tables once the counter `k` has received that value, rounded to a `double`. -/
def largeTables : Tables Num :=
  { startTables with counters := [⟨['k'], .fin (Binary64.round (10 ^ 30))⟩] }

theorem getDouble_large :
    (Json.string "1e30".toList).getDouble = .fin (Binary64.round (10 ^ 30)) := by
  have hread : sscanfLf "1e30".toList =
      some (.ofRat (((1 : Nat) : Rat) * 10 ^ ((30 : Int) - (0 : Nat)))) := rfl
  have hpow : ((1 : Nat) : Rat) * 10 ^ ((30 : Int) - (0 : Nat)) = 10 ^ 30 := by
    rw [Nat.cast_one, one_mul, Nat.cast_zero, sub_zero]
    exact zpow_natCast 10 30
  have hle : (10 : Rat) ^ 30 ≤ Num.dblMax := by
    refine le_trans ?_ (Num.two_pow_le_dblMax (k := 100) (by decide))
    norm_num
  rw [Json.getDouble, hread, hpow, Num.ofRat_of_nonneg (by positivity) hle, Option.getD_some]

/-- The number is not rounded below a power of two that it is not below. -/
theorem two_pow_le_round_large : (2 : Rat) ^ 99 ≤ Binary64.round (10 ^ 30) :=
  Binary64.le_round (Binary64.isValue_two_pow 99) (by norm_num)

theorem reachable_largeTables (firstByte : Num → Int) :
    (daemon firstByte).Reachable largeTables := by
  have happly : (DaemonEvent.packet largePacket 0).apply firstByte startTables =
      .ok largeTables := by
    refine @apply_jsonCounter firstByte largePacket 0 ['k'] (.string "1e30".toList) _ _
      (by decide) rfl rfl rfl ?_
    rw [getDouble_large]
    rfl
  exact (reachable_startTables firstByte).next happly

/-- **One packet** makes a counter that fits none of the buffers, and `-10 ^ 18` does not
fit that of `ltoa`. -/
theorem largeTables_numbers_not_fit : (daemon fun _ => 0).Reachable largeTables ∧
    (∃ q, .fin q ∈ storedValues largeTables ∧ ∀ b ∈ valueBuffers (.fin q), ¬ b.Fits) ∧
    ¬ (ltoa (-10 ^ 18)).Fits := by
  refine ⟨reachable_largeTables _, ⟨_, List.mem_cons_self .., ?_⟩, ?_⟩
  · intro b hb
    obtain ⟨k, hk, hle, rfl⟩ := exists_of_mem_valueBuffers hb
    have hpow : (10 : Rat) ^ (k + 1) ≤ 10 ^ 24 := pow_le_pow_right₀ (by norm_num) (by omega)
    rw [realBuffer_fits_iff hk]
    intro ⟨_, hhigh⟩
    have hlarge := two_pow_le_round_large
    norm_num at hhigh hpow hlarge
    linarith
  · have h20 : (ltoa (-10 ^ 18)).Fits ↔ _ := integerBuffer_fits_iff (k := 18) (by decide)
    rw [h20]
    exact fun h => absurd h.1 (by decide)

end StatsdC
