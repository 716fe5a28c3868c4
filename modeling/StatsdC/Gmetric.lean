import StatsdC.GraphitePayload
import StatsdC.Lib.Xdr
import StatsdC.NumberBuffers

/-!
# The datagrams for Ganglia

`embeddedgmetric.c`: a metric is sent as two datagrams, its metadata and its value, each of which is
built in a buffer of 1024 bytes.  What does not fit is not cut off: the function that builds the
datagram fails, and `sendto` fails with the length of -1 that it is given.

The datagrams are built with the XDR library of the system.  It is a parameter here, and all that is
assumed of it is what its documentation says of a stream in memory (`Xdr.Library.Documented`).  The
socket is a parameter as well: a function that tells which datagrams it takes.

A datagram that was built can be read back field by field (`gmetricSend_decodes`), as long as the
type of the message is known: with the type 0 the number in front of the value is the one that
stands for metadata.  From a reachable state every datagram of a pass fits, unless the prefix or the
spoofed host is very long, so that what is read back from all of them is the report
(`gmetricPass_decodes`).  The values of a pass are formatted into 30 bytes first, which a large
number does not fit; a pass with such a number is not one of those that the theorem is about.

The reader (`readDatagram`) is written from the format alone, in the order of its fields, and is no
part of the program.  Of what `gmetric_send` returns it matters only whether that is -1: otherwise
it is the number of bytes of the second datagram, and not that of both.
-/

namespace StatsdC
open CString Decimal Xdr

/-! ## Messages -/

/-- `gmetric_value_t`, with the numbers that `GmetricValueT.toNat` gives. -/
inductive GmetricValueT where
  | unknown | string | unsignedShort | short | unsignedInt | int | float | double
  deriving DecidableEq

/-- The number of a type, as the enumeration counts. -/
def GmetricValueT.toNat : GmetricValueT → Nat
  | unknown => 0
  | string => 1
  | unsignedShort => 2
  | short => 3
  | unsignedInt => 4
  | int => 5
  | float => 6
  | double => 7

/-- `typestrings`, by the number of the type; that of an unknown one is empty. -/
def typestrings : GmetricValueT → CString
  | .unknown => "".toList
  | .string => "string".toList
  | .unsignedShort => "uint16".toList
  | .short => "int16".toList
  | .unsignedInt => "uint32".toList
  | .int => "int32".toList
  | .float => "float".toList
  | .double => "double".toList

/-- `gmetric_slope_t`, of which the daemon uses one. -/
inductive GmetricSlopeT where
  | zero | positive | negative | both | unspecified
  deriving DecidableEq

/-- The number of a slope. -/
def GmetricSlopeT.toNat : GmetricSlopeT → Nat
  | zero => 0
  | positive => 1
  | negative => 2
  | both => 3
  | unspecified => 4

/-- `gmetric_format_t`: the two protocols that a receiver may speak. -/
inductive GmetricFormatT where
  | format25 | format31
  deriving DecidableEq

/-- `gmetric_message_t`.  A `NULL` is `none`, and the value is always used as a string. -/
structure GmetricMessageT where
  type : GmetricValueT
  format : GmetricFormatT
  hostname : Option CString
  spoof : Bool
  name : Option CString
  group : Option CString
  units : Option CString
  typestr : Option CString
  slope : GmetricSlopeT
  tmax : UInt32
  dmax : UInt32
  value : Option CString

/-- `GMETRIC_MAX_MESSAGE_LEN`, the size of the buffer on the stack. -/
def gmetricMaxMessageLen : UInt32 := 1024

/-- The text of the type: that of the message, unless it is `NULL` or empty, and then that of its
number. -/
def GmetricMessageT.typeText (msg : GmetricMessageT) : CString :=
  match msg.typestr with
  | some (c :: s) => c :: s
  | some [] | none => typestrings msg.type

section Create
variable {σ : Type} (lib : Library σ)

/-- `gmetric_message_create_xdr`, for the old format: one datagram with the number 0 in front. -/
def gmetricMessageCreateXdr (len : UInt32) (msg : GmetricMessageT) : Option (List Char) := do
  let x := lib.xdrmemCreate len
  let x ← lib.xdrEnum x 0
  let x ← lib.xdrString x msg.typeText
  let x ← lib.xdrString x msg.name
  let x ← lib.xdrString x msg.value
  let x ← lib.xdrString x msg.units
  let x ← lib.xdrUInt x msg.slope.toNat
  let x ← lib.xdrUInt x msg.tmax.toNat
  let x ← lib.xdrUInt x msg.dmax.toNat
  return lib.written x

/-- The end of `gmetadata_message_create_xdr`: how many pairs of extra data there are, and
the pair of the group. -/
def putGroup (x : σ) : Option CString → Option σ
  | none | some [] => lib.xdrUInt x 0
  | some group => do
    let x ← lib.xdrUInt x 1
    let x ← lib.xdrString x "GROUP".toList
    lib.xdrString x group

/-- `gmetadata_message_create_xdr`: the metadata, with the number 128 in front. -/
def gmetadataMessageCreateXdr (len : UInt32) (msg : GmetricMessageT) : Option (List Char) := do
  let x := lib.xdrmemCreate len
  let x ← lib.xdrEnum x 128
  let x ← lib.xdrString x msg.hostname
  let x ← lib.xdrString x msg.name
  let x ← lib.xdrBool x msg.spoof
  let x ← lib.xdrString x msg.typeText
  let x ← lib.xdrString x msg.name
  let x ← lib.xdrString x msg.units
  let x ← lib.xdrUInt x msg.slope.toNat
  let x ← lib.xdrUInt x msg.tmax.toNat
  let x ← lib.xdrUInt x msg.dmax.toNat
  let x ← putGroup lib x msg.group
  return lib.written x

/-- `gmetric31_message_create_xdr`: the value, with 128 and the number of its type in front. -/
def gmetric31MessageCreateXdr (len : UInt32) (msg : GmetricMessageT) : Option (List Char) := do
  let x := lib.xdrmemCreate len
  let x ← lib.xdrEnum x (128 + msg.type.toNat)
  let x ← lib.xdrString x msg.hostname
  let x ← lib.xdrString x msg.name
  let x ← lib.xdrBool x msg.spoof
  let x ← lib.xdrString x "%s".toList
  let x ← lib.xdrString x msg.value
  return lib.written x

/-- `gmetric_send_xdr`: the datagram that is sent, if any.  A length of -1 is no length of a
datagram, and `sendto` fails. -/
def gmetricSendXdr (sendto : List Char → Bool) (buf : Option (List Char)) : Option (List Char) :=
  buf.filter sendto

/-- `gmetric_send`: the datagrams that are sent, and whether it succeeds.  In the newer format,
metadata comes before the value. -/
def gmetricSend (sendto : List Char → Bool) (msg : GmetricMessageT) : List (List Char) × Bool :=
  match msg.format with
  | .format31 =>
    match gmetricSendXdr sendto (gmetadataMessageCreateXdr lib gmetricMaxMessageLen msg) with
    | none => ([], false)
    | some metadata =>
      match gmetricSendXdr sendto (gmetric31MessageCreateXdr lib gmetricMaxMessageLen msg) with
      | none => ([metadata], false)
      | some value => ([metadata, value], true)
  | .format25 =>
    match gmetricSendXdr sendto (gmetricMessageCreateXdr lib gmetricMaxMessageLen msg) with
    | none => ([], false)
    | some message => ([message], true)

end Create

/-! ## Reading datagrams -/

/-- What the metadata of a metric says, with its extra data as pairs of strings. -/
structure Gmetadata where
  hostname : CString
  name : CString
  spoof : Bool
  type : CString
  units : CString
  slope : Nat
  tmax : Nat
  dmax : Nat
  extra : List (CString × CString)
  deriving DecidableEq

/-- What the value of a metric says, in the newer format. -/
structure Gmetric31 where
  type : Nat
  hostname : CString
  name : CString
  spoof : Bool
  format : CString
  value : CString
  deriving DecidableEq

/-- A value for an old receiver, which has the metadata with it. -/
structure Gmetric25 where
  type : CString
  name : CString
  value : CString
  units : CString
  slope : Nat
  tmax : Nat
  dmax : Nat
  deriving DecidableEq

/-- Pairs of strings, as many as were announced. -/
def getPairs : Nat → Reader (List (CString × CString))
  | 0 => return []
  | n + 1 => do
    let name ← getString
    let data ← getString
    let pairs ← getPairs n
    return (name, data) :: pairs

/-- Metadata: the name stands there twice, and the two have to be the same. -/
def getGmetadata : Reader Gmetadata := do
  let hostname ← getString
  let name ← getString
  let spoof ← getBool
  let type ← getString
  let name' ← getString
  let units ← getString
  let slope ← getUInt
  let tmax ← getUInt
  let dmax ← getUInt
  let n ← getUInt
  let extra ← getPairs n
  if name' = name then return ⟨hostname, name, spoof, type, units, slope, tmax, dmax, extra⟩
  else failure

/-- A value of a type, which the number in front of it has told. -/
def getGmetric31 (type : Nat) : Reader Gmetric31 := do
  let hostname ← getString
  let name ← getString
  let spoof ← getBool
  let format ← getString
  let value ← getString
  return ⟨type, hostname, name, spoof, format, value⟩

/-- A value for an old receiver, with the metadata behind it. -/
def getGmetric25 : Reader Gmetric25 := do
  let type ← getString
  let name ← getString
  let value ← getString
  let units ← getString
  let slope ← getUInt
  let tmax ← getUInt
  let dmax ← getUInt
  return ⟨type, name, value, units, slope, tmax, dmax⟩

/-- What a datagram says, of one of the three kinds. -/
inductive GmetricContent where
  | metadata (m : Gmetadata)
  | value (m : Gmetric31)
  | old (m : Gmetric25)
  deriving DecidableEq

/-- What a datagram says: its first number tells what it is, and a value's number tells its type as
well. -/
def getContent : Reader GmetricContent := do
  let id ← getUInt
  if id = 0 then .old <$> getGmetric25
  else if id = 128 then .metadata <$> getGmetadata
  else .value <$> getGmetric31 (id - 128)

/-- A datagram: nothing is behind what it says, and nothing is missing. -/
def readDatagram (bs : List Char) : Option GmetricContent :=
  match getContent bs with
  | some (c, []) => some c
  | _ => none

/-! ## What a message says -/

/-- The extra data of a message: its group, unless that is `NULL` or empty. -/
def groupPairs : Option CString → List (CString × CString)
  | none | some [] => []
  | some group => [("GROUP".toList, group)]

/-- The metadata of a message, with these as its host, its name and its units. -/
def GmetricMessageT.metadata (msg : GmetricMessageT) (hostname name units : CString) :
    Gmetadata where
  hostname := hostname
  name := name
  spoof := msg.spoof
  type := msg.typeText
  units := units
  slope := msg.slope.toNat
  tmax := msg.tmax.toNat
  dmax := msg.dmax.toNat
  extra := groupPairs msg.group

/-- The value of a message with these strings. -/
def GmetricMessageT.metric31 (msg : GmetricMessageT) (hostname name value : CString) : Gmetric31 :=
  ⟨msg.type.toNat, hostname, name, msg.spoof, "%s".toList, value⟩

/-- The same for an old receiver. -/
def GmetricMessageT.metric25 (msg : GmetricMessageT) (name value units : CString) : Gmetric25 :=
  ⟨msg.typeText, name, value, units, msg.slope.toNat, msg.tmax.toNat, msg.dmax.toNat⟩

/-- What is to be sent of a message, if no string is `NULL` that is sent in any case. -/
def GmetricMessageT.contents (msg : GmetricMessageT) : Option (List GmetricContent) :=
  match msg.format with
  | .format31 => do
    let hostname ← msg.hostname
    let name ← msg.name
    let units ← msg.units
    let value ← msg.value
    some [.metadata (msg.metadata hostname name units), .value (msg.metric31 hostname name value)]
  | .format25 => do
    let name ← msg.name
    let value ← msg.value
    let units ← msg.units
    some [.old (msg.metric25 name value units)]

/-! ## Round trips -/

/-- The bytes of pairs of strings, behind their number. -/
def encodePairs (pairs : List (CString × CString)) : List Char :=
  encodeUInt pairs.length ++ pairs.flatMap fun p => encodeString p.1 ++ encodeString p.2

/-- The bytes of metadata, with the name twice as the protocol has it. -/
def Gmetadata.bytes (m : Gmetadata) : List Char :=
  encodeString m.hostname ++ (encodeString m.name ++ (encodeUInt (if m.spoof then 1 else 0) ++
    (encodeString m.type ++ (encodeString m.name ++ (encodeString m.units ++
      (encodeUInt m.slope ++ (encodeUInt m.tmax ++ (encodeUInt m.dmax ++
        encodePairs m.extra))))))))

/-- The bytes of a value, behind the number that tells its type. -/
def Gmetric31.bytes (m : Gmetric31) : List Char :=
  encodeString m.hostname ++ (encodeString m.name ++ (encodeUInt (if m.spoof then 1 else 0) ++
    (encodeString m.format ++ encodeString m.value)))

/-- The bytes of a value for an old receiver, behind the number 0. -/
def Gmetric25.bytes (m : Gmetric25) : List Char :=
  encodeString m.type ++ (encodeString m.name ++ (encodeString m.value ++
    (encodeString m.units ++ (encodeUInt m.slope ++ (encodeUInt m.tmax ++ encodeUInt m.dmax)))))

/-- The bytes of a datagram, with the number that tells its kind in front. -/
def GmetricContent.bytes : GmetricContent → List Char
  | .metadata m => encodeUInt 128 ++ m.bytes
  | .value m => encodeUInt (128 + m.type) ++ m.bytes
  | .old m => encodeUInt 0 ++ m.bytes

/-- What a buffer of `len` bytes holds of a datagram. -/
def GmetricContent.created (c : GmetricContent) (len : UInt32) : Option (List Char) :=
  if c.bytes.length ≤ len.toNat then some c.bytes else none

/-- The strings of a message, of which some may be `NULL`. -/
def GmetricMessageT.strings (msg : GmetricMessageT) : List (Option CString) :=
  [msg.hostname, msg.name, msg.group, msg.units, msg.typestr, msg.value]

/-- The lengths of those that are not `NULL` are integers of 32 bits. -/
def GmetricMessageT.StringsSized (msg : GmetricMessageT) : Prop :=
  ∀ s, some s ∈ msg.strings → s.length < UInt32.size

theorem GmetricSlopeT.toNat_lt (slope : GmetricSlopeT) : slope.toNat < UInt32.size := by
  cases slope <;> decide

section Create
variable {σ : Type} {lib : Library σ} {size : σ → Nat} {msg : GmetricMessageT}
  {hostname name units value : CString}

theorem GmetricMessageT.StringsSized.typeText (h : msg.StringsSized) :
    msg.typeText.length < UInt32.size := by
  have htypes : (typestrings msg.type).length < UInt32.size := by cases msg.type <;> decide
  unfold GmetricMessageT.typeText
  split
  · rename_i c s htypestr
    exact h (c :: s) (by simp [GmetricMessageT.strings, htypestr])
  · exact htypes
  · exact htypes

theorem putGroup_puts (hlib : lib.Documented size) (h : msg.StringsSized) (x : σ) :
    lib.Puts size x (encodePairs (groupPairs msg.group)) (putGroup lib x msg.group) := by
  have hsized : ∀ group, msg.group = some group → group.length < UInt32.size := by
    intro group hgroup
    exact h group (by simp [GmetricMessageT.strings, hgroup])
  cases hgroup : msg.group with
  | none => exact hlib.uInt x 0 (by decide)
  | some group =>
    cases group with
    | nil => exact hlib.uInt x 0 (by decide)
    | cons c s =>
      have hputs : lib.Puts size x _ (putGroup lib x (some (c :: s))) :=
        (hlib.uInt x 1 (by decide)).bind fun x =>
          (hlib.string x "GROUP".toList (by decide)).bind fun x => hlib.string x _ (hsized _ hgroup)
      simpa only [encodePairs, groupPairs, List.length_singleton, List.flatMap_cons,
        List.flatMap_nil, List.append_nil] using hputs

/-- **The metadata** of a message is built as a whole, or not at all where the buffer is too small.
-/
theorem gmetadataMessageCreateXdr_eq (hlib : lib.Documented size) (len : UInt32)
    (h : msg.StringsSized) (hhost : msg.hostname = some hostname) (hname : msg.name = some name)
    (hunits : msg.units = some units) :
    gmetadataMessageCreateXdr lib len msg =
      (GmetricContent.metadata (msg.metadata hostname name units)).created len := by
  have hhostSized := h hostname (by simp [GmetricMessageT.strings, hhost])
  have hnameSized := h name (by simp [GmetricMessageT.strings, hname])
  have hunitsSized := h units (by simp [GmetricMessageT.strings, hunits])
  -- the calls, in their order
  have hmade := Library.Made.bind (hlib.enum (lib.xdrmemCreate len) 128 (by decide)) fun x =>
    .bind (hlib.string x hostname hhostSized) fun x =>
    .bind (hlib.string x name hnameSized) fun x =>
    .bind (hlib.bool x msg.spoof) fun x =>
    .bind (hlib.string x msg.typeText h.typeText) fun x =>
    .bind (hlib.string x name hnameSized) fun x =>
    .bind (hlib.string x units hunitsSized) fun x =>
    .bind (hlib.uInt x msg.slope.toNat msg.slope.toNat_lt) fun x =>
    .bind (hlib.uInt x msg.tmax.toNat msg.tmax.toNat_lt_size) fun x =>
    .bind (hlib.uInt x msg.dmax.toNat msg.dmax.toNat_lt_size) fun x =>
    .bind (putGroup_puts hlib h x) fun x => made_written
  rw [List.append_nil] at hmade
  rw [gmetadataMessageCreateXdr, hhost, hname, hunits]
  exact hlib.made_create hmade

/-- **The value** of a message is built as a whole, or not at all where the buffer is too small. -/
theorem gmetric31MessageCreateXdr_eq (hlib : lib.Documented size) (len : UInt32)
    (h : msg.StringsSized) (hhost : msg.hostname = some hostname) (hname : msg.name = some name)
    (hvalue : msg.value = some value) :
    gmetric31MessageCreateXdr lib len msg =
      (GmetricContent.value (msg.metric31 hostname name value)).created len := by
  have hid : 128 + msg.type.toNat < 2 ^ 31 := by cases msg.type <;> decide
  have hhostSized := h hostname (by simp [GmetricMessageT.strings, hhost])
  have hnameSized := h name (by simp [GmetricMessageT.strings, hname])
  have hvalueSized := h value (by simp [GmetricMessageT.strings, hvalue])
  have hmade := Library.Made.bind (hlib.enum (lib.xdrmemCreate len) _ hid) fun x =>
    .bind (hlib.string x hostname hhostSized) fun x =>
    .bind (hlib.string x name hnameSized) fun x =>
    .bind (hlib.bool x msg.spoof) fun x =>
    .bind (hlib.string x "%s".toList (by decide)) fun x =>
    .bind (hlib.string x value hvalueSized) fun x => made_written
  rw [List.append_nil] at hmade
  rw [gmetric31MessageCreateXdr, hhost, hname, hvalue]
  exact hlib.made_create hmade

/-- **A message for an old receiver** is built as a whole, or not at all where the buffer is too
small. -/
theorem gmetricMessageCreateXdr_eq (hlib : lib.Documented size) (len : UInt32)
    (h : msg.StringsSized) (hname : msg.name = some name) (hvalue : msg.value = some value)
    (hunits : msg.units = some units) :
    gmetricMessageCreateXdr lib len msg =
      (GmetricContent.old (msg.metric25 name value units)).created len := by
  have hnameSized := h name (by simp [GmetricMessageT.strings, hname])
  have hvalueSized := h value (by simp [GmetricMessageT.strings, hvalue])
  have hunitsSized := h units (by simp [GmetricMessageT.strings, hunits])
  have hmade := Library.Made.bind (hlib.enum (lib.xdrmemCreate len) 0 (by decide)) fun x =>
    .bind (hlib.string x msg.typeText h.typeText) fun x =>
    .bind (hlib.string x name hnameSized) fun x =>
    .bind (hlib.string x value hvalueSized) fun x =>
    .bind (hlib.string x units hunitsSized) fun x =>
    .bind (hlib.uInt x msg.slope.toNat msg.slope.toNat_lt) fun x =>
    .bind (hlib.uInt x msg.tmax.toNat msg.tmax.toNat_lt_size) fun x =>
    .bind (hlib.uInt x msg.dmax.toNat msg.dmax.toNat_lt_size) fun x => made_written
  rw [List.append_nil] at hmade
  rw [gmetricMessageCreateXdr, hname, hvalue, hunits]
  exact hlib.made_create hmade

end Create

section Read
variable {rest : List Char}

theorem getPairs_append {pairs : List (CString × CString)}
    (h : ∀ p ∈ pairs, p.1.length < UInt32.size ∧ p.2.length < UInt32.size) :
    getPairs pairs.length
      ((pairs.flatMap fun p => encodeString p.1 ++ encodeString p.2) ++ rest) =
        some (pairs, rest) := by
  induction pairs with
  | nil => rfl
  | cons p pairs ih =>
    obtain ⟨⟨hname, hdata⟩, hrest⟩ := List.forall_mem_cons.mp h
    rw [List.length_cons, List.flatMap_cons, List.append_assoc, List.append_assoc, getPairs,
      Reader.bind_eq (getString_append hname _), Reader.bind_eq (getString_append hdata _),
      Reader.bind_eq (ih hrest)]
    rfl

/-- The pairs take at least as many bytes as their strings have. -/
theorem length_le_encodePairs {pairs : List (CString × CString)} :
    pairs.length ≤ (encodePairs pairs).length ∧
      ∀ p ∈ pairs, p.1.length + p.2.length ≤ (encodePairs pairs).length := by
  rw [encodePairs, List.length_append, length_encodeUInt]
  induction pairs with
  | nil => exact ⟨Nat.zero_le _, nofun⟩
  | cons p pairs ih =>
    obtain ⟨hlen, hpairs⟩ := ih
    simp only [List.flatMap_cons, List.length_append, length_encodeString, List.length_cons]
    refine ⟨by omega, List.forall_mem_cons.mpr ⟨by omega, fun q hq => ?_⟩⟩
    have hq := hpairs q hq
    omega

/-- The numbers of a datagram can be written, and its type is known. -/
def GmetricContent.NumbersSized : GmetricContent → Prop
  | .metadata m => m.slope < UInt32.size ∧ m.tmax < UInt32.size ∧ m.dmax < UInt32.size
  | .value m => 0 < m.type ∧ 128 + m.type < UInt32.size
  | .old m => m.slope < UInt32.size ∧ m.tmax < UInt32.size ∧ m.dmax < UInt32.size

theorem getGmetadata_bytes {m : Gmetadata} (hlen : m.bytes.length < UInt32.size)
    (hslope : m.slope < UInt32.size) (htmax : m.tmax < UInt32.size)
    (hdmax : m.dmax < UInt32.size) : getGmetadata m.bytes = some (m, []) := by
  obtain ⟨hextra, hpairs⟩ := @length_le_encodePairs m.extra
  simp only [Gmetadata.bytes, List.length_append, length_encodeUInt, length_encodeString] at hlen
  have hread := @getPairs_append [] m.extra fun p hp => by
    have hle := hpairs p hp
    omega
  rw [List.append_nil] at hread
  rw [getGmetadata, Gmetadata.bytes, encodePairs, Reader.bind_eq (getString_append (by omega) _),
    Reader.bind_eq (getString_append (by omega) _), Reader.bind_eq (getBool_append _ _),
    Reader.bind_eq (getString_append (by omega) _), Reader.bind_eq (getString_append (by omega) _),
    Reader.bind_eq (getString_append (by omega) _), Reader.bind_eq (getUInt_append hslope _),
    Reader.bind_eq (getUInt_append htmax _), Reader.bind_eq (getUInt_append hdmax _),
    Reader.bind_eq (getUInt_append (by omega) _), Reader.bind_eq hread, if_pos rfl]
  rfl

theorem getGmetric31_bytes {m : Gmetric31} (hlen : m.bytes.length < UInt32.size) :
    getGmetric31 m.type m.bytes = some (m, []) := by
  simp only [Gmetric31.bytes, List.length_append, length_encodeUInt, length_encodeString] at hlen
  rw [getGmetric31, Gmetric31.bytes, Reader.bind_eq (getString_append (by omega) _),
    Reader.bind_eq (getString_append (by omega) _), Reader.bind_eq (getBool_append _ _),
    Reader.bind_eq (getString_append (by omega) _), ← List.append_nil (encodeString m.value),
    Reader.bind_eq (getString_append (by omega) _)]
  rfl

theorem getGmetric25_bytes {m : Gmetric25} (hlen : m.bytes.length < UInt32.size)
    (hslope : m.slope < UInt32.size) (htmax : m.tmax < UInt32.size)
    (hdmax : m.dmax < UInt32.size) : getGmetric25 m.bytes = some (m, []) := by
  simp only [Gmetric25.bytes, List.length_append, length_encodeUInt, length_encodeString] at hlen
  rw [getGmetric25, Gmetric25.bytes, Reader.bind_eq (getString_append (by omega) _),
    Reader.bind_eq (getString_append (by omega) _), Reader.bind_eq (getString_append (by omega) _),
    Reader.bind_eq (getString_append (by omega) _), Reader.bind_eq (getUInt_append hslope _),
    Reader.bind_eq (getUInt_append htmax _), ← List.append_nil (encodeUInt m.dmax),
    Reader.bind_eq (getUInt_append hdmax _)]
  rfl

/-- **A datagram is read back** as it was written, if its numbers are within 32 bits. -/
theorem readDatagram_bytes {c : GmetricContent} (hlen : c.bytes.length < UInt32.size)
    (hnumbers : c.NumbersSized) : readDatagram c.bytes = some c := by
  have hid : 128 < UInt32.size := by decide
  have hmap : ∀ {α : Type} {r : Reader α} {f : α → GmetricContent} {a : α} {bs : List Char},
      r bs = some (a, []) → (f <$> r) bs = some (f a, []) := by
    intro α r f a bs h
    rw [map_eq_pure_bind, Reader.bind_eq h]
    rfl
  have hread : getContent c.bytes = some (c, []) := by
    cases c with
    | metadata m =>
      obtain ⟨hslope, htmax, hdmax⟩ := hnumbers
      rw [GmetricContent.bytes, List.length_append, length_encodeUInt] at hlen
      rw [getContent, GmetricContent.bytes, Reader.bind_eq (getUInt_append hid _),
        if_neg (by decide), if_pos rfl]
      exact hmap (getGmetadata_bytes (by omega) hslope htmax hdmax)
    | value m =>
      obtain ⟨hpos, htype⟩ := hnumbers
      rw [GmetricContent.bytes, List.length_append, length_encodeUInt] at hlen
      rw [getContent, GmetricContent.bytes, Reader.bind_eq (getUInt_append htype _),
        if_neg (by omega), if_neg (by omega), Nat.add_sub_cancel_left]
      exact hmap (getGmetric31_bytes (by omega))
    | old m =>
      obtain ⟨hslope, htmax, hdmax⟩ := hnumbers
      rw [GmetricContent.bytes, List.length_append, length_encodeUInt] at hlen
      rw [getContent, GmetricContent.bytes, Reader.bind_eq (getUInt_append (by decide) _),
        if_pos rfl]
      exact hmap (getGmetric25_bytes (by omega) hslope htmax hdmax)
  rw [readDatagram, hread]

end Read

/-! ## Sending -/

section Send
variable {σ : Type} {lib : Library σ} {size : σ → Nat} {msg : GmetricMessageT}

/-- The datagram fits the buffer, and the socket takes it. -/
def GmetricContent.Sent (sendto : List Char → Bool) (c : GmetricContent) : Prop :=
  c.bytes.length ≤ gmetricMaxMessageLen.toNat ∧ sendto c.bytes = true

theorem gmetricSendXdr_created (sendto : List Char → Bool) (c : GmetricContent) :
    gmetricSendXdr sendto (c.created gmetricMaxMessageLen) = some c.bytes ∧ c.Sent sendto ∨
      gmetricSendXdr sendto (c.created gmetricMaxMessageLen) = none ∧ ¬ c.Sent sendto := by
  unfold gmetricSendXdr GmetricContent.created GmetricContent.Sent
  by_cases hlen : c.bytes.length ≤ gmetricMaxMessageLen.toNat <;>
    by_cases hsend : sendto c.bytes = true <;> simp [hlen, hsend]

/-- Such a message is sent exactly if each of its datagrams is, in their order. -/
theorem gmetricSend_of_contents (hlib : lib.Documented size) (sendto : List Char → Bool)
    {cs : List GmetricContent} (h : msg.contents = some cs) (hsized : msg.StringsSized) :
    ((gmetricSend lib sendto msg).2 = true ↔ ∀ c ∈ cs, c.Sent sendto) ∧
      ((gmetricSend lib sendto msg).2 = true →
        (gmetricSend lib sendto msg).1 = cs.map GmetricContent.bytes) := by
  unfold GmetricMessageT.contents at h
  unfold gmetricSend
  split at h
  · simp only [Option.bind_eq_bind, Option.bind_eq_some_iff, Option.some_inj] at h
    obtain ⟨hostname, hhost, name, hname, units, hunits, value, hvalue, rfl⟩ := h
    rw [gmetadataMessageCreateXdr_eq hlib _ hsized hhost hname hunits,
      gmetric31MessageCreateXdr_eq hlib _ hsized hhost hname hvalue]
    rcases gmetricSendXdr_created sendto
        (.metadata (msg.metadata hostname name units)) with ⟨hmeta, hsent⟩ | ⟨hmeta, hsent⟩ <;>
      rcases gmetricSendXdr_created sendto
        (.value (msg.metric31 hostname name value)) with ⟨hval, hsent'⟩ | ⟨hval, hsent'⟩ <;>
      simp [hmeta, hval, hsent, hsent']
  · simp only [Option.bind_eq_bind, Option.bind_eq_some_iff, Option.some_inj] at h
    obtain ⟨name, hname, value, hvalue, units, hunits, rfl⟩ := h
    rw [gmetricMessageCreateXdr_eq hlib _ hsized hname hvalue hunits]
    rcases gmetricSendXdr_created sendto
        (.old (msg.metric25 name value units)) with ⟨hold, hsent⟩ | ⟨hold, hsent⟩ <;>
      simp [hold, hsent]

/-- The numbers of a message are in range, as long as its type is known. -/
theorem numbersSized_of_contents {cs : List GmetricContent} (h : msg.contents = some cs)
    (htype : msg.type ≠ .unknown) : ∀ c ∈ cs, c.NumbersSized := by
  have hslope := msg.slope.toNat_lt
  have hpos : 0 < msg.type.toNat ∧ 128 + msg.type.toNat < UInt32.size := by
    cases htypes : msg.type <;> first | exact absurd htypes htype | decide
  unfold GmetricMessageT.contents at h
  split at h
  · simp only [Option.bind_eq_bind, Option.bind_eq_some_iff, Option.some_inj] at h
    obtain ⟨hostname, -, name, -, units, -, value, -, rfl⟩ := h
    refine List.forall_mem_cons.mpr ⟨⟨hslope, msg.tmax.toNat_lt_size, msg.dmax.toNat_lt_size⟩,
      List.forall_mem_singleton.mpr hpos⟩
  · simp only [Option.bind_eq_bind, Option.bind_eq_some_iff, Option.some_inj] at h
    obtain ⟨name, -, value, -, units, -, rfl⟩ := h
    exact List.forall_mem_singleton.mpr
      ⟨hslope, msg.tmax.toNat_lt_size, msg.dmax.toNat_lt_size⟩

/-- Datagrams that are sent can be read back, each as what it was built from. -/
theorem readDatagram_of_sent {sendto : List Char → Bool} {cs : List GmetricContent}
    (h : msg.contents = some cs) (htype : msg.type ≠ .unknown) (hsent : ∀ c ∈ cs, c.Sent sendto) :
    (cs.map GmetricContent.bytes).map readDatagram = cs.map some := by
  rw [List.map_map]
  refine List.map_congr_left fun c hc => ?_
  have hlen : c.bytes.length ≤ gmetricMaxMessageLen.toNat := (hsent c hc).1
  exact readDatagram_bytes (hlen.trans_lt (by decide)) (numbersSized_of_contents h htype c hc)

/-- **`gmetric_send`** of a message of a known type, whose strings are there (its group and
its type text may be `NULL`), succeeds exactly if each datagram fits the buffer and the
socket takes each.  What it has sent then can be read back, and is what the message says. -/
theorem gmetricSend_decodes (hlib : lib.Documented size) (sendto : List Char → Bool)
    (msg : GmetricMessageT) (htype : msg.type ≠ .unknown) {cs : List GmetricContent}
    (hcs : msg.contents = some cs) (hsized : msg.StringsSized) :
    ((gmetricSend lib sendto msg).2 = true ↔ ∀ c ∈ cs, c.Sent sendto) ∧
    ((gmetricSend lib sendto msg).2 = true →
      (gmetricSend lib sendto msg).1.map readDatagram = cs.map some) := by
  obtain ⟨hsent, hdatagrams⟩ := gmetricSend_of_contents hlib sendto hcs hsized
  refine ⟨hsent, fun hok => ?_⟩
  rw [hdatagrams hok]
  exact readDatagram_of_sent hcs htype (hsent.mp hok)

end Send

/-! ## The messages of a pass -/

/-- `ganglia_spoof` and `flush_interval`, the options that a message depends on. -/
structure GangliaConfig where
  gangliaSpoof : CString
  flushInterval : Int

/-- `tmax` and `dmax`, ten seconds more than the interval. -/
def GangliaConfig.tmax (cfg : GangliaConfig) : UInt32 := UInt32.ofInt (cfg.flushInterval + 10)

/-- The message of `SEND_GMETRIC_DOUBLE` and `SEND_GMETRIC_INT`, which differ in the type and
in how the value is printed. -/
def sendGmetricMessage (type : GmetricValueT) (cfg : GangliaConfig)
    (mygroup myname mystringvalue myunit : CString) : GmetricMessageT where
  format := .format31
  type := type
  name := myname
  group := mygroup
  hostname := cfg.gangliaSpoof
  value := mystringvalue
  units := myunit
  slope := .both
  tmax := cfg.tmax
  dmax := cfg.tmax
  spoof := true
  typestr := none

/-- The message that a pass sends, as a `double` or as an `int`, with its value printed. -/
def GmetricMessage.message (cfg : GangliaConfig) (m : GmetricMessage Num) : GmetricMessageT :=
  match m.value with
  | .real _ => sendGmetricMessage .double cfg m.group m.name m.value.text m.units
  | .int _ => sendGmetricMessage .int cfg m.group m.name m.value.text m.units

/-- `mystringvalue`, the thirty bytes that a value is printed into. -/
def GmetricMessage.valueBuffer (m : GmetricMessage Num) : TextBuffer :=
  match m.value with
  | .real x => sendGmetricDouble x
  | .int n => sendGmetricInt n

instance (b : TextBuffer) : Decidable b.Fits :=
  inferInstanceAs (Decidable (b.text.length + 1 ≤ b.size))

/-- The datagrams of a pass, if every value can be printed.  A message that does not succeed is
passed over. -/
def gmetricPass {σ : Type} (lib : Library σ) (sendto : List Char → Bool) (cfg : GangliaConfig) :
    List (GmetricMessage Num) → Option (List (List Char))
  | [] => some []
  | m :: ms =>
    if m.valueBuffer.Fits then do
      let ds ← gmetricPass lib sendto cfg ms
      some ((gmetricSend lib sendto (m.message cfg)).1 ++ ds)
    else none

/-- What a metric is announced as: spoofed, changing in both directions, of the type that its
value is printed as, and in a group unless that has no name. -/
def GmetricMessage.announced (cfg : GangliaConfig) (m : GmetricMessage Num) :
    List GmetricContent :=
  let (id, type) : Nat × CString :=
    match m.value with
    | .real _ => (7, "double".toList)
    | .int _ => (5, "int32".toList)
  [.metadata ⟨cfg.gangliaSpoof, m.name, true, type, m.units, 3, cfg.tmax.toNat, cfg.tmax.toNat,
      if m.group = [] then [] else [("GROUP".toList, m.group)]⟩,
    .value ⟨id, cfg.gangliaSpoof, m.name, true, "%s".toList, m.value.text⟩]

theorem contents_message (cfg : GangliaConfig) (m : GmetricMessage Num) :
    (m.message cfg).contents = some (m.announced cfg) := by
  have hgroup : groupPairs (some m.group) =
      if m.group = [] then [] else [("GROUP".toList, m.group)] := by
    cases m.group <;> rfl
  obtain ⟨group, name, value, units⟩ := m
  cases value with
  | real x =>
    rw [GmetricMessage.announced, ← hgroup]
    rfl
  | int n =>
    rw [GmetricMessage.announced, ← hgroup]
    rfl

/-! ## Every datagram fits -/

/-- What the names of a pass have in common: the lengths that its datagrams depend on. -/
structure GmetricMessage.Short (n : Nat) (m : GmetricMessage Num) : Prop where
  group : m.group.length ≤ n
  name : m.name.length ≤ n
  units : m.units.length ≤ 5

theorem length_text_le {m : GmetricMessage Num} (h : m.valueBuffer.Fits) :
    m.value.text.length ≤ 29 := by
  obtain ⟨group, name, value, units⟩ := m
  cases value <;> exact Nat.le_of_succ_le_succ h

/-- **Every datagram of such a metric fits**, with a host that is not too long. -/
theorem length_bytes_announced {cfg : GangliaConfig} {m : GmetricMessage Num} {n : Nat}
    (hm : m.Short n) (hvalue : m.valueBuffer.Fits)
    (hspace : cfg.gangliaSpoof.length + 3 * n ≤ 936) :
    ∀ c ∈ m.announced cfg, c.bytes.length ≤ gmetricMaxMessageLen.toNat := by
  obtain ⟨hgroup, hname, hunits⟩ := hm
  have hmax : gmetricMaxMessageLen.toNat = 1024 := rfl
  have hformat : ("%s".toList).length = 2 := rfl
  have hpairs : (encodePairs (if m.group = [] then [] else [("GROUP".toList, m.group)])).length ≤
      23 + m.group.length := by
    have hlen : ("GROUP".toList).length = 5 := rfl
    split
    · simp only [encodePairs, List.flatMap_nil, List.append_nil, length_encodeUInt]
      omega
    · simp only [encodePairs, List.length_append, List.flatMap_cons, List.flatMap_nil,
        List.length_nil, length_encodeUInt, length_encodeString]
      omega
  have htext := length_text_le hvalue
  have hmetadata : ∀ type : CString, type.length ≤ 6 →
      (GmetricContent.metadata ⟨cfg.gangliaSpoof, m.name, true, type, m.units, 3, cfg.tmax.toNat,
        cfg.tmax.toNat, if m.group = [] then [] else [("GROUP".toList, m.group)]⟩).bytes.length ≤
          gmetricMaxMessageLen.toNat := by
    intro type htype
    simp only [GmetricContent.bytes, Gmetadata.bytes, List.length_append, length_encodeUInt,
      length_encodeString, hmax]
    omega
  have hval : ∀ id : Nat,
      (GmetricContent.value ⟨id, cfg.gangliaSpoof, m.name, true, "%s".toList,
        m.value.text⟩).bytes.length ≤ gmetricMaxMessageLen.toNat := by
    intro id
    simp only [GmetricContent.bytes, Gmetric31.bytes, List.length_append, length_encodeUInt,
      length_encodeString, hmax, hformat]
    omega
  obtain ⟨group, name, value, units⟩ := m
  cases value with
  | real x =>
    exact List.forall_mem_cons.mpr
      ⟨hmetadata "double".toList (by decide), List.forall_mem_singleton.mpr (hval 7)⟩
  | int k =>
    exact List.forall_mem_cons.mpr
      ⟨hmetadata "int32".toList (by decide), List.forall_mem_singleton.mpr (hval 5)⟩

/-- The strings of such a metric are short enough for a length of 32 bits. -/
theorem GmetricMessage.Short.stringsSized {cfg : GangliaConfig} {m : GmetricMessage Num} {n : Nat}
    (hm : m.Short n) (hvalue : m.valueBuffer.Fits)
    (hspace : cfg.gangliaSpoof.length + 3 * n ≤ 936) : (m.message cfg).StringsSized := by
  obtain ⟨hgroup, hname, hunits⟩ := hm
  have hsize : UInt32.size = 2 ^ 32 := rfl
  have htext := length_text_le hvalue
  have hstrings : ∀ type : GmetricValueT, ∀ s,
      some s ∈ (sendGmetricMessage type cfg m.group m.name m.value.text m.units).strings →
        s.length < UInt32.size := by
    intro type s hs
    simp only [GmetricMessageT.strings, sendGmetricMessage, List.mem_cons, Option.some.injEq,
      List.not_mem_nil, or_false, reduceCtorEq, false_or] at hs
    rcases hs with rfl | rfl | rfl | rfl | rfl <;> omega
  unfold GmetricMessage.message
  split
  · exact hstrings .double
  · exact hstrings .int

/-- The message of the totals of a pass over no metrics. -/
def totalsMessage : GmetricMessage Num :=
  ⟨"statsd".toList, "statsd_numstats_collected".toList, .int 0, "count".toList⟩

/-- `gmetricSend_decodes` for that message. -/
theorem gmetricSend_decodes_totals :
    (gmetricSend memoryLibrary (fun _ => true)
        (totalsMessage.message ⟨"statsd:statsd".toList, 10⟩)).1.map readDatagram =
      (totalsMessage.announced ⟨"statsd:statsd".toList, 10⟩).map some := by
  have hshort : totalsMessage.Short 25 := ⟨by decide, by decide, by decide⟩
  obtain ⟨hiff, hdecode⟩ := gmetricSend_decodes memoryLibrary_documented (fun _ => true)
    (totalsMessage.message ⟨"statsd:statsd".toList, 10⟩) nofun
    (contents_message ⟨"statsd:statsd".toList, 10⟩ totalsMessage)
    (hshort.stringsSized (by decide) (by decide))
  refine hdecode (hiff.mpr fun c hc => ⟨?_, rfl⟩)
  exact length_bytes_announced hshort (by decide) (by decide) c hc

section Pass
variable {σ : Type} {lib : Library σ} {size : σ → Nat} {n : Nat}

/-- The names of a report are short, so that every datagram fits the buffer of 1024 bytes. -/
def ShortNames (n : Nat) (r : Report Num) : Prop := ∀ m ∈ r.gmetric, m.Short n

theorem shortNames_empty : ShortNames n .empty := nofun

theorem ShortNames.append {r s : Report Num} (hr : ShortNames n r) (hs : ShortNames n s) :
    ShortNames n (r.append s) := fun m hm => (List.mem_append.mp hm).elim (hr m) (hs m)

theorem shortNames_concat {rs : List (Report Num)} (h : ∀ r ∈ rs, ShortNames n r) :
    ShortNames n (Report.concat rs) := by
  induction rs with
  | nil => exact shortNames_empty
  | cons r rs ih =>
    exact (h r (List.mem_cons_self ..)).append (ih fun s hs => h s (List.mem_cons_of_mem _ hs))

theorem shortNames_enabled {cfg : FlushConfig} {graphite : List (GraphiteLine Num)}
    {gmetric : List (GmetricMessage Num)} (h : ∀ m ∈ gmetric, m.Short n) :
    ShortNames n (.enabled cfg graphite gmetric) := by
  intro m hm
  by_cases hg : cfg.enableGmetric = true
  · rw [Report.enabled, if_pos hg] at hm
    exact h m hm
  · rw [Report.enabled, if_neg hg] at hm
    cases hm

variable {cfg : FlushConfig} {key : CString} {ts : Int}

/-- A counter or a gauge has the names `k`, with the prefix, and `key`. -/
theorem shortNames_reportValue {rate value : Num} {counts units : CString}
    (hkey : (cfg.prefixed key).length ≤ n) (hunits : units.length ≤ 5) :
    ShortNames n (reportValue cfg ts key rate value counts units) := by
  have hkey' : key.length ≤ n := by
    rw [FlushConfig.prefixed, List.length_append] at hkey
    omega
  exact shortNames_enabled (List.forall_mem_cons.mpr
    ⟨⟨hkey, hkey, hunits⟩, List.forall_mem_singleton.mpr ⟨hkey', hkey', hunits⟩⟩)

/-- A timer has the names of its key with an ending each, the longest of which has the
percentile in it. -/
theorem shortNames_reportTimer {s : TimerSummary Num} {count : Nat}
    (hkey : key.length + 18 ≤ n) (hpercentile : (printD cfg.percentile).length ≤ 11) :
    ShortNames n (reportTimer cfg ts key s count) := by
  refine shortNames_enabled fun m hm => ?_
  simp only [List.mem_cons, List.not_mem_nil, or_false] at hm
  have hsec : ("sec".toList).length ≤ 5 := by decide
  have hcount : ("count".toList).length ≤ 5 := by decide
  have hgroup : key.length ≤ n := by omega
  have hending : ∀ ending : CString, ending.length ≤ 18 → (key ++ ending).length ≤ n := by
    intro ending hlen
    rw [List.length_append]
    omega
  rcases hm with rfl | rfl | rfl | rfl | rfl
  · exact ⟨hgroup, hending _ (by decide), hsec⟩
  · exact ⟨hgroup, hending _ (by decide), hsec⟩
  · refine ⟨hgroup, ?_, hsec⟩
    have hth : ("th_pct".toList).length = 6 := rfl
    have hunderscore : ("_".toList).length = 1 := rfl
    simp only [List.length_append, hth, hunderscore]
    omega
  · exact ⟨hgroup, hending _ (by decide), hsec⟩
  · exact ⟨hgroup, hending _ (by decide), hcount⟩

variable {firstByte : Num → Int}

theorem shortNames_flushTimers {timers : List (StatsdTimer Num)}
    {r : List (StatsdTimer Num) × Report Num}
    (hkeys : ∀ t ∈ timers, t.key.length + 18 ≤ n)
    (hpercentile : (printD cfg.percentile).length ≤ 11)
    (h : flushTimers firstByte cfg ts timers = .ok r) : ShortNames n r.2 := by
  induction timers generalizing r with
  | nil =>
    obtain rfl := Except.ok.inj h
    exact shortNames_empty
  | cons t timers ih =>
    obtain ⟨first, rest, hfirst, hrest, rfl⟩ := flushTimers_cons_eq_ok h
    obtain ⟨hkey, hkeys⟩ := List.forall_mem_cons.mp hkeys
    refine .append ?_ (ih hkeys hrest)
    unfold flushTimer at hfirst
    split at hfirst
    · split at hfirst
      · cases hfirst
      · obtain rfl := Except.ok.inj hfirst
        exact shortNames_reportTimer hkey hpercentile
    · obtain rfl := Except.ok.inj hfirst
      exact shortNames_empty

/-- The keys of the tables are of at most 99 bytes, and so the names of a pass of at most 117
and the prefix. -/
theorem shortNames_flushPass {env : FlushEnv} {t : Tables Num} {r : Tables Num × Report Num}
    (ht : DaemonState t) (hpercentile : (printD cfg.percentile).length ≤ 11)
    (hn : 117 ≤ n ∧ (cfg.gangliaMetricPrefix.getD []).length + 99 ≤ n)
    (h : flushPass firstByte cfg env t = .ok r) : ShortNames n r.2 := by
  have hsize : keySize = 100 := rfl
  have hprefixes : ∀ {key : CString}, KeyFits key → (cfg.prefixed key).length ≤ n := by
    intro key hkey
    rw [FlushConfig.prefixed, List.length_append]
    unfold KeyFits at hkey
    omega
  have hkeys := ht.keysFit
  obtain ⟨timers, htimers, hreport, -⟩ := flushPass_eq_ok h
  rw [hreport]
  refine .append (shortNames_concat fun s hs => ?_) <| .append
    (shortNames_flushTimers (fun s hs => ?_) hpercentile htimers) <|
    .append (shortNames_concat fun s hs => ?_) <| shortNames_enabled fun m hm => ?_
  · obtain ⟨c, hc, rfl⟩ := List.mem_map.mp hs
    exact shortNames_reportValue (hprefixes (hkeys.counters c hc)) (by decide)
  · have hfits := hkeys.timers s hs
    unfold KeyFits at hfits
    omega
  · obtain ⟨g, hg, rfl⟩ := List.mem_map.mp hs
    exact shortNames_reportValue (hprefixes (hkeys.gauges g hg)) (by decide)
  · obtain rfl := List.mem_singleton.mp hm
    have hgroup : ("statsd".toList).length = 6 := rfl
    have hname : ("statsd_numstats_collected".toList).length = 25 := rfl
    have hunits : ("count".toList).length ≤ 5 := by decide
    exact ⟨by dsimp only; omega, by dsimp only; omega, hunits⟩

/-- What is sent of messages whose datagrams all fit, through a socket that takes them. -/
theorem gmetricPass_of_short (hlib : lib.Documented size) {gcfg : GangliaConfig}
    {ms : List (GmetricMessage Num)} (hshort : ∀ m ∈ ms, m.Short n)
    (hvalues : ∀ m ∈ ms, m.valueBuffer.Fits)
    (hspace : gcfg.gangliaSpoof.length + 3 * n ≤ 936) :
    ∃ ds, gmetricPass lib (fun _ => true) gcfg ms = some ds ∧
      ds.map readDatagram = (ms.flatMap (·.announced gcfg)).map some := by
  induction ms with
  | nil => exact ⟨[], rfl, rfl⟩
  | cons m ms ih =>
    obtain ⟨hm, hms⟩ := List.forall_mem_cons.mp hshort
    obtain ⟨hv, hvs⟩ := List.forall_mem_cons.mp hvalues
    obtain ⟨ds, hds, hread⟩ := ih hms hvs
    have htype : (m.message gcfg).type ≠ .unknown := by
      unfold GmetricMessage.message
      split <;> exact nofun
    have hcontents := contents_message gcfg m
    obtain ⟨hiff, hdatagrams⟩ := gmetricSend_of_contents hlib (fun _ => true) hcontents
      (hm.stringsSized hv hspace)
    have hsent : ∀ c ∈ m.announced gcfg, c.Sent fun _ => true :=
      fun c hc => ⟨length_bytes_announced hm hv hspace c hc, rfl⟩
    refine ⟨(gmetricSend lib (fun _ => true) (m.message gcfg)).1 ++ ds, ?_, ?_⟩
    · rw [gmetricPass, if_pos hv, hds]
      rfl
    · rw [List.map_append, hdatagrams (hiff.mpr hsent), readDatagram_of_sent hcontents htype hsent,
        hread, List.flatMap_cons, List.map_append]

/-- **What Ganglia is told is the report.**  From any reachable state, unless the spoofed host
and the prefix are very long, and as long as the text of every value fits its buffer, every
datagram of a pass fits the buffer it is built in.  Through a socket that takes them all,
reading them back gives the metrics of the report, each announced and then with its value,
in their order. -/
theorem gmetricPass_decodes (hlib : lib.Documented size) {t : Tables Num}
    (h : (daemon firstByte).Reachable t) {env : FlushEnv} {r : Tables Num × Report Num}
    (hpass : flushPass firstByte cfg env t = .ok r) (gcfg : GangliaConfig)
    (hint : -2 ^ 31 ≤ cfg.percentile ∧ cfg.percentile < 2 ^ 31)
    (hspace : gcfg.gangliaSpoof.length + 3 * (cfg.gangliaMetricPrefix.getD []).length ≤ 585)
    (hvalues : ∀ m ∈ r.2.gmetric, m.valueBuffer.Fits) :
    ∃ ds, gmetricPass lib (fun _ => true) gcfg r.2.gmetric = some ds ∧
      ds.map readDatagram = (r.2.gmetric.flatMap (·.announced gcfg)).map some := by
  have hpercentile : (printD cfg.percentile).length ≤ 11 := by
    have hten : (printD cfg.percentile).length ≤ 10 + 1 ↔ _ := length_printInt_le_iff (by decide)
    rw [hten]
    norm_num at hint ⊢
    omega
  have hshort := shortNames_flushPass (n := max 117 ((cfg.gangliaMetricPrefix.getD []).length + 99))
    (reachable_daemonState h) hpercentile ⟨le_max_left .., le_max_right ..⟩ hpass
  exact gmetricPass_of_short hlib hshort hvalues (by omega)

/-- The theorem at a pass over one counter, whose value is infinite. -/
theorem gmetricPass_decodes_overflown :
    ∃ r ds, flushPass (fun _ => 0) ⟨true, true, 10, 90, none⟩ ⟨0, 0, true⟩ overflownTables =
        .ok r ∧ r.2.gmetric.length = 3 ∧
      gmetricPass memoryLibrary (fun _ => true) ⟨"statsd:statsd".toList, 10⟩ r.2.gmetric =
        some ds ∧
      ds.map readDatagram =
        (r.2.gmetric.flatMap (·.announced ⟨"statsd:statsd".toList, 10⟩)).map some := by
  obtain ⟨r, hr, hlen, hvalues⟩ : ∃ r, flushPass (fun _ => 0) ⟨true, true, 10, 90, none⟩
      ⟨0, 0, true⟩ overflownTables = .ok r ∧ r.2.gmetric.length = 3 ∧
        ∀ m ∈ r.2.gmetric, m.valueBuffer.Fits := by
    refine ⟨_, rfl, rfl, ?_⟩
    decide +kernel
  obtain ⟨ds, hds, hread⟩ := gmetricPass_decodes memoryLibrary_documented
    (reachable_overflownTables fun _ => 0) hr ⟨"statsd:statsd".toList, 10⟩ (by decide) (by decide)
    hvalues
  exact ⟨r, ds, hr, hlen, hds, hread⟩

end Pass

end StatsdC
