import FastFirebird.Xdr
import FastFirebird.DecFloat
import FastFirebird.ScriptParser

/-! `protocol/msgcodec.ts`: parameters as the BLR and the data of a message, and the rows that are
read in the same layout. -/
namespace FastFirebird.Msgcodec

/-! `types/datetime.ts` and `types/zoned-date.ts` -/

/-- A `Date`: milliseconds, none when it is invalid. -/
structure JsDate where
  time : Option Int
  clipped : ∀ t ∈ time, t.natAbs ≤ 8640000000000000

/-- What the getters of a valid date say in the zone of the host. -/
structure LocalTime where
  fullYear : Int
  month : Int
  date : Int
  hours : Int
  minutes : Int
  seconds : Int
  milliseconds : Int

/-- What the encoder asks others for: the character set of each parameter, and the host. -/
structure EncodeHost where
  encodeText : Nat → Text → Except FirebirdError Bytes
  localTime : Int → LocalTime
  cases : CaseMap
  tzNames : List Text

def MS_PER_DAY : Int := 86400000

def EPOCH_DIFF_DAYS : Int := 40587

/-- The day a month begins with, counted from 1970; `month` from 0. -/
def daysOfMonth (year month : Int) : Int :=
  let y := year + month / 12
  let leap := y % 4 = 0 ∧ (y % 100 ≠ 0 ∨ y % 400 = 0)
  let before : Int := match (month % 12).toNat with
    | 0 => 0
    | 1 => 31
    | 2 => 59
    | 3 => 90
    | 4 => 120
    | 5 => 151
    | 6 => 181
    | 7 => 212
    | 8 => 243
    | 9 => 273
    | 10 => 304
    | _ => 334
  365 * (y - 1970) + (y - 1969) / 4 - (y - 1901) / 100 + (y - 1601) / 400 + before +
    (if leap ∧ 2 ≤ month % 12 then 1 else 0)

/-- `Date.UTC(year, month, day)`; a year of two digits is one of the twentieth century. -/
def dateUTC (year month day : Int) : Number :=
  let y := if 0 ≤ year ∧ year ≤ 99 then 1900 + year else year
  let t := (daysOfMonth y month + day - 1) * MS_PER_DAY
  if t.natAbs ≤ 8640000000000000 then .int t else .nan

def dateToDays (year month day : Int) : Number :=
  match dateUTC year (month - 1) day with
  | .int t => .int (t / MS_PER_DAY + EPOCH_DIFF_DAYS)
  | other => other

def timeMsToFractions (ms : Int) : Int := ms * 10

/-- Days and fractions of a `TIMESTAMP`: the local wall clock. -/
def encodeTimestamp (host : EncodeHost) (value : JsDate) : Number × Number :=
  match value.time with
  | none => (.nan, .nan)
  | some t =>
    let l := host.localTime t
    let ms := l.hours * 3600000 + l.minutes * 60000 + l.seconds * 1000 + l.milliseconds
    (dateToDays l.fullYear (l.month + 1) l.date, .int (timeMsToFractions ms))

/-- The quotient of a time and a day is never rounded up to the next day. -/
def encodeTimestampUtc (value : JsDate) : Number × Number :=
  match value.time with
  | none => (.nan, .nan)
  | some ms =>
    let dayIndex := ms / MS_PER_DAY
    (.int (dayIndex + 40587), .int ((ms - dayIndex * MS_PER_DAY) * 10))

def ONE_DAY_MINUTES : Int := 1439

def TZ_MAX_ID : Int := 65535

/-- `/^([+-])(\d{1,2}):?(\d{2})$/`, as minutes. -/
def offsetMinutes (zone : Text) : Option Int :=
  let of (sign : Char) (hours minutes : List Char) : Option Int :=
    if (sign = '+' ∨ sign = '-') ∧ (hours ++ minutes).all Char.isDigit then
      some ((if sign = '-' then -1 else 1) * (decimalValue hours * 60 + decimalValue minutes))
    else none
  match zone with
  | [s, h₁, h₂, ':', m₁, m₂] => of s [h₁, h₂] [m₁, m₂]
  | [s, h₁, ':', m₁, m₂] => of s [h₁] [m₁, m₂]
  | [s, h₁, h₂, m₁, m₂] => of s [h₁, h₂] [m₁, m₂]
  | [s, h₁, m₁, m₂] => of s [h₁] [m₁, m₂]
  | _ => none

/-- `/^tz#(\d+)$/`. -/
def zoneMarker (zone : Text) : Option Number :=
  match zone with
  | 't' :: 'z' :: '#' :: digits =>
    if digits ≠ [] ∧ digits.all Char.isDigit then some (.ofInt (decimalValue digits)) else none
  | _ => none

/-- The last of the names that are the same but for their case. -/
def namedZone (host : EncodeHost) (zone : Text) : Option Int :=
  ((host.tzNames.zipIdx.filter fun entry =>
    toLowerCase host.cases entry.1 = toLowerCase host.cases zone).getLast?).map fun entry =>
      TZ_MAX_ID - entry.2

def zoneToTzId (host : EncodeHost) (zone : Text) : Except FirebirdError Number :=
  match offsetMinutes zone with
  | some disp =>
    if ONE_DAY_MINUTES < disp.natAbs then
      .error ⟨.firebird, "Time zone offset out of range: '" ++ String.ofList zone ++ "'", none⟩
    else .ok (.int (disp + ONE_DAY_MINUTES))
  | none =>
    match zoneMarker zone with
    | some id => .ok id
    | none =>
      match namedZone host zone with
      | some id => .ok (.int id)
      | none => .error ⟨.firebird, "Unknown time zone: '" ++ String.ofList zone ++
          "' (expected an IANA name like 'Europe/Lisbon' or an offset like '+02:00')", none⟩

/-! Parameters -/

/-- A `number` by the bits of its double. -/
structure Double where
  bits : UInt64
  deriving Repr, DecidableEq

/-- The value, if it is whole: `Number.isInteger`. -/
def Double.integer (v : Double) : Option Int :=
  let bits := v.bits.toNat
  let exponent := bits >>> 52 % 2048
  let fraction := bits % 2 ^ 52
  let significand := if exponent = 0 then fraction else fraction + 2 ^ 52
  -- the significand counts steps of 2 ^ (scale - 1075)
  let scale := if exponent = 0 then 1 else exponent
  let magnitude : Option Nat :=
    if exponent = 2047 then none
    else if 1075 ≤ scale then some (significand <<< (scale - 1075))
    else if significand % 2 ^ (1075 - scale) = 0 then some (significand >>> (1075 - scale))
    else none
  magnitude.map fun m => if bits >>> 63 = 1 then -(m : Int) else m

structure DecFloatVal where
  bytes : Bytes
  width : bytes.length = 8 ∨ bytes.length = 16

inductive ParamValue where
  | null
  | undefined
  | string (s : Text)
  | boolean (b : Bool)
  | number (v : Double)
  | bigint (v : Int)
  | zonedDate (date : JsDate) (zone : Text)
  | date (d : JsDate)
  | blobRef (id : Bytes)
  | decFloat (v : DecFloatVal)
  | buffer (b : Bytes)
  | other (typeof : String)

namespace Blr

def version5 : UInt8 := 5
def begin_ : UInt8 := 2
def message : UInt8 := 4
def text : UInt8 := 14
def short : UInt8 := 7
def long : UInt8 := 8
def int64 : UInt8 := 16
def int128 : UInt8 := 26
def quad : UInt8 := 9
def double : UInt8 := 27
def timestamp : UInt8 := 35
def dec64 : UInt8 := 24
def dec128 : UInt8 := 25
def timestamp_tz : UInt8 := 29
def end_ : UInt8 := 255
def eoc : UInt8 := 76

end Blr

structure BlrBuilder where
  bytes : Bytes := []
  deriving Repr, DecidableEq

namespace BlrBuilder

def byte (b : BlrBuilder) (x : UInt8) : BlrBuilder := ⟨b.bytes ++ [x]⟩

/-- Sixteen bits, the low ones first. -/
def word (b : BlrBuilder) (w : Nat) : BlrBuilder :=
  ⟨b.bytes ++ [UInt8.ofNat w, UInt8.ofNat (w >>> 8)]⟩

end BlrBuilder

def blrHeader (b : BlrBuilder) (fieldCount : Nat) : BlrBuilder :=
  ((((b.byte Blr.version5).byte Blr.begin_).byte Blr.message).byte 0).word (fieldCount * 2)

def blrFooter (b : BlrBuilder) : Bytes := ((b.byte Blr.end_).byte Blr.eoc).bytes

/-- The null indicator behind every field. -/
def nullSlot (b : BlrBuilder) : BlrBuilder := (b.byte Blr.short).byte 0

/-! Encoding -/

/-- One of the writers that are kept until the bitmap is complete. -/
abbrev ParamWriter := XdrWriter → Except FirebirdError XdrWriter

structure ParamState where
  blr : BlrBuilder
  bitmap : Bytes
  values2 : List ParamWriter

def setBit (bitmap : Bytes) (i : Nat) : Bytes :=
  bitmap.set (i >>> 3) (UInt8.ofNat ((bitmap.getD (i >>> 3) 0).toNat ||| (1 <<< (i &&& 7))))

def INT32_MIN : Int := -2147483648
def INT32_MAX : Int := 2147483647
def INT64_MIN : Int := -2 ^ 63
def INT64_MAX : Int := 2 ^ 63 - 1
def MAX_SAFE_INTEGER : Int := 2 ^ 53 - 1

namespace ParamState

/-- A field with its null indicator, and its writer. -/
def field (s : ParamState) (describe : BlrBuilder → BlrBuilder) (write : ParamWriter) :
    ParamState :=
  ⟨nullSlot (describe s.blr), s.bitmap, s.values2 ++ [write]⟩

def text (s : ParamState) (bytes : Bytes) : ParamState :=
  s.field (fun blr => (blr.byte Blr.text).word bytes.length) fun w => .ok (w.opaqueFixed bytes)

end ParamState

def longerThan (what : String) : FirebirdError :=
  ⟨.firebird, what ++ " parameter longer than 65535 bytes; use a BLOB column", none⟩

/-- One round of the loop over the values. -/
def encodeParam (host : EncodeHost) (i : Nat) (v : ParamValue) (s : ParamState) :
    Except FirebirdError ParamState :=
  match v with
  | .null | .undefined =>
    .ok ⟨nullSlot ((s.blr.byte Blr.text).word 1), setBit s.bitmap i, s.values2⟩
  | .string text =>
    match host.encodeText i text with
    | .error e => .error e
    | .ok bytes =>
      if 0xffff < bytes.length then .error (longerThan "String") else .ok (s.text bytes)
  | .boolean b => .ok (s.text (if b then [116, 114, 117, 101] else [102, 97, 108, 115, 101]))
  | .number v =>
    match v.integer with
    | some n =>
      if INT32_MIN ≤ n ∧ n ≤ INT32_MAX then
        .ok (s.field (fun blr => (blr.byte Blr.long).byte 0) fun w => .ok (w.int32 (.int n)))
      else if -MAX_SAFE_INTEGER ≤ n ∧ n ≤ MAX_SAFE_INTEGER then
        .ok (s.field (fun blr => (blr.byte Blr.int64).byte 0) fun w => w.bigInt64 n)
      else
        .ok (s.field (fun blr => blr.byte Blr.double) fun w =>
          .ok (w.raw (bigEndian 8 v.bits.toNat)))
    | none =>
      .ok (s.field (fun blr => blr.byte Blr.double) fun w =>
        .ok (w.raw (bigEndian 8 v.bits.toNat)))
  | .bigint v =>
    if INT64_MIN ≤ v ∧ v ≤ INT64_MAX then
      .ok (s.field (fun blr => (blr.byte Blr.int64).byte 0) fun w => w.bigInt64 v)
    else
      .ok (s.field (fun blr => (blr.byte Blr.int128).byte 0) fun w => do
        let high ← int64Octets (v >>> (64 : Nat))
        return w.raw (high ++ bigEndian 8 (BitVec.ofInt 64 v).toNat))
  | .zonedDate date zone => do
    let (days, fractions) := encodeTimestampUtc date
    let tzId ← zoneToTzId host zone
    return s.field (fun blr => blr.byte Blr.timestamp_tz) fun w =>
      .ok (((w.int32 days).uint32 fractions).uint32 tzId)
  | .date d =>
    let (days, fractions) := encodeTimestamp host d
    .ok (s.field (fun blr => blr.byte Blr.timestamp) fun w =>
      .ok ((w.int32 days).uint32 fractions))
  | .blobRef id => .ok (s.field (fun blr => (blr.byte Blr.quad).byte 0) fun w => .ok (w.raw id))
  | .decFloat v =>
    .ok (s.field (fun blr => blr.byte (if v.bytes.length = 8 then Blr.dec64 else Blr.dec128))
      fun w => .ok (w.raw v.bytes))
  | .buffer b =>
    if 0xffff < b.length then .error (longerThan "Buffer") else .ok (s.text b)
  | .other typeof =>
    .error ⟨.firebird, "Unsupported parameter value type: " ++ typeof, none⟩

/-- The loop, from the `i`-th value on. -/
def encodeValues (host : EncodeHost) : Nat → List ParamValue → ParamState →
    Except FirebirdError ParamState
  | _, [], s => .ok s
  | i, v :: values, s => do
    let s ← encodeParam host i v s
    encodeValues host (i + 1) values s

def runWriters : List ParamWriter → XdrWriter → Except FirebirdError XdrWriter
  | [], w => .ok w
  | write :: writers, w => do
    let w ← write w
    runWriters writers w

def encodeParams (host : EncodeHost) (values : List ParamValue) :
    Except FirebirdError EncodedParams := do
  let n := values.length
  let bitmapLen := (n + 7) >>> 3
  let s ← encodeValues host 0 values
    ⟨blrHeader {} n, List.replicate bitmapLen 0, []⟩
  let data := (XdrWriter.raw {} s.bitmap).raw
    (List.replicate (padded bitmapLen - bitmapLen) 0xff)
  let data ← runWriters s.values2 data
  return ⟨blrFooter s.blr, data.buf⟩

/-! Reading rows -/

/-- The types a message field of a parameter can have. -/
inductive FieldType where
  | text (length : Nat)
  | long
  | int64
  | int128
  | double
  | timestamp
  | timestamp_tz
  | quad
  | dec64
  | dec128
  deriving Repr, DecidableEq

/-- What a column reader takes off the wire, before it becomes a value of the language. -/
inductive WireValue where
  | text (bytes : Bytes)
  | long (v : Int)
  | int64 (v : Int)
  | int128 (v : Int)
  | double (v : Double)
  | timestamp (days : Int) (fractions : Nat)
  | timestamp_tz (days : Int) (fractions : Nat) (tzId : Number)
  | quad (id : Bytes)
  | decimal (bytes : Bytes)
  deriving Repr, DecidableEq

/-- The reads of `makeColumnReader`. -/
def readField (type : FieldType) (bytes : Bytes) : Option (WireValue × Bytes) :=
  match type with
  | .text length => (readPadded length bytes).map fun (data, rest) => (.text data, rest)
  | .long => (readInt32 bytes).map fun (v, rest) => (.long v, rest)
  | .int64 => (readInt64 bytes).map fun (v, rest) => (.int64 v, rest)
  | .int128 => (readInt128 bytes).map fun (v, rest) => (.int128 v, rest)
  | .double => (readBytes 8 bytes).map fun (data, rest) =>
    (.double ⟨UInt64.ofNat (ofBigEndian data)⟩, rest)
  | .timestamp => do
    let (days, bytes) ← readInt32 bytes
    let (frac, bytes) ← readUint32 bytes
    return (.timestamp days frac, bytes)
  | .timestamp_tz => do
    let (days, bytes) ← readInt32 bytes
    let (frac, bytes) ← readUint32 bytes
    let (tzId, bytes) ← readUint32 bytes
    return (.timestamp_tz days frac (.int ((tzId &&& 0xffff : Nat) : Int)), bytes)
  | .quad => (readBytes 8 bytes).map fun (id, rest) => (.quad id, rest)
  | .dec64 => (readBytes 8 bytes).map fun (data, rest) => (.decimal data, rest)
  | .dec128 => (readBytes 16 bytes).map fun (data, rest) => (.decimal data, rest)

def isNullBit (bitmap : Bytes) (i : Nat) : Bool :=
  (bitmap.getD (i >>> 3) 0).toNat &&& (1 <<< (i &&& 7)) != 0

/-- The loop of `readRow`, from the `i`-th column on. -/
def readCells (bitmap : Bytes) : Nat → List FieldType → Bytes →
    Option (List (Option WireValue) × Bytes)
  | _, [], bytes => some ([], bytes)
  | i, type :: types, bytes =>
    if isNullBit bitmap i then
      (readCells bitmap (i + 1) types bytes).map fun (row, rest) => (none :: row, rest)
    else do
      let (v, bytes) ← readField type bytes
      let (row, rest) ← readCells bitmap (i + 1) types bytes
      return (some v :: row, rest)

def readRow (types : List FieldType) (bytes : Bytes) :
    Option (List (Option WireValue) × Bytes) := do
  let (bitmap, bytes) ← readPadded ((types.length + 7) >>> 3) bytes
  readCells bitmap 0 types bytes

end FastFirebird.Msgcodec
