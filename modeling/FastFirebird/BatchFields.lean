import FastFirebird.DateTimes
import FastFirebird.NumberText

/-! `protocol/batch.ts`: the fields of a batch message, written by the type of their column. Text
and floating-point columns are left out. -/
namespace FastFirebird.Msgcodec

/-- The described type of a parameter; the `EX` types are those without. A number of fraction
digits is a negative scale. -/
inductive SqlColumn where
  | short (fracDigits : Nat)
  | long (fracDigits : Nat)
  | int64 (fracDigits : Nat)
  | int128 (fracDigits : Nat)
  | type_date
  | type_time
  | timestamp
  | timestamp_tz
  | time_tz
  | blob
  | dec16
  | dec34
  | boolean
  deriving Repr, DecidableEq

/-- The host spells numbers. -/
structure BatchHost extends EncodeHost where
  fractionText : Double → Text

def BatchHost.within (host : BatchHost) (zone : Zone) : BatchHost :=
  { host with localTime := zone.localTime }

def batchError (message : String) : FirebirdError := ⟨.firebird, message, none⟩

def TZ_ID_UTC_OFFSET : Int := 1439

def INT128_MIN : Int := -2 ^ 127
def INT128_MAX : Int := 2 ^ 127 - 1

def Double.isFinite (v : Double) : Bool := v.bits.toNat >>> 52 % 2048 != 2047

/-- `String(v)` -/
def jsString (host : BatchHost) (v : Double) : Text :=
  match v.integer with
  | some n => numberText n
  | none => host.fractionText v

/-- `typeof v` -/
def typeofValue : ParamValue → String
  | .undefined => "undefined"
  | .string _ => "string"
  | .boolean _ => "boolean"
  | .number _ => "number"
  | .bigint _ => "bigint"
  | .other typeof => typeof
  | _ => "object"

def SafeInteger (n : Int) : Prop := -MAX_SAFE_INTEGER ≤ n ∧ n ≤ MAX_SAFE_INTEGER

instance (n : Int) : Decidable (SafeInteger n) := inferInstanceAs (Decidable (_ ∧ _))

def toScaledBigInt (host : BatchHost) (v : ParamValue) (fracDigits : Nat) (ctx : String) :
    Except FirebirdError Int :=
  match v with
  | .bigint n => .ok (n * 10 ^ fracDigits)
  | .number v =>
    if !v.isFinite then
      .error (batchError (ctx ++ ": cannot bind non-finite number to an integer/numeric column"))
    else
      match v.integer with
      | some n =>
        if SafeInteger n then .ok (n * 10 ^ fracDigits)
        else decimalToScaled (jsString host v) fracDigits ctx
      | none => decimalToScaled (jsString host v) fracDigits ctx
  | .string text => decimalToScaled text fracDigits ctx
  | v => .error (batchError (ctx ++ ": cannot bind a " ++ typeofValue v ++
      " to an integer/numeric column"))

def checkRange (v min max : Int) (ctx : String) : Except FirebirdError Int :=
  if v < min ∨ max < v then
    .error (batchError (ctx ++ ": value " ++ toString v ++ " out of range for the column type"))
  else .ok v

/-- Milliseconds since midnight in universal time; `%` goes towards zero. -/
def msOfDay (date : JsDate) : Number :=
  match date.time with
  | none => .nan
  | some t => .int ((t.tmod 86400000 + 86400000).tmod 86400000)

/-- `msOfDay * 10` -/
def timeFractions (date : JsDate) : Number :=
  match msOfDay date with
  | .int ms => .int (ms * 10)
  | other => other

/-- The writer of a field for a value that is not null. -/
def batchWriter (host : BatchHost) (i : Nat) (column : SqlColumn) (v : ParamValue)
    (w : XdrWriter) : Except FirebirdError XdrWriter :=
  let ctx := "Batch parameter " ++ toString (i + 1)
  match column with
  | .short fracDigits | .long fracDigits => do
    let n ← toScaledBigInt host v fracDigits ctx
    let n ← checkRange n INT32_MIN INT32_MAX ctx
    return w.int32 (.int n)
  | .int64 fracDigits => do
    let n ← toScaledBigInt host v fracDigits ctx
    let n ← checkRange n INT64_MIN INT64_MAX ctx
    w.bigInt64 n
  | .int128 fracDigits => do
    let n ← toScaledBigInt host v fracDigits ctx
    let big ← checkRange n INT128_MIN INT128_MAX ctx
    let high ← int64Octets (big >>> (64 : Nat))
    return w.raw (high ++ bigEndian 8 (BitVec.ofInt 64 big).toNat)
  | .type_date | .type_time | .timestamp =>
    match v with
    | .date d =>
      let (days, fractions) := encodeTimestamp host.toEncodeHost d
      .ok ((w.int32 days).uint32 fractions)
    | _ => .error (batchError (ctx ++ ": pass a Date for a DATE/TIME/TIMESTAMP column in a batch"))
  | .timestamp_tz =>
    match v with
    | .zonedDate date zone => do
      let (days, fractions) := encodeTimestampUtc date
      let tzId ← zoneToTzId host.toEncodeHost zone
      return ((w.int32 days).uint32 fractions).uint32 tzId
    | .date d =>
      let (days, fractions) := encodeTimestampUtc d
      .ok (((w.int32 days).uint32 fractions).uint32 (.int TZ_ID_UTC_OFFSET))
    | _ => .error (batchError (ctx ++
        ": pass a Date or ZonedDate for a TIMESTAMP WITH TIME ZONE column"))
  | .time_tz =>
    match v with
    | .zonedDate date zone => do
      let tzId ← zoneToTzId host.toEncodeHost zone
      return (w.uint32 (timeFractions date)).uint32 tzId
    | .date d => .ok ((w.uint32 (timeFractions d)).uint32 (.int TZ_ID_UTC_OFFSET))
    | _ => .error (batchError (ctx ++
        ": pass a Date or ZonedDate for a TIME WITH TIME ZONE column"))
  | .blob =>
    match v with
    | .blobRef id => .ok (w.raw id)
    | _ => .error (batchError (ctx ++ ": unsupported value for a BLOB column in a batch"))
  | .dec16 | .dec34 =>
    let size := if column = .dec16 then 8 else 16
    match v with
    | .decFloat d =>
      if d.bytes.length ≠ size then
        .error (batchError (ctx ++ ": unsupported value for a DECFLOAT column in a batch"))
      else .ok (w.raw d.bytes)
    | _ => .error (batchError (ctx ++ ": unsupported value for a DECFLOAT column in a batch"))
  | .boolean =>
    match v with
    | .boolean b => .ok (w.opaqueFixed [if b then 1 else 0])
    | .number v => .ok (w.opaqueFixed [if v.integer ≠ some 0 then 1 else 0])
    | _ => .error (batchError (ctx ++ ": pass a boolean for a BOOLEAN column"))

def isNullish : ParamValue → Bool
  | .null | .undefined => true
  | _ => false

/-- The bits of the nulls, from the `i`-th value on. -/
def nullBits : Nat → List ParamValue → Bytes → Bytes
  | _, [], bitmap => bitmap
  | i, v :: values, bitmap =>
    nullBits (i + 1) values (if isNullish v then setBit bitmap i else bitmap)

/-- The loop over the writers, from the `i`-th on. -/
def writeFields (host : BatchHost) :
    Nat → List SqlColumn → List ParamValue → XdrWriter → Except FirebirdError XdrWriter
  | i, column :: columns, v :: values, w => do
    let w ← if isNullish v then .ok w else batchWriter host i column v w
    writeFields host (i + 1) columns values w
  | _, _, _, w => .ok w

def encodeBatchRow (host : BatchHost) (columns : List SqlColumn) (values : List ParamValue) :
    Except FirebirdError Bytes := do
  let bitmap := nullBits 0 values (List.replicate ((columns.length + 7) >>> 3) 0)
  let w ← writeFields host 0 columns values (XdrWriter.opaqueFixed {} bitmap)
  return w.buf

/-! What has been accepted -/

theorem checkRange_ok {n min max m : Int} {ctx : String} (h : checkRange n min max ctx = .ok m) :
    m = n ∧ min ≤ n ∧ n ≤ max := by
  unfold checkRange at h
  split at h
  · cases h
  · cases h
    exact ⟨rfl, by omega, by omega⟩

theorem bind_ok {α β : Type} {x : Except FirebirdError α} {f : α → Except FirebirdError β} {b : β}
    (h : x >>= f = .ok b) : ∃ a, x = .ok a ∧ f a = .ok b := by
  cases x with
  | error e => cases h
  | ok a => exact ⟨a, rfl, h⟩

theorem int32_field {n : Int} (hlow : INT32_MIN ≤ n) (hhigh : n ≤ INT32_MAX) (rest : Bytes) :
    readInt32 (bigEndian 4 (Number.int n).toUint32 ++ rest) = some (n, rest) := by
  unfold INT32_MIN at hlow
  unfold INT32_MAX at hhigh
  rw [readInt32_append, toInt32_toInt (by omega) (by omega)]

/-! What both ways do to a value first -/

/-- `/^[+-]?\d+$/` -/
def integerLiteral (text : Text) : Option Int :=
  let (negative, digits) := splitSign text
  if digits ≠ [] ∧ digits.all Char.isDigit then
    some (if negative then -(decimalValue digits : Int) else decimalValue digits)
  else none

def toDecFloat (text : Text) (byteWidth : ByteWidth) : Except FirebirdError ParamValue :=
  match encodeDecFloat text byteWidth with
  | .error message => .error (batchError (String.ofList message))
  | .ok bytes =>
    if h : bytes.length = 8 ∨ bytes.length = 16 then .ok (.decFloat ⟨bytes, h⟩)
    else .error (batchError "DecFloatVal expects 8 or 16 bytes")

/-- One round of `prepareParams`. What is uploaded for a `BLOB` is a `BlobRef` already. -/
def prepareParam (host : BatchHost) (column : SqlColumn) (v : ParamValue) :
    Except FirebirdError ParamValue :=
  let decFloatText : Option Text := match v with
    | .string text => some text
    | .number v => some (jsString host v)
    | .bigint n => some (toString n).toList
    | _ => none
  match column, decFloatText with
  | .dec16, some text => toDecFloat text .w8
  | .dec34, some text => toDecFloat text .w16
  | .int128 _, _ =>
    match v with
    | .string text => .ok ((integerLiteral text).elim v .bigint)
    | _ => .ok v
  | _, _ => .ok v

end FastFirebird.Msgcodec
