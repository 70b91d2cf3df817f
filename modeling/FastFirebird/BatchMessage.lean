import FastFirebird.BatchFields
import FastFirebird.BatchLayout
import FastFirebird.MessageRoundTrip
import FastFirebird.Statement

/-! `buildBatchFormat` and `encodeBatchRow` for all the types of a column, and what the engine makes
of the format and of a row. -/
namespace FastFirebird

namespace SqlType

abbrev int64 := 580
abbrev double := 480
abbrev d_float := 530
abbrev timestamp := 510
abbrev type_time := 560
abbrev type_date := 570
abbrev timestamp_tz := 32754
abbrev timestamp_tz_ex := 32748
abbrev time_tz := 32756
abbrev time_tz_ex := 32750
abbrev boolean := 32764

end SqlType

namespace Msgcodec

namespace Blr

def varying : UInt8 := 37
def float : UInt8 := 10
def blob2 : UInt8 := 17
def bool : UInt8 := 23
def sql_time_tz : UInt8 := 28

end Blr

namespace BatchMessage

/-- The host converts numbers: `Number(v)` of a bigint and of a text, and to a float. -/
structure MessageHost extends BatchHost where
  ofBigint : Int → Double
  ofText : Text → Double
  floatBits : Double → UInt32

def Double.isNaN (v : Double) : Bool :=
  v.bits.toNat >>> 52 % 2048 == 2047 && v.bits.toNat % 2 ^ 52 != 0

variable (host : MessageHost)

/-- `toScaledBigInt`, of any scale. `10n ** BigInt(fracDigits)` throws if that is negative. -/
def scaledInteger (v : ParamValue) (fracDigits : Int) (ctx : String) : Except FirebirdError Int :=
  if 0 ≤ fracDigits then toScaledBigInt host.toBatchHost v fracDigits.toNat ctx
  else
    match v with
    | .bigint _ => .error ⟨.other, "Exponent must be non-negative", none⟩
    | .number x =>
      if !x.isFinite then
        .error (batchError (ctx ++ ": cannot bind non-finite number to an integer/numeric column"))
      else
        match x.integer with
        | some n =>
          if SafeInteger n then .error ⟨.other, "Exponent must be non-negative", none⟩
          else decimalToScaled (jsString host.toBatchHost x) fracDigits ctx
        | none => decimalToScaled (jsString host.toBatchHost x) fracDigits ctx
    | .string text => decimalToScaled text fracDigits ctx
    | v => .error (batchError (ctx ++ ": cannot bind a " ++ typeofValue v ++
        " to an integer/numeric column"))

def asNumber (v : ParamValue) (ctx : String) : Except FirebirdError Double :=
  match v with
  | .number x => .ok x
  | .bigint n => .ok (host.ofBigint n)
  | .string text =>
    if Double.isNaN (host.ofText text) ∧ toLowerCase host.cases (trim text) ≠ "nan".toList then
      .error (batchError (ctx ++ ": cannot convert '" ++ String.ofList text ++
        "' to a floating-point value"))
    else .ok (host.ofText text)
  | v => .error (batchError (ctx ++ ": cannot bind a " ++ typeofValue v ++
      " to a floating-point column"))

/-- ASCII text as bytes. -/
def latin1 (text : Text) : Bytes := text.map fun c => UInt8.ofNat c.toNat

/-- The bytes of a value for a text column. -/
def textBytes (i : Nat) (v : ParamValue) (ctx : String) : Except FirebirdError Bytes :=
  match v with
  | .string text => host.encodeText i text
  | .buffer b => .ok b
  | .number x => .ok (latin1 (jsString host.toBatchHost x))
  | .bigint n => .ok (latin1 (toString n).toList)
  | .boolean b => .ok (latin1 (if b then "true".toList else "false".toList))
  | .date _ => .error (batchError (ctx ++ ": cannot bind a Date to a text column in a batch"))
  | _ => .error (batchError (ctx ++ ": unsupported value for a text column"))

/-- The length in front, then the bytes and their padding. -/
def opaqueBytes (w : XdrWriter) (data : Bytes) : XdrWriter :=
  (w.uint32 (.int data.length)).opaqueFixed data

abbrev BatchFieldWriter := ParamValue → XdrWriter → Except FirebirdError XdrWriter

def textWriter (i cap : Nat) (ctx : String) : BatchFieldWriter := fun v w => do
  let bytes ← textBytes host i v ctx
  if cap < bytes.length then
    .error (batchError (ctx ++ ": encoded value is " ++ toString bytes.length ++
      " bytes, column allows " ++ toString cap))
  else .ok (opaqueBytes w bytes)

/-- An exact number in range, by its own writer. -/
def exactWriter (d : SqlVarDesc) (min max : Int) (ctx : String)
    (write : Int → XdrWriter → Except FirebirdError XdrWriter) : BatchFieldWriter := fun v w => do
  let n ← scaledInteger host v (-d.scale) ctx
  let n ← checkRange n min max ctx
  write n w

def int128Writer (big : Int) (w : XdrWriter) : Except FirebirdError XdrWriter := do
  let high ← int64Octets (big >>> (64 : Nat))
  return w.raw (high ++ bigEndian 8 (BitVec.ofInt 64 big).toNat)

/-- What a case of the switch over the types does: the type in the BLR, the arguments of `addField`,
and the writer of the field. -/
structure BatchField where
  describe : BlrBuilder → BlrBuilder
  extent : Extent
  write : BatchFieldWriter

/-- A scale is one byte, two's complement. -/
def scaleByte (scale : Int) : UInt8 := ⟨BitVec.ofInt 8 scale⟩

/-- The cases of the switch over the described types. -/
inductive BatchCase where
  | text
  | long
  | int64
  | int128
  | float
  | double
  | timestamp
  | timestamp_tz
  | time_tz
  | blob
  | quad
  | dec16
  | dec34
  | boolean
  deriving Repr, DecidableEq

def batchCase (type : Nat) : Option BatchCase :=
  if type = SqlType.text ∨ type = SqlType.varying ∨ type = SqlType.null then some .text
  else if type = SqlType.short ∨ type = SqlType.long then some .long
  else if type = SqlType.int64 then some .int64
  else if type = SqlType.int128 then some .int128
  else if type = SqlType.float then some .float
  else if type = SqlType.double ∨ type = SqlType.d_float then some .double
  else if type = SqlType.type_date ∨ type = SqlType.type_time ∨ type = SqlType.timestamp then
    some .timestamp
  else if type = SqlType.timestamp_tz ∨ type = SqlType.timestamp_tz_ex then some .timestamp_tz
  else if type = SqlType.time_tz ∨ type = SqlType.time_tz_ex then some .time_tz
  else if type = SqlType.blob then some .blob
  else if type = SqlType.quad ∨ type = SqlType.array then some .quad
  else if type = SqlType.dec16 then some .dec16
  else if type = SqlType.dec34 then some .dec34
  else if type = SqlType.boolean then some .boolean
  else none

/-- The capacity of a text column; that of a parameter without a type is nothing. -/
def textCap (d : SqlVarDesc) : Nat := if d.type = SqlType.null then 0 else d.length

def batchField (i : Nat) (d : SqlVarDesc) : Except FirebirdError BatchField :=
  let ctx := "Batch parameter " ++ toString (i + 1)
  match batchCase d.type with
  | some .text =>
    .ok ⟨fun b => (b.byte Blr.varying).word (textCap d), ⟨textCap d + 2, 2⟩,
      textWriter host i (textCap d) ctx⟩
  | some .long =>
    .ok ⟨fun b => (b.byte Blr.long).byte (scaleByte d.scale), ⟨4, 4⟩,
      exactWriter host d INT32_MIN INT32_MAX ctx fun n w => .ok (w.int32 (.int n))⟩
  | some .int64 =>
    .ok ⟨fun b => (b.byte Blr.int64).byte (scaleByte d.scale), ⟨8, 8⟩,
      exactWriter host d INT64_MIN INT64_MAX ctx fun n w => w.bigInt64 n⟩
  | some .int128 =>
    .ok ⟨fun b => (b.byte Blr.int128).byte (scaleByte d.scale), ⟨16, 8⟩,
      exactWriter host d INT128_MIN INT128_MAX ctx int128Writer⟩
  | some .float =>
    .ok ⟨fun b => b.byte Blr.float, ⟨4, 4⟩, fun v w => do
      let x ← asNumber host v ctx
      return w.raw (bigEndian 4 (host.floatBits x).toNat)⟩
  | some .double =>
    .ok ⟨fun b => b.byte Blr.double, ⟨8, 8⟩, fun v w => do
      let x ← asNumber host v ctx
      return w.raw (bigEndian 8 x.bits.toNat)⟩
  | some .timestamp =>
    .ok ⟨fun b => b.byte Blr.timestamp, ⟨8, 4⟩, batchWriter host.toBatchHost i .timestamp⟩
  | some .timestamp_tz =>
    .ok ⟨fun b => b.byte Blr.timestamp_tz, ⟨12, 4⟩, batchWriter host.toBatchHost i .timestamp_tz⟩
  | some .time_tz =>
    .ok ⟨fun b => b.byte Blr.sql_time_tz, ⟨8, 4⟩, batchWriter host.toBatchHost i .time_tz⟩
  | some .blob =>
    .ok ⟨fun b => ((b.byte Blr.blob2).word (d.subType % 65536).toNat).word (d.scale % 256).toNat,
      ⟨8, 4⟩, batchWriter host.toBatchHost i .blob⟩
  | some .quad =>
    .ok ⟨fun b => (b.byte Blr.quad).byte 0, ⟨8, 4⟩, batchWriter host.toBatchHost i .blob⟩
  | some .dec16 =>
    .ok ⟨fun b => b.byte Blr.dec64, ⟨8, 8⟩, batchWriter host.toBatchHost i .dec16⟩
  | some .dec34 =>
    .ok ⟨fun b => b.byte Blr.dec128, ⟨16, 8⟩, batchWriter host.toBatchHost i .dec34⟩
  | some .boolean =>
    .ok ⟨fun b => b.byte Blr.bool, ⟨1, 1⟩, batchWriter host.toBatchHost i .boolean⟩
  | none => .error (batchError (ctx ++ ": unsupported SQL type " ++ toString d.type))

structure BatchFormat where
  blr : Bytes
  msglen : Int
  alignedStride : Int
  writers : List BatchFieldWriter
  blobIndices : List Nat

/-- What the loop over the inputs keeps. -/
structure FormatState where
  b : BlrBuilder
  msglen : Int := 0
  writers : List BatchFieldWriter := []
  blobIndices : List Nat := []

def addField (msglen : Int) (e : Extent) : Int :=
  let msglen := if 1 < e.alignment then fbAlign msglen e.alignment else msglen
  fbAlign (msglen + e.size) 2 + 2

def formatLoop : Nat → List SqlVarDesc → FormatState → Except FirebirdError FormatState
  | _, [], s => .ok s
  | i, d :: inputs, s => do
    let field ← batchField host i d
    formatLoop (i + 1) inputs
      { b := nullSlot (field.describe s.b)
        msglen := addField s.msglen field.extent
        writers := s.writers ++ [field.write]
        blobIndices := if d.type = SqlType.blob then s.blobIndices ++ [i] else s.blobIndices }

def buildBatchFormat (inputs : List SqlVarDesc) : Except FirebirdError BatchFormat := do
  let s ← formatLoop host 0 inputs { b := blrHeader {} inputs.length }
  return ⟨blrFooter s.b, s.msglen, fbAlign s.msglen 8, s.writers, s.blobIndices⟩

/-- The value of each field; what is missing is undefined. -/
def rowCells (n : Nat) (values : List ParamValue) : List ParamValue :=
  (List.range n).map fun i => values.getD i .undefined

/-- The writers of the cells that are not null, in order. -/
def writeCells : List BatchFieldWriter → List ParamValue → XdrWriter → Except FirebirdError XdrWriter
  | write :: writers, v :: cells, w => do
    let w ← if isNullish v then .ok w else write v w
    writeCells writers cells w
  | _, _, w => .ok w

def encodeBatchRow (format : BatchFormat) (values : List ParamValue) : Except FirebirdError Bytes := do
  let n := format.writers.length
  let cells := rowCells n values
  let bitmap := nullBits 0 cells (List.replicate ((n + 7) >>> 3) 0)
  let w ← writeCells format.writers cells (XdrWriter.opaqueFixed {} bitmap)
  return w.buf

/-! The engine -/

/-- A field of a message, as its BLR describes it. -/
inductive MessageField where
  | varying (length : Nat)
  | long (scale : Int)
  | int64 (scale : Int)
  | int128 (scale : Int)
  | float
  | double
  | timestamp
  | timestamp_tz
  | sql_time_tz
  | blob2 (subType charset : Nat)
  | quad
  | dec64
  | dec128
  | bool
  deriving Repr, DecidableEq

/-- Sizes and alignments in a message of the engine. -/
def MessageField.extent : MessageField → Extent
  | varying n => ⟨n + 2, 2⟩
  | long _ => ⟨4, 4⟩
  | int64 _ => ⟨8, 8⟩
  | int128 _ => ⟨16, 8⟩
  | float => ⟨4, 4⟩
  | double => ⟨8, 8⟩
  | timestamp => ⟨8, 4⟩
  | timestamp_tz => ⟨12, 4⟩
  | sql_time_tz => ⟨8, 4⟩
  | blob2 _ _ => ⟨8, 4⟩
  | quad => ⟨8, 4⟩
  | dec64 => ⟨8, 8⟩
  | dec128 => ⟨16, 8⟩
  | bool => ⟨1, 1⟩

/-- The length of a message. -/
def messageLength (fields : List MessageField) : Nat := layoutEnd 0 (fields.map MessageField.extent)

def wordAt (low high : UInt8) : Nat := low.toNat + 256 * high.toNat

def parseMessageField (bytes : Bytes) : Option (MessageField × Bytes) :=
  match bytes with
  | [] => none
  | code :: rest =>
    if code = Blr.varying then
      match rest with
      | low :: high :: rest => some (.varying (wordAt low high), rest)
      | _ => none
    else if code = Blr.blob2 then
      match rest with
      | low :: high :: low' :: high' :: rest =>
        some (.blob2 (wordAt low high) (wordAt low' high'), rest)
      | _ => none
    else if code = Blr.quad then
      match rest with
      | scale :: rest => if scale = 0 then some (.quad, rest) else none
      | [] => none
    else if code = Blr.long ∨ code = Blr.int64 ∨ code = Blr.int128 then
      match rest with
      | scale :: rest =>
        let scale := scale.toBitVec.toInt
        some (if code = Blr.long then .long scale else if code = Blr.int64 then .int64 scale
          else .int128 scale, rest)
      | [] => none
    else if code = Blr.float then some (.float, rest)
    else if code = Blr.double then some (.double, rest)
    else if code = Blr.timestamp then some (.timestamp, rest)
    else if code = Blr.timestamp_tz then some (.timestamp_tz, rest)
    else if code = Blr.sql_time_tz then some (.sql_time_tz, rest)
    else if code = Blr.dec64 then some (.dec64, rest)
    else if code = Blr.dec128 then some (.dec128, rest)
    else if code = Blr.bool then some (.bool, rest)
    else none

def parseMessageFields : Nat → Bytes → Option (List MessageField)
  | 0, _ => none
  | fuel + 1, bytes =>
    if bytes = [Blr.end_, Blr.eoc] then some []
    else do
      let (field, rest) ← parseMessageField bytes
      let rest ← parseNullSlot rest
      let fields ← parseMessageFields fuel rest
      return field :: fields

/-- The count word of the message, and its fields. -/
def parseMessage : Bytes → Option (Nat × List MessageField)
  | a :: b :: c :: d :: low :: high :: rest =>
    if a = Blr.version5 ∧ b = Blr.begin_ ∧ c = Blr.message ∧ d = 0 then
      (parseMessageFields rest.length rest).map fun fields => (wordAt low high, fields)
    else none
  | _ => none

/-- A value of a row; an exact number counts in units of ten to its scale. -/
inductive RowValue where
  | text (bytes : Bytes)
  | exact (n scale : Int)
  | float (bits : UInt32)
  | double (v : Double)
  | timestamp (days : Int) (fractions : Nat)
  | timestamp_tz (days : Int) (fractions : Nat) (tzId : Number)
  | time_tz (fractions : Nat) (tzId : Number)
  | quad (id : Bytes)
  | decimal (bytes : Bytes)
  | boolean (b : Bool)
  deriving Repr, DecidableEq

/-- Reads a field of a row in XDR; no text is longer than its field allows. -/
def readMessageField (field : MessageField) (bytes : Bytes) : Option (RowValue × Bytes) :=
  match field with
  | .varying n => do
    let (length, bytes) ← readUint32 bytes
    if n < length then none
    else (readPadded length bytes).map fun (data, rest) => (.text data, rest)
  | .long scale => (readInt32 bytes).map fun (n, rest) => (.exact n scale, rest)
  | .int64 scale => (readInt64 bytes).map fun (n, rest) => (.exact n scale, rest)
  | .int128 scale => (readInt128 bytes).map fun (n, rest) => (.exact n scale, rest)
  | .float => (readBytes 4 bytes).map fun (data, rest) =>
    (.float (UInt32.ofNat (ofBigEndian data)), rest)
  | .double => (readBytes 8 bytes).map fun (data, rest) =>
    (.double ⟨UInt64.ofNat (ofBigEndian data)⟩, rest)
  | .timestamp => do
    let (days, bytes) ← readInt32 bytes
    let (frac, bytes) ← readUint32 bytes
    return (.timestamp days frac, bytes)
  | .timestamp_tz => do
    let (days, bytes) ← readInt32 bytes
    let (frac, bytes) ← readUint32 bytes
    let (tzId, bytes) ← readUint32 bytes
    return (.timestamp_tz days frac (.int ((tzId &&& 0xffff : Nat) : Int)), bytes)
  | .sql_time_tz => do
    let (frac, bytes) ← readUint32 bytes
    let (tzId, bytes) ← readUint32 bytes
    return (.time_tz frac (.int ((tzId &&& 0xffff : Nat) : Int)), bytes)
  | .blob2 _ _ | .quad => (readBytes 8 bytes).map fun (id, rest) => (.quad id, rest)
  | .dec64 => (readBytes 8 bytes).map fun (data, rest) => (.decimal data, rest)
  | .dec128 => (readBytes 16 bytes).map fun (data, rest) => (.decimal data, rest)
  | .bool => (readPadded 1 bytes).map fun (data, rest) => (.boolean (data != [0]), rest)

def readMessageCells (bitmap : Bytes) : Nat → List MessageField → Bytes →
    Option (List (Option RowValue) × Bytes)
  | _, [], bytes => some ([], bytes)
  | i, field :: fields, bytes =>
    if isNullBit bitmap i then
      (readMessageCells bitmap (i + 1) fields bytes).map fun (row, rest) => (none :: row, rest)
    else do
      let (v, bytes) ← readMessageField field bytes
      let (row, rest) ← readMessageCells bitmap (i + 1) fields bytes
      return (some v :: row, rest)

def readMessageRow (fields : List MessageField) (bytes : Bytes) :
    Option (List (Option RowValue) × Bytes) := do
  let (bitmap, bytes) ← readPadded ((fields.length + 7) >>> 3) bytes
  readMessageCells bitmap 0 fields bytes

end BatchMessage
end Msgcodec
end FastFirebird
