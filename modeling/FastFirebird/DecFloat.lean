import FastFirebird.Scanner
import FastFirebird.Octets
import FastFirebird.Numerals
import FastFirebird.Numbers

/-! `types/decfloat.ts`: decimal floats between text and the octets of the wire. -/
namespace FastFirebird

/-- `buffer.constants.MAX_STRING_LENGTH`. -/
def maxStringLength : Nat := 2 ^ 29 - 24

/-- A string as the runtime can hold it. -/
structure JsString where
  text : Text
  bounded : text.length ≤ maxStringLength

/-- A sign, and what comes behind it. -/
def splitSign : Text → Bool × Text
  | '+' :: rest => (false, rest)
  | '-' :: rest => (true, rest)
  | text => (false, text)

/-- `parseInt(text, 10)`. What follows the digits is ignored. -/
def parseInt (text : Text) : Number :=
  let (negative, rest) := splitSign (text.dropWhile isSpace)
  let digits := rest.takeWhile Char.isDigit
  if digits = [] then .nan
  else .ofInt (if negative then -(decimalValue digits : Int) else decimalValue digits)

/-! Declets -/

def encodeDeclet (d2 d1 d0 : Nat) : Nat :=
  let a := (d2 >>> 3) &&& 1
  let b := (d2 >>> 2) &&& 1
  let c := (d2 >>> 1) &&& 1
  let d := d2 &&& 1
  let e := (d1 >>> 3) &&& 1
  let f := (d1 >>> 2) &&& 1
  let g := (d1 >>> 1) &&& 1
  let h := d1 &&& 1
  let i := (d0 >>> 3) &&& 1
  let j := (d0 >>> 2) &&& 1
  let k := (d0 >>> 1) &&& 1
  let m := d0 &&& 1
  let aei := (a <<< 2) ||| (e <<< 1) ||| i
  let bits := match aei with
    | 0b000 => [b, c, d, f, g, h, 0, j, k, m]
    | 0b001 => [b, c, d, f, g, h, 1, 0, 0, m]
    | 0b010 => [b, c, d, j, k, h, 1, 0, 1, m]
    | 0b011 => [b, c, d, 1, 0, h, 1, 1, 1, m]
    | 0b100 => [j, k, d, f, g, h, 1, 1, 0, m]
    | 0b101 => [f, g, d, 0, 1, h, 1, 1, 1, m]
    | 0b110 => [j, k, d, 0, 0, h, 1, 1, 1, m]
    | _ => [0, 0, d, 1, 1, h, 1, 1, 1, m]
  bits.foldl (fun acc bit => (acc <<< 1) ||| bit) 0

/-- Where `buildDpdTable` writes, and what. -/
def dpdEntries : List (Nat × Nat) :=
  (List.range 10).flatMap fun d2 => (List.range 10).flatMap fun d1 => (List.range 10).map fun d0 =>
    (encodeDeclet d2 d1 d0, d2 * 100 + d1 * 10 + d0)

def buildDpdTable : List Nat :=
  dpdEntries.foldl (fun table entry => table.set entry.1 entry.2) (List.replicate 1024 0)

/-- `DPD_TO_INT[declet]`. -/
def dpdToInt (declet : Nat) : Nat := buildDpdTable.getD declet 0

/-! Formats -/

inductive ByteWidth where
  | w8
  | w16
  deriving Repr, DecidableEq

def ByteWidth.toNat : ByteWidth → Nat
  | w8 => 8
  | w16 => 16

structure DecimalFormat where
  width : Nat
  bias : Nat
  expContBits : Nat
  declets : Nat
  deriving Repr, DecidableEq

def DEC64 : DecimalFormat := ⟨8, 398, 8, 5⟩

def DEC128 : DecimalFormat := ⟨16, 6176, 12, 11⟩

def DecimalFormat.totalBits (fmt : DecimalFormat) : Nat := fmt.width * 8

def ByteWidth.format : ByteWidth → DecimalFormat
  | w8 => DEC64
  | w16 => DEC128

def padStart (length : Nat) (fill : Char) (text : Text) : Text :=
  List.replicate (length - text.length) fill ++ text

/-- `replace(/^0+(?=\d)/, '')`. -/
def stripZeros : Text → Text
  | '0' :: c :: rest => if c.isDigit then stripZeros (c :: rest) else '0' :: c :: rest
  | text => text

/-! Decoding -/

/-- Sign, digits and exponent as a plain decimal. -/
def format (neg : Bool) (digits : Text) (exp : Int) : Text :=
  let s := if neg then ['-'] else []
  if digits = ['0'] then s ++ ['0']
  else if exp = 0 then s ++ digits
  else if 0 < exp then s ++ digits ++ List.replicate exp.toNat '0'
  else
    let point := digits.length + exp
    if 0 < point then s ++ digits.take point.toNat ++ '.' :: digits.drop point.toNat
    else s ++ '0' :: '.' :: List.replicate (-point).toNat '0' ++ digits

def infinityName (neg : Bool) : Text := (if neg then "-Infinity" else "Infinity").toList

def nanName : Text := "NaN".toList

/-- High bits of the exponent, and the leading digit. -/
def splitCombo (combo : Nat) : Nat × Nat :=
  if combo >>> 3 = 0b11 then ((combo >>> 1) &&& 0b11, 8 + (combo &&& 1))
  else ((combo >>> 3) &&& 0b11, combo &&& 0b111)

/-- The digits of the declets, the high ones first. -/
def decletDigits (declets coeffCont : Nat) : Text :=
  (List.range declets).reverse.flatMap fun d =>
    padStart 3 '0' (Nat.toDigits 10 (dpdToInt ((coeffCont >>> (d * 10)) &&& 0x3ff)))

def decodeDecFloat (buf : List UInt8) : Text :=
  let fmt := if buf.length = 8 then DEC64 else DEC128
  let v := ofBigEndian buf
  let sign := (v >>> (fmt.totalBits - 1)) &&& 1
  let combo := (v >>> (fmt.totalBits - 6)) &&& 0x1f
  let expCont := (v >>> (fmt.totalBits - 6 - fmt.expContBits)) &&& ((1 <<< fmt.expContBits) - 1)
  let coeffCont := v &&& ((1 <<< (fmt.declets * 10)) - 1)
  let neg := sign = 1
  if 0b11110 ≤ combo then if combo = 0b11110 then infinityName neg else nanName
  else
    let (expMsb, msd) := splitCombo combo
    let biasedExp := (expMsb <<< fmt.expContBits) ||| expCont
    let exponent := (biasedExp : Int) - fmt.bias
    let digits := Nat.toDigits 10 msd ++ decletDigits fmt.declets coeffCont
    format neg (stripZeros digits) exponent

/-! Encoding -/

structure ParsedDecimal where
  neg : Bool
  digits : Text
  exp : Number
  deriving Repr, DecidableEq

def isExponentMark (c : Char) : Bool := c == 'e' || c == 'E'

/-- The exponent a text ends with, and the text in front of it. -/
def splitExponent (s : Text) : Number × Text :=
  match s.findIdx? isExponentMark with
  | some e => (parseInt (s.drop (e + 1)), s.take e)
  | none => (.int 0, s)

/-- The point taken out, and the exponent moved for it. -/
def splitPoint (exp : Number) (s : Text) : Number × Text :=
  match s.idxOf? '.' with
  | some dot => (exp.add (-((s.length : Int) - dot - 1)), s.take dot ++ s.drop (dot + 1))
  | none => (exp, s)

def parseDecimal (input : Text) : Except Text ParsedDecimal :=
  let (neg, s) := splitSign (trim input)
  let (exp, s) := splitExponent s
  let (exp, s) := splitPoint exp s
  if s ≠ [] ∧ s.all Char.isDigit then .ok ⟨neg, stripZeros s, exp⟩
  else .error ("Invalid decimal literal: ".toList ++ input)

def DecimalFormat.maxDigits (fmt : DecimalFormat) : Nat := fmt.declets * 3 + 1

/-- The digits the format has room for, rounded half up. -/
def fitDigits (maxDigits : Nat) (digits : Text) (exp : Number) : Text × Number :=
  if maxDigits < digits.length then
    let dropped := digits.length - maxDigits
    let coeff := decimalValue (digits.take maxDigits)
    let coeff := if 5 ≤ (digits.getD maxDigits '0').toNat - 48 then coeff + 1 else coeff
    let exp := exp.add dropped
    let digits := Nat.toDigits 10 coeff
    if maxDigits < digits.length then (digits.take maxDigits, exp.add 1) else (digits, exp)
  else (digits, exp)

/-- The combination field. -/
def comboField (expMsb msd : Int32) : Int32 :=
  if msd ≤ 7 then (expMsb <<< 3) ||| msd else (0b11000 : Int32) ||| (expMsb <<< 1) ||| (msd - 8)

/-- `(v << k) | x`. `v` is a `BigInt`, of which no more than `n` bits reach the buffer. -/
def pushBits {n : Nat} (v : BitVec n) (k : Nat) (x : Int) : BitVec n := (v <<< k) ||| BitVec.ofInt n x

def specialDecFloat (neg : Bool) (combo : Nat) (byteWidth : ByteWidth) : List UInt8 :=
  UInt8.ofNat ((neg.toNat <<< 7) ||| (combo <<< 2)) :: List.replicate (byteWidth.toNat - 1) 0

/-- The bits of sign, combination field, exponent and declets behind each other. -/
def packBits (fmt : DecimalFormat) (neg : Bool) (combo expCont : Int) (rest : Text) :
    BitVec fmt.totalBits :=
  let v := if neg then 1 else 0
  let v := pushBits v 5 combo
  let v := pushBits v fmt.expContBits expCont
  (List.range fmt.declets).foldl (fun v i =>
    let d2 := (rest.getD (i * 3) '0').toNat - 48
    let d1 := (rest.getD (i * 3 + 1) '0').toNat - 48
    let d0 := (rest.getD (i * 3 + 2) '0').toNat - 48
    pushBits v 10 (encodeDeclet d2 d1 d0)) v

/-- `/^[+-]?(inf|infinity)$/`. -/
def isInfinityName (special : Text) : Bool :=
  let name := (splitSign special).2
  name == "inf".toList || name == "infinity".toList

/-- `/^[+-]?nan$/`. -/
def isNanName (special : Text) : Bool := (splitSign special).2 == "nan".toList

/-- The exponent as the format has it: of the digits that are kept, and biased. -/
def biasedExponent (fmt : DecimalFormat) (digits : Text) (exp : Number) : Number :=
  (fitDigits fmt.maxDigits digits exp).2.add fmt.bias

/-- What the check lets through. -/
def exponentAccepted (fmt : DecimalFormat) (biasedExp : Number) : Bool :=
  !(biasedExp.isNegative || 0b11 < biasedExp.toInt32 >>> Int32.ofNat fmt.expContBits)

/-- No character outside the alphabet has one of the letters of the special names as its
lower case. -/
def encodeDecFloat (value : Text) (byteWidth : ByteWidth) : Except Text (List UInt8) :=
  let special := (trim value).map Char.toLower
  if isInfinityName special then
    .ok (specialDecFloat (special.head? = some '-') 0b11110 byteWidth)
  else if isNanName special then .ok (specialDecFloat false 0b11111 byteWidth)
  else
    let fmt := byteWidth.format
    match parseDecimal value with
    | .error e => .error e
    | .ok ⟨neg, digits, exp⟩ =>
      let biasedExp := biasedExponent fmt digits exp
      let digits := padStart fmt.maxDigits '0' (fitDigits fmt.maxDigits digits exp).1
      let msd := (digits.getD 0 '0').toNat - 48
      let expMsb := biasedExp.toInt32 >>> Int32.ofNat fmt.expContBits
      let expCont := biasedExp.toInt32 &&& ((1 <<< Int32.ofNat fmt.expContBits) - 1)
      if exponentAccepted fmt biasedExp then
        let combo := comboField expMsb (Int32.ofNat msd)
        .ok (bigEndian byteWidth.toNat
          (packBits fmt neg combo.toInt expCont.toInt (digits.drop 1)).toNat)
      else .error ("DECFLOAT exponent out of range for ".toList ++ value)

end FastFirebird
