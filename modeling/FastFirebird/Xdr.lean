import FastFirebird.Packet
import FastFirebird.Octets
import FastFirebird.Numbers

/-! `protocol/xdr.ts`: what the writer appends, and reading it again. How the buffer grows is left
out. -/
namespace FastFirebird

/-- `(n + 3) & ~3`. -/
def padded (n : Nat) : Nat := (n + 3) / 4 * 4

structure XdrWriter where
  buf : Bytes := []
  deriving Repr, DecidableEq

def rangeError : FirebirdError :=
  ⟨.other, "The value of \"value\" is out of range.", none⟩

namespace XdrWriter

def raw (w : XdrWriter) (data : Bytes) : XdrWriter := ⟨w.buf ++ data⟩

def int32 (w : XdrWriter) (v : Number) : XdrWriter := w.raw (bigEndian 4 v.toUint32)

def uint32 (w : XdrWriter) (v : Number) : XdrWriter := w.raw (bigEndian 4 v.toUint32)

/-- Raw bytes, no length in front, padded to a multiple of four. -/
def opaqueFixed (w : XdrWriter) (data : Bytes) : XdrWriter :=
  w.raw (data ++ List.replicate (padded data.length - data.length) 0)

end XdrWriter

/-- The octets of `writeBigInt64BE`. -/
def int64Octets (v : Int) : Except FirebirdError Bytes :=
  if -2 ^ 63 ≤ v ∧ v < 2 ^ 63 then .ok (bigEndian 8 (BitVec.ofInt 64 v).toNat)
  else .error rangeError

def XdrWriter.bigInt64 (w : XdrWriter) (v : Int) : Except FirebirdError XdrWriter :=
  (int64Octets v).map w.raw

/-! Reading -/

/-- The first `n` bytes of what is buffered, if there are as many. -/
def readBytes (n : Nat) (bytes : Bytes) : Option (Bytes × Bytes) :=
  if n ≤ bytes.length then some (bytes.take n, bytes.drop n) else none

/-- `readPadded`: the padding goes with the bytes. -/
def readPadded (n : Nat) (bytes : Bytes) : Option (Bytes × Bytes) :=
  (readBytes (padded n) bytes).map fun (data, rest) => (data.take n, rest)

/-- A signed number of `w` bits. -/
def ofSigned (w : Nat) (octets : Bytes) : Int := (BitVec.ofNat w (ofBigEndian octets)).toInt

def readInt32 (bytes : Bytes) : Option (Int × Bytes) :=
  (readBytes 4 bytes).map fun (data, rest) => (ofSigned 32 data, rest)

/-- `(await w.readInt32()) >>> 0`. -/
def readUint32 (bytes : Bytes) : Option (Nat × Bytes) :=
  (readBytes 4 bytes).map fun (data, rest) => (ofBigEndian data, rest)

def readInt64 (bytes : Bytes) : Option (Int × Bytes) :=
  (readBytes 8 bytes).map fun (data, rest) => (ofSigned 64 data, rest)

/-- A high half with the sign, and the low half. -/
def readInt128 (bytes : Bytes) : Option (Int × Bytes) :=
  (readBytes 16 bytes).map fun (data, rest) =>
    (ofSigned 64 (data.take 8) * 2 ^ 64 + ofBigEndian (data.drop 8), rest)

/-! What has been written is read -/

theorem readBytes_append {n : Nat} {data : Bytes} (h : data.length = n) (rest : Bytes) :
    readBytes n (data ++ rest) = some (data, rest) := by
  have hlen : n ≤ (data ++ rest).length := by
    rw [List.length_append]
    omega
  rw [readBytes, if_pos hlen, List.take_left' h, List.drop_left' h]

theorem readBytes_length {n : Nat} {bytes data rest : Bytes}
    (h : readBytes n bytes = some (data, rest)) : data.length = n := by
  simp only [readBytes] at h
  split at h
  · rename_i hlen
    cases h
    rw [List.length_take]
    omega
  · cases h

theorem le_padded (n : Nat) : n ≤ padded n := by
  simp only [padded]
  omega

theorem readPadded_append {data filler : Bytes}
    (h : data.length + filler.length = padded data.length) (rest : Bytes) :
    readPadded data.length (data ++ filler ++ rest) = some (data, rest) := by
  have hlen : (data ++ filler).length = padded data.length := by rw [List.length_append, h]
  rw [readPadded, readBytes_append hlen rest]
  simp

theorem ofSigned_bigEndian {k w : Nat} (hw : w = 8 * k) (x : BitVec w) :
    ofSigned w (bigEndian k x.toNat) = x.toInt := by
  have hpow : 2 ^ w = 256 ^ k := by rw [hw, Nat.pow_mul]
  have hlt : x.toNat < 256 ^ k := x.isLt.trans_eq hpow
  rw [ofSigned, ofBigEndian_bigEndian_of_lt hlt, BitVec.ofNat_toNat, BitVec.setWidth_eq]

theorem readInt32_append (v : Number) (rest : Bytes) :
    readInt32 (bigEndian 4 v.toUint32 ++ rest) = some (v.toInt32.toInt, rest) := by
  have hsigned : ofSigned 32 (bigEndian 4 v.toUint32) = v.toInt32.toInt :=
    @ofSigned_bigEndian 4 32 (by decide) v.toInt32.toBitVec
  rw [readInt32, readBytes_append (length_bigEndian 4 _), ← hsigned]
  rfl

theorem toUint32_lt (v : Number) : v.toUint32 < 2 ^ 32 := v.toInt32.toBitVec.isLt

theorem readUint32_append (v : Number) (rest : Bytes) :
    readUint32 (bigEndian 4 v.toUint32 ++ rest) = some (v.toUint32, rest) := by
  have hvalue : ofBigEndian (bigEndian 4 v.toUint32) = v.toUint32 :=
    ofBigEndian_bigEndian_of_lt (toUint32_lt v)
  rw [readUint32, readBytes_append (length_bigEndian 4 _)]
  simp only [Option.map_some, hvalue]

/-- `writeBigInt64BE` throws, or its octets are read back. -/
theorem int64Octets_read {v : Int} {octets : Bytes} (h : int64Octets v = .ok octets) :
    octets.length = 8 ∧ ofSigned 64 octets = v := by
  simp only [int64Octets] at h
  split at h
  · rename_i hrange
    cases h
    have hsigned : ofSigned 64 (bigEndian 8 (BitVec.ofInt 64 v).toNat) = (BitVec.ofInt 64 v).toInt :=
      @ofSigned_bigEndian 8 64 (by decide) _
    have hvalue : (BitVec.ofInt 64 v).toInt = v :=
      BitVec.toInt_ofInt_eq_self (by decide) hrange.1 hrange.2
    exact ⟨length_bigEndian 8 _, hsigned.trans hvalue⟩
  · cases h

end FastFirebird
