import Mathlib.Data.Nat.Log
import Mathlib.Algebra.GroupWithZero.Nat

/-! The numbers of the language where they are whole: doubles of 53 bits, and the bit operations
on them. A negative zero is a zero here. -/
namespace FastFirebird

inductive Number where
  | nan
  | infinity (negative : Bool)
  | int (i : Int)
  deriving Repr, DecidableEq

/-- `m` to a significand of 53 bits, ties to even. -/
def roundSignificand (m : Nat) : Nat :=
  let shift := m.log2 + 1 - 53
  let q := m / 2 ^ shift
  let r := m % 2 ^ shift
  (if 2 ^ shift < 2 * r ∨ (2 * r = 2 ^ shift ∧ q % 2 = 1) then q + 1 else q) * 2 ^ shift

namespace Number

/-- From here on only the infinities are left. -/
def overflow : Nat := 2 ^ 1024

/-- The number nearest to a whole one. -/
def ofInt (i : Int) : Number :=
  let m := roundSignificand i.natAbs
  if overflow ≤ m then infinity (i < 0) else int (if i < 0 then -m else m)

def add : Number → Int → Number
  | nan, _ => nan
  | infinity negative, _ => infinity negative
  | int i, j => ofInt (i + j)

def isNegative : Number → Bool
  | nan => false
  | infinity negative => negative
  | int i => i < 0

/-- What the bit operations make of a number: it wraps. -/
def toInt32 : Number → Int32
  | int i => Int32.ofInt i
  | nan | infinity _ => 0

/-- `v >>> 0`. -/
def toUint32 (v : Number) : Nat := v.toInt32.toBitVec.toNat

end Number

end FastFirebird
