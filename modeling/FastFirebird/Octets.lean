import Mathlib.Data.Nat.Bitwise

/-! Numbers as octets, the high one first; or the low one, of numbers with a sign. -/
namespace FastFirebird

/-- The low `k` octets of `n`. -/
def bigEndian : Nat → Nat → List UInt8
  | 0, _ => []
  | k + 1, n => bigEndian k (n >>> 8) ++ [UInt8.ofNat n]

def ofBigEndian (octets : List UInt8) : Nat := octets.foldl (fun n b => (n <<< 8) ||| b.toNat) 0

@[simp] theorem length_bigEndian (k n : Nat) : (bigEndian k n).length = k := by
  induction k generalizing n with
  | zero => rfl
  | succ k ih => simp [bigEndian, ih]

theorem shiftLeft_or {n k b : Nat} (hb : b < 2 ^ k) : (n <<< k) ||| b = n * 2 ^ k + b := by
  rw [← Nat.shiftLeft_add_eq_or_of_lt hb, Nat.shiftLeft_eq]

theorem ofBigEndian_concat (octets : List UInt8) (b : UInt8) :
    ofBigEndian (octets ++ [b]) = ofBigEndian octets * 256 + b.toNat := by
  rw [ofBigEndian, List.foldl_append]
  exact shiftLeft_or (k := 8) b.toNat_lt

theorem ofBigEndian_bigEndian (k n : Nat) : ofBigEndian (bigEndian k n) = n % 256 ^ k := by
  induction k generalizing n with
  | zero => simp [bigEndian, ofBigEndian, Nat.mod_one]
  | succ k ih =>
    have hshift : n >>> 8 = n / 256 := Nat.shiftRight_eq_div_pow n 8
    have hlow : (UInt8.ofNat n).toNat = n % 256 := rfl
    rw [bigEndian, ofBigEndian_concat, ih, hshift, hlow, Nat.pow_succ', Nat.mod_mul]
    omega

theorem ofBigEndian_bigEndian_of_lt {k n : Nat} (h : n < 256 ^ k) :
    ofBigEndian (bigEndian k n) = n := by
  rw [ofBigEndian_bigEndian, Nat.mod_eq_of_lt h]

/-! The low one first -/

def toLittleEndian : Nat → Nat → List UInt8
  | 0, _ => []
  | k + 1, n => UInt8.ofNat n :: toLittleEndian k (n / 256)

def ofLittleEndian : List UInt8 → Nat
  | [] => 0
  | b :: octets => b.toNat + 256 * ofLittleEndian octets

@[simp] theorem length_toLittleEndian (k n : Nat) : (toLittleEndian k n).length = k := by
  induction k generalizing n with
  | zero => rfl
  | succ k ih => simp [toLittleEndian, ih]

theorem ofLittleEndian_toLittleEndian {k n : Nat} (h : n < 256 ^ k) :
    ofLittleEndian (toLittleEndian k n) = n := by
  induction k generalizing n with
  | zero =>
    have hzero : n = 0 := Nat.lt_one_iff.mp h
    rw [hzero]
    rfl
  | succ k ih =>
    have hhigh : n / 256 < 256 ^ k := by
      rw [Nat.pow_succ] at h
      exact Nat.div_lt_of_lt_mul (by omega)
    have hlow : (UInt8.ofNat n).toNat = n % 256 := rfl
    rw [toLittleEndian, ofLittleEndian, ih hhigh, hlow]
    omega

/-- Two's complement. -/
def signedLE (octets : List UInt8) : Int :=
  let n := ofLittleEndian octets
  if 2 * n < 256 ^ octets.length then n else n - (256 ^ octets.length : Nat)

def toSignedLE (k : Nat) (v : Int) : List UInt8 :=
  toLittleEndian k (if 0 ≤ v then v else v + (256 ^ k : Nat)).toNat

@[simp] theorem length_toSignedLE (k : Nat) (v : Int) : (toSignedLE k v).length = k :=
  length_toLittleEndian _ _

theorem signedLE_toSignedLE {k : Nat} {v : Int} (hlow : -(256 ^ k : Nat) ≤ 2 * v)
    (hhigh : 2 * v < (256 ^ k : Nat)) : signedLE (toSignedLE k v) = v := by
  unfold signedLE
  dsimp only
  rw [length_toSignedLE, toSignedLE]
  generalize hpow : 256 ^ k = size at *
  by_cases hsign : 0 ≤ v
  · rw [if_pos hsign, ofLittleEndian_toLittleEndian (by omega), if_pos (by omega)]
    omega
  · rw [if_neg hsign, ofLittleEndian_toLittleEndian (by omega), if_neg (by omega)]
    omega

end FastFirebird
