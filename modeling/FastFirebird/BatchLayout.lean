import Mathlib.Data.Nat.Bitwise

/-! Layouts: fields of given sizes and alignments one behind the other, and `fbAlign`, which
computes in 32 bits. -/
namespace FastFirebird

/-- The first multiple of `a` from `n` on. -/
def alignUp (n a : Nat) : Nat := (n + a - 1) / a * a

section
variable {n m a : Nat}

theorem le_alignUp (ha : 0 < a) : n ≤ alignUp n a := by
  have hmod := Nat.mod_lt (n + a - 1) ha
  have hsplit := Nat.div_add_mod' (n + a - 1) a
  unfold alignUp
  omega

theorem dvd_alignUp : a ∣ alignUp n a := Nat.dvd_mul_left a _

theorem alignUp_least (ha : 0 < a) (hm : a ∣ m) (h : n ≤ m) : alignUp n a ≤ m := by
  obtain ⟨k, rfl⟩ := hm
  have hle : (n + a - 1) / a ≤ k := by
    apply Nat.le_of_lt_succ
    apply (Nat.div_lt_iff_lt_mul ha).mpr
    have hmul : k.succ * a = a * k + a := by rw [Nat.succ_mul, Nat.mul_comm]
    omega
  calc (n + a - 1) / a * a ≤ k * a := Nat.mul_le_mul_right a hle
    _ = a * k := Nat.mul_comm k a

theorem alignUp_one : alignUp n 1 = n := by
  rw [alignUp, Nat.div_one, Nat.mul_one]
  omega

end

/-! Placing fields -/

/-- A field as the engine places it. -/
structure Extent where
  size : Nat
  alignment : Nat
  deriving Repr, DecidableEq

/-- Aligned, with an aligned null indicator of two bytes behind it. -/
def Extent.place (offset : Nat) (e : Extent) : Nat :=
  alignUp (alignUp offset e.alignment + e.size) 2 + 2

/-- Where the fields end. -/
def layoutEnd (offset : Nat) (extents : List Extent) : Nat := extents.foldl Extent.place offset

theorem Extent.le_place {offset : Nat} {e : Extent} (h : 0 < e.alignment) :
    offset ≤ e.place offset := by
  have hstart := le_alignUp (n := offset) h
  have hend := le_alignUp (n := alignUp offset e.alignment + e.size) Nat.two_pos
  unfold Extent.place
  omega

theorem le_layoutEnd {extents : List Extent} (h : ∀ e ∈ extents, 0 < e.alignment) :
    ∀ offset, offset ≤ layoutEnd offset extents := by
  induction extents with
  | nil => exact fun offset => Nat.le_refl offset
  | cons e extents ih =>
    intro offset
    have hfirst : offset ≤ e.place offset := Extent.le_place (h e List.mem_cons_self)
    have hrest := ih (fun e he => h e (List.mem_cons_of_mem _ he)) (e.place offset)
    exact Nat.le_trans hfirst hrest

/-! `fbAlign` -/

/-- `(len + alignment - 1) & ~(alignment - 1)` -/
def fbAlign (len : Int) (alignment : Nat) : Int :=
  (BitVec.ofInt 32 (len + alignment - 1) &&& ~~~BitVec.ofNat 32 (alignment - 1)).toInt

theorem and_not_mask {x k : Nat} (hx : x < 2 ^ 32) (hk : k ≤ 32) :
    x &&& (2 ^ 32 - 1 - (2 ^ k - 1)) = x / 2 ^ k * 2 ^ k := by
  have hmask : 2 ^ 32 - 1 - (2 ^ k - 1) = (2 ^ (32 - k) - 1) * 2 ^ k := by
    have hpow : 2 ^ (32 - k) * 2 ^ k = 2 ^ 32 := by rw [← Nat.pow_add, Nat.sub_add_cancel hk]
    have hpos := Nat.two_pow_pos k
    rw [Nat.sub_mul, hpow]
    omega
  apply Nat.eq_of_testBit_eq
  intro i
  rw [hmask, Nat.testBit_and, Nat.testBit_mul_two_pow, Nat.testBit_mul_two_pow,
    Nat.testBit_two_pow_sub_one, Nat.testBit_div_two_pow]
  by_cases hi : k ≤ i
  · rw [Nat.sub_add_cancel hi, decide_eq_true hi, Bool.true_and, Bool.true_and]
    by_cases hlarge : i < 32
    · rw [decide_eq_true (by omega), Bool.and_true]
    · have hzero : x.testBit i = false := by
        apply Nat.testBit_lt_two_pow
        exact Nat.lt_of_lt_of_le hx (Nat.pow_le_pow_right Nat.two_pos (by omega))
      rw [hzero, Bool.false_and]
  · rw [decide_eq_false hi, Bool.false_and, Bool.false_and, Bool.and_false]

/-- Below 2 ^ 31 it is the mathematical alignment. -/
theorem fbAlign_eq {n k : Nat} (hk : k ≤ 31) (h : n + 2 ^ k - 1 < 2 ^ 31) :
    fbAlign n (2 ^ k) = alignUp n (2 ^ k) := by
  have hpos := Nat.two_pow_pos k
  have hpow : 2 ^ k ≤ 2 ^ 31 := Nat.pow_le_pow_right Nat.two_pos hk
  have hcast : (n : Int) + (2 ^ k : Nat) - 1 = ((n + 2 ^ k - 1 : Nat) : Int) := by omega
  have hbits : (BitVec.ofInt 32 ((n : Int) + (2 ^ k : Nat) - 1) &&&
      ~~~BitVec.ofNat 32 (2 ^ k - 1)).toNat = alignUp n (2 ^ k) := by
    have hmask : (2 ^ k - 1) % 2 ^ 32 = 2 ^ k - 1 := Nat.mod_eq_of_lt (by omega)
    have hvalue : (n + 2 ^ k - 1) % 2 ^ 32 = n + 2 ^ k - 1 := Nat.mod_eq_of_lt (by omega)
    rw [hcast, BitVec.toNat_and, BitVec.toNat_not, BitVec.toNat_ofNat, hmask, BitVec.ofInt_natCast,
      BitVec.toNat_ofNat, hvalue, and_not_mask (by omega) (by omega)]
    rfl
  have hless : alignUp n (2 ^ k) < 2 ^ 31 :=
    Nat.lt_of_le_of_lt (Nat.div_mul_le_self _ _) h
  rw [fbAlign, BitVec.toInt_eq_toNat_of_lt (by rw [hbits]; omega), hbits]

/-- What it yields for an alignment of eight has room in 32 bits. -/
theorem fbAlign_eight_le (len : Int) : fbAlign len 8 ≤ 2 ^ 31 - 8 := by
  generalize hx : BitVec.ofInt 32 (len + (8 : Nat) - 1) = x
  have hand : (x &&& ~~~BitVec.ofNat 32 (8 - 1)).toNat = x.toNat / 2 ^ 3 * 2 ^ 3 := by
    have hmask := and_not_mask (k := 3) x.isLt (by decide)
    rw [BitVec.toNat_and, BitVec.toNat_not, BitVec.toNat_ofNat]
    exact hmask
  rw [fbAlign, hx, BitVec.toInt_eq_toNat_cond, hand]
  have hlt := x.isLt
  split <;> omega

end FastFirebird
