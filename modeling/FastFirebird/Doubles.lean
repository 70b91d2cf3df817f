import Mathlib.Data.Int.Log
import Mathlib.Data.Rat.Floor
import Mathlib.Tactic.Linarith
import Mathlib.Tactic.FieldSimp

/-! Doubles that need not be whole: rounding to 53 bits, and where it does not leave a grid.
Infinities are left out; no magnitude of `2 ^ 1024` is reached here. -/
namespace FastFirebird

/-- To the nearest integer, ties to even. -/
def roundHalfEven (x : ℚ) : ℤ :=
  let r := x - ⌊x⌋
  if r < 1 / 2 then ⌊x⌋
  else if 1 / 2 < r then ⌊x⌋ + 1
  else if ⌊x⌋ % 2 = 0 then ⌊x⌋ else ⌊x⌋ + 1

/-- The exponent of the last of the 53 bits of a magnitude. -/
def lastBit (x : ℚ) : ℤ := max (Int.log 2 |x| - 52) (-1074)

/-- The double nearest to a rational number. -/
def toDouble (x : ℚ) : ℚ := roundHalfEven (x / 2 ^ lastBit x) * 2 ^ lastBit x

/-- Towards zero. -/
def truncate (x : ℚ) : ℤ := if 0 ≤ x then ⌊x⌋ else ⌈x⌉

theorem roundHalfEven_bounds {x : ℚ} {m n : ℤ} (hm : (m : ℚ) ≤ x) (hn : x ≤ n) :
    m ≤ roundHalfEven x ∧ roundHalfEven x ≤ n := by
  have hfloor : m ≤ ⌊x⌋ := Int.le_floor.mpr hm
  have hle : (⌊x⌋ : ℚ) ≤ x := Int.floor_le x
  have hup : ⌊x⌋ < n ∨ x = n := by
    rcases lt_or_eq_of_le hn with hlt | heq
    · left
      exact_mod_cast lt_of_le_of_lt hle hlt
    · exact Or.inr heq
  rcases hup with hlt | heq
  · have hstep : ⌊x⌋ ≤ roundHalfEven x ∧ roundHalfEven x ≤ ⌊x⌋ + 1 := by
      unfold roundHalfEven
      dsimp only
      split_ifs <;> constructor <;> omega
    omega
  · have hx : ⌊x⌋ = n := by rw [heq, Int.floor_intCast]
    have hround : roundHalfEven x = n := by
      unfold roundHalfEven
      dsimp only
      rw [if_pos (by rw [hx, heq]; norm_num), hx]
    omega

/-- Below `2 ^ 48` the steps between doubles are no larger than one 32nd. -/
theorem lastBit_le {x : ℚ} (h : |x| < 2 ^ 48) : lastBit x ≤ -5 := by
  have hlog : Int.log 2 |x| < 48 := by
    by_cases hx : 0 < |x|
    · exact (Int.lt_zpow_iff_log_lt (by norm_num) hx).mp (by exact_mod_cast h)
    · have hzero : |x| = 0 := le_antisymm (not_lt.mp hx) (abs_nonneg x)
      rw [hzero, Int.log_zero_right]
      norm_num
  unfold lastBit
  omega

/-- Rounding does not pass a number of 32nds. -/
theorem toDouble_between {x : ℚ} {a b : ℤ} (h : |x| < 2 ^ 48) (ha : (a : ℚ) / 32 ≤ x)
    (hb : x ≤ (b : ℚ) / 32) : (a : ℚ) / 32 ≤ toDouble x ∧ toDouble x ≤ (b : ℚ) / 32 := by
  have hbit := lastBit_le h
  obtain ⟨k, hk⟩ : ∃ k : ℕ, lastBit x = -5 - k := ⟨(-5 - lastBit x).toNat, by omega⟩
  have hpow : (2 : ℚ) ^ lastBit x = 1 / (32 * 2 ^ k) := by
    rw [hk, zpow_sub₀ (by norm_num), zpow_natCast]
    norm_num
    ring
  have hpos : (0 : ℚ) < 2 ^ k := by positivity
  have hgrid (c : ℤ) : (c : ℚ) / 32 = ((c * 2 ^ k : ℤ) : ℚ) * (1 / (32 * 2 ^ k)) := by
    push_cast
    field_simp
  have hscale : x / (1 / (32 * 2 ^ k)) = x * (32 * 2 ^ k) := by
    field_simp
  have hlow : ((a * 2 ^ k : ℤ) : ℚ) ≤ x / 2 ^ lastBit x := by
    rw [hpow, hscale]
    push_cast
    have hmul := mul_le_mul_of_nonneg_right ha hpos.le
    linarith
  have hhigh : x / 2 ^ lastBit x ≤ ((b * 2 ^ k : ℤ) : ℚ) := by
    rw [hpow, hscale]
    push_cast
    have hmul := mul_le_mul_of_nonneg_right hb hpos.le
    linarith
  obtain ⟨h1, h2⟩ := roundHalfEven_bounds hlow hhigh
  have hunit : (0 : ℚ) ≤ 1 / (32 * 2 ^ k) := by positivity
  rw [toDouble, hpow] at *
  rw [hgrid a, hgrid b]
  constructor
  · apply mul_le_mul_of_nonneg_right _ hunit
    exact_mod_cast h1
  · apply mul_le_mul_of_nonneg_right _ hunit
    exact_mod_cast h2

theorem toDouble_int {n : ℤ} (h : |(n : ℚ)| < 2 ^ 48) : toDouble n = n := by
  have hgrid : ((n * 32 : ℤ) : ℚ) / 32 = n := by
    push_cast
    ring
  have hbounds := @toDouble_between n (n * 32) (n * 32) h hgrid.le hgrid.ge
  rw [hgrid] at hbounds
  exact le_antisymm hbounds.2 hbounds.1

end FastFirebird
