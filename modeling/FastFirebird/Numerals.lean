import Mathlib.Algebra.Order.Field.Rat
import Mathlib.Algebra.GroupWithZero.Basic
import Mathlib.Tactic.Ring
import Mathlib.Tactic.NormNum

/-! Decimal numerals: what their digits are worth, how they are spelled, and what is left of them
when only so many digits are kept. -/
namespace FastFirebird

def AllDigits (digits : List Char) : Prop := ∀ c ∈ digits, c.isDigit = true

instance (digits : List Char) : Decidable (AllDigits digits) :=
  List.decidableBAll _ _

def decimalValue (digits : List Char) : Nat := Nat.ofDigitChars 10 digits 0

/-- How many digits a number is written with. -/
def digitCount (n : Nat) : Nat := (Nat.toDigits 10 n).length

theorem AllDigits.of_append {a b : List Char} (h : AllDigits (a ++ b)) :
    AllDigits a ∧ AllDigits b := by
  constructor
  · intro c hc
    exact h c (List.mem_append_left b hc)
  · intro c hc
    exact h c (List.mem_append_right a hc)

theorem AllDigits.append {a b : List Char} (ha : AllDigits a) (hb : AllDigits b) :
    AllDigits (a ++ b) := by
  intro c hc
  rcases List.mem_append.mp hc with hc | hc
  · exact ha c hc
  · exact hb c hc

theorem allDigits_toDigits (n : Nat) : AllDigits (Nat.toDigits 10 n) := by
  intro c hc
  exact Nat.isDigit_of_mem_toDigits (by decide) (by decide) hc

theorem isDigit_bounds {c : Char} (h : c.isDigit = true) : 48 ≤ c.toNat ∧ c.toNat ≤ 57 := by
  simp only [Char.isDigit, Bool.and_eq_true, decide_eq_true_eq, ge_iff_le, UInt32.le_iff_toNat_le]
    at h
  exact h

theorem decimalValue_append (a b : List Char) :
    decimalValue (a ++ b) = decimalValue a * 10 ^ b.length + decimalValue b := by
  rw [decimalValue, Nat.ofDigitChars_append, Nat.ofDigitChars_eq_ofDigitChars_zero, Nat.mul_comm]
  rfl

@[simp] theorem decimalValue_nil : decimalValue [] = 0 := rfl

theorem decimalValue_cons (c : Char) (digits : List Char) :
    decimalValue (c :: digits) = (c.toNat - 48) * 10 ^ digits.length + decimalValue digits := by
  have happend := decimalValue_append [c] digits
  have hone : decimalValue [c] = c.toNat - 48 := by
    simp [decimalValue, Nat.ofDigitChars_cons]
  rw [hone] at happend
  exact happend

@[simp] theorem decimalValue_toDigits (n : Nat) : decimalValue (Nat.toDigits 10 n) = n :=
  Nat.ofDigitChars_ten_toDigits

@[simp] theorem decimalValue_zeros (n : Nat) (digits : List Char) :
    decimalValue (List.replicate n '0' ++ digits) = decimalValue digits := by
  simp [decimalValue, Nat.ofDigitChars_append]

theorem decimalValue_lt {digits : List Char} (h : AllDigits digits) :
    decimalValue digits < 10 ^ digits.length := by
  induction digits with
  | nil => simp
  | cons c digits ih =>
    have hc := isDigit_bounds (h c List.mem_cons_self)
    have hrest := ih fun d hd => h d (List.mem_cons_of_mem c hd)
    have hhigh : (c.toNat - 48) * 10 ^ digits.length ≤ 9 * 10 ^ digits.length := by
      apply Nat.mul_le_mul_right
      omega
    rw [decimalValue_cons, List.length_cons, Nat.pow_succ]
    omega

/-- Digits that begin with no zero are as many as their number has. -/
theorem digitCount_decimalValue {c : Char} {digits : List Char} (h : AllDigits (c :: digits))
    (hc : c ≠ '0') : digitCount (decimalValue (c :: digits)) = digits.length + 1 := by
  have hlt := decimalValue_lt h
  have hle : digitCount (decimalValue (c :: digits)) ≤ digits.length + 1 :=
    (Nat.length_toDigits_le_iff (by decide) (by omega)).mpr hlt
  have hbounds := isDigit_bounds (h c List.mem_cons_self)
  have hpos : 1 ≤ c.toNat - 48 := by
    have hne : c.toNat ≠ 48 := fun heq => hc (Char.toNat_inj.mp heq)
    omega
  have hge : 10 ^ digits.length ≤ decimalValue (c :: digits) := by
    rw [decimalValue_cons]
    calc 10 ^ digits.length = 1 * 10 ^ digits.length := (Nat.one_mul _).symm
      _ ≤ (c.toNat - 48) * 10 ^ digits.length := Nat.mul_le_mul_right _ hpos
      _ ≤ _ := Nat.le_add_right _ _
  rcases Nat.eq_zero_or_pos digits.length with hzero | hlen
  · have hcount : 0 < digitCount (decimalValue (c :: digits)) := Nat.length_toDigits_pos
    omega
  · have hnot : ¬ digitCount (decimalValue (c :: digits)) ≤ digits.length := by
      intro hcount
      have := (Nat.length_toDigits_le_iff (by decide) hlen).mp hcount
      omega
    omega

/-! Rounding -/

/-- A coefficient times a power of ten. -/
structure Scaled where
  coefficient : Nat
  exponent : Int
  deriving Repr, DecidableEq

namespace Scaled

def value (x : Scaled) : ℚ := x.coefficient * 10 ^ x.exponent

def dropped (p : Nat) (x : Scaled) : Nat := digitCount x.coefficient - p

/-- The first `p` digits, rounded half up. -/
def halfUp (p : Nat) (x : Scaled) : Scaled :=
  let unit := 10 ^ x.dropped p
  ⟨(x.coefficient + unit / 2) / unit, x.exponent + x.dropped p⟩

/-- Rounded half up to a coefficient of `p` digits: the carry may have made it one more. -/
def round (p : Nat) (x : Scaled) : Scaled :=
  let y := x.halfUp p
  if y.coefficient < 10 ^ p then y else ⟨y.coefficient / 10, y.exponent + 1⟩

theorem halfUp_of_short {p : Nat} {x : Scaled} (h : digitCount x.coefficient ≤ p) :
    x.halfUp p = x := by
  have hzero : x.dropped p = 0 := Nat.sub_eq_zero_of_le h
  simp [halfUp, hzero]

theorem lt_of_digitCount {p n : Nat} (hp : 0 < p) (h : digitCount n ≤ p) : n < 10 ^ p :=
  (Nat.length_toDigits_le_iff (by decide) hp).mp h

theorem round_of_short {p : Nat} {x : Scaled} (hp : 0 < p) (h : digitCount x.coefficient ≤ p) :
    x.round p = x := by
  rw [round, halfUp_of_short h, if_pos (lt_of_digitCount hp h)]

/-- What rounding leaves has at most one digit too many, and then it is a power of ten. -/
theorem halfUp_le {p : Nat} (hp : 0 < p) (x : Scaled) : (x.halfUp p).coefficient ≤ 10 ^ p := by
  by_cases h : digitCount x.coefficient ≤ p
  · rw [halfUp_of_short h]
    exact (lt_of_digitCount hp h).le
  · have hcount : x.coefficient < 10 ^ digitCount x.coefficient :=
      lt_of_digitCount (by omega) le_rfl
    have hsplit : digitCount x.coefficient = p + x.dropped p := by
      simp only [dropped]
      omega
    have hunit : 0 < 10 ^ x.dropped p := by positivity
    simp only [halfUp]
    apply Nat.lt_succ_iff.mp
    rw [Nat.div_lt_iff_lt_mul hunit, Nat.succ_mul, ← Nat.pow_add, ← hsplit]
    omega

theorem round_lt {p : Nat} (hp : 0 < p) (x : Scaled) : (x.round p).coefficient < 10 ^ p := by
  simp only [round]
  split
  · assumption
  · have hle := halfUp_le hp x
    have hpos : 0 < 10 ^ p := by positivity
    show (x.halfUp p).coefficient / 10 < 10 ^ p
    omega

theorem value_round {p : Nat} (hp : 0 < p) (x : Scaled) :
    (x.round p).value = (x.halfUp p).value := by
  simp only [round]
  split
  · rfl
  · rename_i hlt
    have heq : (x.halfUp p).coefficient = 10 * 10 ^ (p - 1) := by
      have hle := halfUp_le hp x
      have hpow : 10 ^ p = 10 * 10 ^ (p - 1) := by
        rw [← Nat.pow_succ', Nat.succ_eq_add_one, Nat.sub_add_cancel hp]
      omega
    have hten : (10 : ℚ) ≠ 0 := by norm_num
    simp only [value, heq, Nat.mul_div_cancel_left _ (by decide : 0 < 10), zpow_add_one₀ hten]
    push_cast
    ring

end Scaled

/-! Spelling -/

/-- A number that is written out, an exponent behind it. -/
structure Numeral where
  negative : Bool
  whole : List Char
  fraction : List Char
  exponent : Int
  digits : AllDigits (whole ++ fraction)
  nonempty : whole ++ fraction ≠ []

inductive SignPart : Bool → List Char → Prop where
  | unsigned : SignPart false []
  | plus : SignPart false ['+']
  | minus : SignPart true ['-']

inductive PointPart : List Char → List Char → Prop where
  | whole : PointPart [] []
  | point (fraction : List Char) : PointPart fraction ('.' :: fraction)

inductive ExponentPart : Int → List Char → Prop where
  | plain : ExponentPart 0 []
  | scaled {mark : Char} {negative : Bool} {sign digits : List Char}
      (hmark : mark = 'e' ∨ mark = 'E') (hsign : SignPart negative sign)
      (hdigits : AllDigits digits) (hnonempty : digits ≠ []) :
      ExponentPart (if negative then -(decimalValue digits : Int) else decimalValue digits)
        (mark :: (sign ++ digits))

namespace Numeral

def scaled (n : Numeral) : Scaled :=
  ⟨decimalValue (n.whole ++ n.fraction), n.exponent - n.fraction.length⟩

def signed (negative : Bool) (x : ℚ) : ℚ := if negative then -x else x

def value (n : Numeral) : ℚ := signed n.negative n.scaled.value

/-- `n` is spelled `text`. -/
def Spelled (n : Numeral) (text : List Char) : Prop :=
  ∃ sign point exponent, SignPart n.negative sign ∧ PointPart n.fraction point ∧
    ExponentPart n.exponent exponent ∧ text = sign ++ (n.whole ++ (point ++ exponent))

end Numeral

/-- The numeral `text` is worth `x`. -/
def Denotes (text : List Char) (x : ℚ) : Prop := ∃ n : Numeral, n.Spelled text ∧ n.value = x

end FastFirebird
