import FastFirebird.DecFloatSound
import FastFirebird.NumberText
import Mathlib.Data.Rat.Floor

/-! Which texts `decimalToScaled` accepts, and to what it rounds them. -/
namespace FastFirebird

/-! Reading literals -/

theorem exponentPart_some {text : Text} {e : Int} (h : exponentPart text = some e) :
    ExponentPart e text := by
  cases text with
  | nil =>
    obtain rfl : 0 = e := Option.some.inj h
    exact .plain
  | cons mark rest =>
    obtain ⟨sign, hrest, hsign⟩ := splitSign_spec rest
    unfold exponentPart at h
    dsimp only at h
    split at h
    · rename_i hok
      obtain ⟨hmark, hnonempty, hdigits⟩ := hok
      have hletter : mark = 'e' ∨ mark = 'E' := by
        simpa [isExponentMark] using hmark
      have hpart := ExponentPart.scaled hletter hsign (List.all_eq_true.mp hdigits) hnonempty
      rw [← hrest] at hpart
      rw [← Option.some.inj h]
      exact hpart
    · cases h

/-- The parts of a text are those of a literal, as long as there is a digit. -/
theorem decimalParts_some {text : Text} {p : DecimalParts} (h : decimalParts text = some p)
    (hdigits : ¬ (p.whole = [] ∧ p.fraction = [])) : ∃ n : Numeral, n.Spelled text := by
  obtain ⟨sign, htext, hsign⟩ := splitSign_spec text
  have hwhole : AllDigits ((splitSign text).2.takeWhile Char.isDigit) :=
    fun c hc => List.mem_takeWhile_imp hc
  have hsplit := (List.takeWhile_append_dropWhile : (splitSign text).2.takeWhile Char.isDigit ++
    (splitSign text).2.dropWhile Char.isDigit = (splitSign text).2)
  unfold decimalParts at h
  dsimp only at h
  split at h
  · rename_i rest hrest
    obtain ⟨e, he, rfl⟩ := Option.map_eq_some_iff.mp h
    have hfraction : AllDigits (rest.takeWhile Char.isDigit) := fun c hc => List.mem_takeWhile_imp hc
    refine ⟨⟨_, _, _, e, hwhole.append hfraction, fun hnil => hdigits (List.append_eq_nil_iff.mp hnil)⟩,
      sign, '.' :: rest.takeWhile Char.isDigit, rest.dropWhile Char.isDigit, hsign, .point _,
      exponentPart_some he, ?_⟩
    rw [List.cons_append, List.takeWhile_append_dropWhile, ← hrest, hsplit, ← htext]
  · obtain ⟨e, he, rfl⟩ := Option.map_eq_some_iff.mp h
    have hnonempty : (splitSign text).2.takeWhile Char.isDigit ≠ [] := fun hnil => hdigits ⟨hnil, rfl⟩
    refine ⟨⟨_, _, [], e, hwhole.append nofun, ?_⟩, sign, [], (splitSign text).2.dropWhile Char.isDigit,
      hsign, .whole, exponentPart_some he, ?_⟩
    · rw [List.append_nil]
      exact hnonempty
    · rw [List.nil_append, hsplit, ← htext]

/-! Rounding -/

/-- The nearest whole number; of two, the one further from zero. -/
def roundHalfAway (x : ℚ) : ℤ := if x < 0 then -round (-x) else round x

theorem roundHalfAway_intCast (n : ℤ) : roundHalfAway n = n := by
  unfold roundHalfAway
  split
  · rw [← Int.cast_neg, round_intCast, neg_neg]
  · exact round_intCast n

theorem roundHalfAway_signed (negative : Bool) {x : ℚ} (hx : 0 ≤ x) :
    roundHalfAway (Numeral.signed negative x) = (if negative then -1 else 1) * round x := by
  unfold roundHalfAway Numeral.signed
  cases negative with
  | false => rw [if_neg Bool.false_ne_true, if_neg (not_lt.mpr hx), if_neg Bool.false_ne_true, one_mul]
  | true =>
    rw [if_pos rfl, if_pos rfl]
    rcases hx.eq_or_lt with rfl | hpos
    · simp
    · rw [if_pos (neg_neg_of_pos hpos), neg_neg, neg_one_mul]

/-- A whole number over a power of ten, rounded. -/
theorem round_div_ten (m k : Nat) :
    round ((m : ℚ) / (10 ^ (k + 1) : Nat)) = ((m + 10 ^ (k + 1) / 2) / 10 ^ (k + 1) : Nat) := by
  obtain ⟨half, hsplit⟩ : ∃ half, 10 ^ (k + 1) = 2 * half := ⟨5 * 10 ^ k, by rw [Nat.pow_succ]; omega⟩
  have hpos : 0 < 10 ^ (k + 1) := by positivity
  generalize 10 ^ (k + 1) = unit at *
  have hunit : (0 : ℚ) < (unit : Nat) := by exact_mod_cast hpos
  have hcast : (unit : ℚ) = 2 * half := by exact_mod_cast hsplit
  have hhalf : unit / 2 = half := by omega
  have hsum : (m : ℚ) / unit + 1 / 2 = ((m + unit / 2 : Nat) : ℚ) / unit := by
    rw [hhalf, div_add_div _ _ hunit.ne' two_ne_zero, div_eq_div_iff (by positivity) hunit.ne']
    push_cast
    rw [hcast]
    ring
  rw [round_eq, hsum, Rat.floor_natCast_div_natCast, Int.natCast_div]

/-- What the first `keep` digits are rounded to: the digit behind them tells. -/
theorem rounded_at {digits : Text} {keep k : Nat} (h : AllDigits digits)
    (hlen : digits.length = keep + (k + 1)) :
    (decimalValue digits + 10 ^ (k + 1) / 2) / 10 ^ (k + 1) =
      if '5'.toNat ≤ (digits.getD keep '0').toNat then decimalValue (digits.take keep) + 1
      else decimalValue (digits.take keep) := by
  obtain ⟨c, rest, hdrop⟩ : ∃ c rest, digits.drop keep = c :: rest := by
    apply List.exists_cons_of_length_pos
    rw [List.length_drop]
    omega
  have hrest : rest.length = k := by
    have hcount := congrArg List.length hdrop
    rw [List.length_drop, List.length_cons] at hcount
    omega
  have hbehind : AllDigits (c :: rest) := by
    rw [← hdrop]
    exact fun d hd => h d (List.mem_of_mem_drop hd)
  have hdigit : digits.getD keep '0' = c := by
    rw [List.getD_eq_getElem?_getD, ← List.head?_drop, hdrop]
    rfl
  have hvalue : decimalValue digits =
      decimalValue (digits.take keep) * 10 ^ (rest.length + 1) + decimalValue (c :: rest) := by
    calc decimalValue digits = decimalValue (digits.take keep ++ c :: rest) := by
          rw [← hdrop, List.take_append_drop]
      _ = _ := decimalValue_append _ _
  have hfive : '5'.toNat ≤ c.toNat ↔ 5 ≤ c.toNat - 48 := by
    have hbounds := isDigit_bounds (hbehind c List.mem_cons_self)
    have hcode : '5'.toNat = 53 := rfl
    omega
  rw [hdigit, hvalue, ← hrest, half_up_digit hbehind]
  simp only [hfive]

/-- Less than a tenth of a unit is rounded to nothing. -/
theorem rounded_below {digits : Text} {k : Nat} (h : AllDigits digits) (hlen : digits.length < k + 1) :
    (decimalValue digits + 10 ^ (k + 1) / 2) / 10 ^ (k + 1) = 0 := by
  have hvalue := decimalValue_lt h
  have hpow : 10 ^ digits.length ≤ 10 ^ k := Nat.pow_le_pow_right (by decide) (by omega)
  apply Nat.div_eq_of_lt
  rw [Nat.pow_succ]
  omega

/-- What the first `keep` digits are rounded to; none are kept before the first. -/
theorem keepDigits_rounds {digits : Text} (h : AllDigits digits) {keep : Int} {k : Nat}
    (hcut : digits.length - keep = (k + 1 : Nat)) :
    (keepDigits digits (.int keep) : Int) =
      round ((decimalValue digits : ℚ) / (10 ^ (k + 1) : Nat)) := by
  rw [round_div_ten]
  congr 1
  unfold keepDigits
  dsimp only
  by_cases hkeep : 0 ≤ keep
  · obtain ⟨kept, rfl⟩ := Int.eq_ofNat_of_zero_le hkeep
    -- no digit stays when the cut is before the first
    have hscaled : (if (0 : Int) < kept then decimalValue (digits.take kept) else 0) =
        decimalValue (digits.take kept) := by
      split
      · rfl
      · obtain rfl : kept = 0 := by omega
        rfl
    rw [rounded_at h (by omega : digits.length = kept + (k + 1)), Int.toNat_natCast, hscaled]
    simp
  · have hpositive : ¬ 0 < keep := by omega
    have hbelow : digits.length < k + 1 := by omega
    simp only [rounded_below h hbelow, if_neg hpositive, hkeep, false_and, if_false]

/-! Where the point goes -/

theorem Number.Below.add {x : Number} {bound : Nat} {a : Int} (hx : x.Below (-(bound : Int)))
    {next : Nat} (hpos : 0 < next) (hnext : next ≤ 2 ^ 53) (hle : a - bound ≤ -(next : Int)) :
    (x.add a).Below (-(next : Int)) := by
  cases hx with
  | infinity => exact .infinity
  | int hx =>
    rw [Number.add_int]
    exact Number.ofInt_below hpos hnext (by omega)

theorem Number.Above.add {x : Number} {bound : Nat} {a : Int} (hx : x.Above (bound : Int))
    {next : Nat} (hnext : next ≤ 2 ^ 53) (hle : (next : Int) ≤ bound + a) :
    (x.add a).Above (next : Int) := by
  cases hx with
  | infinity => exact .infinity
  | int hx =>
    rw [Number.add_int]
    exact Number.ofInt_above hnext (by omega)

theorem keepDigits_below {digits : Text} {x : Number} {bound : Nat} (hpos : 0 < bound)
    (hx : x.Below (-(bound : Int))) : keepDigits digits x = 0 := by
  cases hx with
  | infinity => rfl
  | int hx =>
    unfold keepDigits
    dsimp only
    rw [if_neg (by omega), if_neg (by omega)]

/-- The sums that place the point of a literal are exact. Or they lead so far to the left that
nothing is left, whatever they are rounded to. -/
inductive Numeral.Placed (n : Numeral) (f : Int) : Prop where
  | exact (h : n.PointExact f)
  | cut (hexp : n.exponent ≤ 0)
      (hroom : n.whole.length + n.fraction.length + f.natAbs < 2 ^ 52)

theorem Numeral.Placed.exact_or_far {n : Numeral} {f : Int} (h : n.Placed f) :
    n.PointExact f ∨ (n.exponent ≤ -2 ^ 52 ∧
      n.whole.length + n.fraction.length + f.natAbs < 2 ^ 52) := by
  cases h with
  | exact h => exact Or.inl h
  | cut hexp hroom =>
    by_cases hfar : n.exponent ≤ -2 ^ 52
    · exact Or.inr ⟨hfar, hroom⟩
    · exact Or.inl ⟨by omega, by omega, by omega, by omega⟩

/-! `decimalToScaled` -/

theorem Numeral.value_shifted (n : Numeral) (f : Int) :
    n.value * 10 ^ f = Numeral.signed n.negative
      (decimalValue (n.whole ++ n.fraction) * 10 ^ (n.exponent - n.fraction.length + f)) := by
  have hpow : (10 : ℚ) ^ (n.exponent - n.fraction.length) * 10 ^ f =
      10 ^ (n.exponent - n.fraction.length + f) := (zpow_add₀ (by norm_num) _ _).symm
  unfold Numeral.value Numeral.signed Numeral.scaled Scaled.value
  dsimp only
  split
  · rw [neg_mul, mul_assoc, hpow]
  · rw [mul_assoc, hpow]

theorem scaled_by_neg (m : Nat) (k : Nat) :
    (m : ℚ) * 10 ^ (-((k + 1 : Nat) : Int)) = (m : ℚ) / (10 ^ (k + 1) : Nat) := by
  rw [zpow_neg, zpow_natCast, div_eq_mul_inv]
  push_cast
  rfl

theorem decimalToScaled_exactly {n : Numeral} {text : Text} (h : n.Spelled (trim text)) {f : Int}
    (hexact : n.PointExact f) (ctx : String) :
    decimalToScaled text f ctx = .ok (roundHalfAway (n.value * 10 ^ f)) := by
  have hdigits := n.digits
  have hroom := hexact.digits
  have hshort := hexact.shift
  have hcount : (n.whole ++ n.fraction).length = n.whole.length + n.fraction.length :=
    List.length_append
  rw [decimalToScaled_parts h, n.value_shifted f, hexact.decimalShift_eq]
  generalize n.exponent - n.fraction.length + f = shift at *
  generalize n.whole ++ n.fraction = digits at *
  have hmagnitude : (0 : ℚ) ≤ decimalValue digits * 10 ^ shift :=
    mul_nonneg (Nat.cast_nonneg _) (zpow_nonneg (by norm_num) _)
  rw [roundHalfAway_signed n.negative hmagnitude]
  by_cases hshift : 0 ≤ shift
  · obtain ⟨k, rfl⟩ := Int.eq_ofNat_of_zero_le hshift
    have hwhole : (decimalValue digits : ℚ) * 10 ^ (k : Int) = (decimalValue digits * 10 ^ k : ℤ) := by
      rw [zpow_natCast]
      push_cast
      rfl
    dsimp only
    rw [if_pos hshift, Int.toNat_natCast, hwhole, round_intCast, Int.mul_assoc]
  · obtain ⟨k, rfl⟩ : ∃ k : Nat, shift = -((k + 1 : Nat) : Int) := ⟨(-shift).toNat - 1, by omega⟩
    dsimp only
    rw [if_neg hshift, Number.add_int, Number.ofInt_exact (by omega), scaled_by_neg,
      keepDigits_rounds (k := k) hdigits (by omega)]

theorem decimalToScaled_cut {n : Numeral} {text : Text} (h : n.Spelled (trim text)) {f : Int}
    (hfar : n.exponent ≤ -2 ^ 52) (hroom : n.whole.length + n.fraction.length + f.natAbs < 2 ^ 52)
    (ctx : String) : decimalToScaled text f ctx = .ok (roundHalfAway (n.value * 10 ^ f)) := by
  have hcount : (n.whole ++ n.fraction).length = n.whole.length + n.fraction.length :=
    List.length_append
  -- each sum stays below what it may have lost
  have hshift : (decimalShift n.parts f).Below
      (-((2 ^ 52 + n.fraction.length - f).toNat : Int)) := by
    have hexp : (Number.ofInt n.exponent).Below (-((2 ^ 52 : Nat) : Int)) :=
      Number.ofInt_below (by omega) (by omega) (by omega)
    have hpoint := hexp.add (by omega) (by omega)
      (by omega : (n.whole.length : Int) - (2 ^ 52 : Nat) ≤ -((2 ^ 52 - n.whole.length : Nat) : Int))
    have hlast := @Number.Below.add _ _ (-((n.whole ++ n.fraction).length : Int)) hpoint
      (2 ^ 52 + n.fraction.length) (by omega) (by omega) (by omega)
    unfold decimalShift Numeral.parts
    exact hlast.add (by omega) (by omega) (by omega)
  have hkeep : ((decimalShift n.parts f).add (n.whole ++ n.fraction).length).Below
      (-((2 ^ 52 - n.whole.length - f).toNat : Int)) :=
    hshift.add (by omega) (by omega) (by omega)
  have hdigits := n.digits
  have hzero := @keepDigits_below (n.whole ++ n.fraction) _ _ (by omega) hkeep
  have hexact : ∃ k : Nat, n.exponent - n.fraction.length + f = -((k + 1 : Nat) : Int) ∧
      (n.whole ++ n.fraction).length < k + 1 :=
    ⟨(-(n.exponent - n.fraction.length + f)).toNat - 1, by omega, by omega⟩
  obtain ⟨k, hk, hlen⟩ := hexact
  rw [decimalToScaled_parts h, n.value_shifted f, hk]
  generalize decimalShift n.parts f = shift at *
  generalize n.whole ++ n.fraction = digits at *
  have hmagnitude : (0 : ℚ) ≤ decimalValue digits * 10 ^ (-((k + 1 : Nat) : Int)) :=
    mul_nonneg (Nat.cast_nonneg _) (zpow_nonneg (by norm_num) _)
  rw [roundHalfAway_signed n.negative hmagnitude, scaled_by_neg, round_div_ten,
    rounded_below hdigits hlen]
  cases hshift with
  | infinity =>
    dsimp only
    rw [hzero]
  | int hneg =>
    dsimp only
    rw [if_neg (by omega), hzero]

theorem decimalToScaled_rounds {n : Numeral} {text : Text} (h : n.Spelled (trim text)) {f : Int}
    (hplaced : n.Placed f) (ctx : String) :
    decimalToScaled text f ctx = .ok (roundHalfAway (n.value * 10 ^ f)) := by
  rcases hplaced.exact_or_far with hexact | ⟨hfar, hroom⟩
  · exact decimalToScaled_exactly h hexact ctx
  · exact decimalToScaled_cut h hfar hroom ctx

theorem decimalToScaled_error {text : Text} (h : ¬ ∃ n : Numeral, n.Spelled (trim text))
    (f : Int) (ctx : String) : ∃ err, decimalToScaled text f ctx = .error err := by
  unfold decimalToScaled
  split
  · exact ⟨_, rfl⟩
  · rename_i p hp
    have hnil : p.whole = [] ∧ p.fraction = [] := by
      by_contra hdigits
      exact h (decimalParts_some hp hdigits)
    rw [if_pos hnil]
    exact ⟨_, rfl⟩

/-! Where the point is out of reach -/

/-- Half a step below an unreached power of two, rounding does not reach it. -/
theorem roundSignificand_below {m p unit : Nat} (hunit : unit = 2 ^ p)
    (h : m + unit < 2 ^ 54 * unit) : roundSignificand m + 2 * unit ≤ 2 ^ 54 * unit := by
  have htop : 2 ^ (p + 54) = 2 ^ 54 * unit := by rw [hunit, Nat.pow_add, Nat.mul_comm]
  have hstep : 2 ^ (p + 1) = 2 * unit := by rw [hunit, Nat.pow_add, Nat.mul_comm]
  have hlog : m ≠ 0 → m.log2 < p + 54 := fun hm => (Nat.log2_lt hm).mpr (by omega)
  unfold roundSignificand
  dsimp only
  by_cases hlast : m.log2 + 1 - 53 ≤ p
  · have hquotient : m / 2 ^ (m.log2 + 1 - 53) < 2 ^ 53 := by
      apply (Nat.div_lt_iff_lt_mul (Nat.two_pow_pos _)).mpr
      rw [← Nat.pow_add]
      exact Nat.lt_log2_self.trans_le (Nat.pow_le_pow_right (by decide) (by omega))
    have hle : 2 ^ (m.log2 + 1 - 53) ≤ unit := by
      rw [hunit]
      exact Nat.pow_le_pow_right (by decide) hlast
    calc _ ≤ 2 ^ 53 * unit + 2 * unit :=
          Nat.add_le_add_right (Nat.mul_le_mul (by split <;> omega) hle) _
      _ ≤ 2 ^ 54 * unit := by omega
  · have hshift : m.log2 + 1 - 53 = p + 1 := by
      by_cases hm : m = 0
      · subst hm
        rw [Nat.log2_zero] at hlast
        omega
      · have hbound := hlog hm
        omega
    have hsplit := Nat.div_add_mod m (2 ^ (p + 1))
    rw [hstep] at hsplit
    rw [hshift, hstep]
    generalize m / (2 * unit) = q at *
    generalize m % (2 * unit) = r at *
    have hodd : 2 * unit * q = q * unit * 2 := by ring
    have hlow : (2 * q + 1) * unit < 2 ^ 54 * unit := by
      rw [Nat.add_mul, Nat.one_mul, Nat.mul_assoc, Nat.mul_comm 2]
      omega
    have hq := Nat.lt_of_mul_lt_mul_right hlow
    split
    · rename_i hup
      have hhigh : (2 * (q + 1)) * unit < 2 ^ 54 * unit := by
        have hexpand : 2 * (q + 1) * unit = q * unit * 2 + 2 * unit := by ring
        omega
      have hnext := Nat.lt_of_mul_lt_mul_right hhigh
      calc (q + 1) * (2 * unit) + 2 * unit = 2 * (q + 2) * unit := by ring
        _ ≤ 2 ^ 54 * unit := Nat.mul_le_mul_right _ (by omega)
    · calc q * (2 * unit) + 2 * unit = 2 * (q + 1) * unit := by ring
        _ ≤ 2 ^ 54 * unit := Nat.mul_le_mul_right _ (by omega)

theorem two_pow_log2_le_round {m : Nat} (h : 2 ^ 53 ≤ m) : 2 ^ m.log2 ≤ roundSignificand m := by
  have hlog : 53 ≤ m.log2 := (Nat.le_log2 (by omega)).mpr h
  have hexp : 52 + (m.log2 + 1 - 53) = m.log2 := by omega
  have hquotient : 2 ^ 52 ≤ m / 2 ^ (m.log2 + 1 - 53) := by
    rw [Nat.le_div_iff_mul_le (Nat.two_pow_pos _), ← Nat.pow_add, hexp]
    exact Nat.log2_self_le (by omega)
  unfold roundSignificand
  dsimp only
  calc 2 ^ m.log2 = 2 ^ 52 * 2 ^ (m.log2 + 1 - 53) := by rw [← Nat.pow_add, hexp]
    _ ≤ _ := Nat.mul_le_mul_right _ (by split <;> omega)

theorem roundSignificand_reaches {m p unit : Nat} (hunit : unit = 2 ^ p)
    (h : 2 ^ 54 * unit ≤ m + unit) : 2 ^ 54 * unit ≤ roundSignificand m := by
  have hpos : 0 < unit := by
    rw [hunit]
    exact Nat.two_pow_pos p
  have htop : 2 ^ (p + 54) = 2 ^ 54 * unit := by rw [hunit, Nat.pow_add, Nat.mul_comm]
  have hhalf : 2 ^ (p + 53) = 2 ^ 53 * unit := by rw [hunit, Nat.pow_add, Nat.mul_comm]
  have hstep : 2 ^ (p + 1) = 2 * unit := by rw [hunit, Nat.pow_add, Nat.mul_comm]
  by_cases hm : 2 ^ (p + 54) ≤ m
  · have hlarge : 2 ^ 53 ≤ m := by omega
    calc 2 ^ 54 * unit = 2 ^ (p + 54) := htop.symm
      _ ≤ 2 ^ m.log2 := Nat.pow_le_pow_right (by decide) ((Nat.le_log2 (by omega)).mpr hm)
      _ ≤ roundSignificand m := two_pow_log2_le_round hlarge
  · have hlog : m.log2 = p + 53 :=
      (Nat.log2_eq_iff (by omega)).mpr ⟨by omega, by omega⟩
    have hshift : m.log2 + 1 - 53 = p + 1 := by omega
    have hsplit := Nat.div_add_mod m (2 ^ (p + 1))
    have hrest := Nat.mod_lt m (Nat.two_pow_pos (p + 1))
    unfold roundSignificand
    dsimp only
    rw [htop] at hm
    rw [hstep] at hsplit hrest
    rw [hshift, hstep]
    generalize m / (2 * unit) = q at *
    generalize m % (2 * unit) = r at *
    have heven : 2 * unit * q = 2 * q * unit := by ring
    have hlow : (2 ^ 54 - 3) * unit < 2 * q * unit := by
      rw [Nat.sub_mul]
      omega
    have hhigh : 2 * q * unit < 2 ^ 54 * unit := by omega
    have hq : q = 2 ^ 53 - 1 := by
      have := Nat.lt_of_mul_lt_mul_right hlow
      have := Nat.lt_of_mul_lt_mul_right hhigh
      omega
    have hup : 2 * unit < 2 * r ∨ (2 * r = 2 * unit ∧ q % 2 = 1) := by
      rw [hq] at hsplit ⊢
      omega
    rw [if_pos hup, hq]
    calc 2 ^ 54 * unit = (2 ^ 53 - 1 + 1) * (2 * unit) := by ring
      _ ≤ _ := le_rfl

namespace Number

/-- What is rounded to infinity, from here on. -/
def infiniteFrom : Nat := 2 ^ 1024 - 2 ^ 970

def largest : Nat := 2 ^ 1024 - 2 ^ 971

/-- Half a step between the largest numbers, and what rounding does there. -/
theorem overflow_unit : ∃ unit : Nat, 2 ^ 53 ≤ unit ∧ overflow = 2 ^ 54 * unit ∧
    infiniteFrom = 2 ^ 54 * unit - unit ∧ largest = 2 ^ 54 * unit - 2 * unit ∧
      (∀ m, m + unit < 2 ^ 54 * unit → roundSignificand m + 2 * unit ≤ 2 ^ 54 * unit) ∧
        ∀ m, 2 ^ 54 * unit ≤ m + unit → 2 ^ 54 * unit ≤ roundSignificand m := by
  have hsplit {a b c : Nat} (h : a + b = c) : 2 ^ c = 2 ^ a * 2 ^ b := by
    rw [← h, Nat.pow_add]
  have htop : 2 ^ 1024 = 2 ^ 54 * 2 ^ 970 := hsplit (by decide)
  have hnext : 2 ^ 971 = 2 ^ 1 * 2 ^ 970 := hsplit (by decide)
  have hgrow {a b : Nat} (h : a ≤ b) : 2 ^ a ≤ 2 ^ b := Nat.pow_le_pow_right (by decide) h
  have hlarge := hgrow (by decide : 53 ≤ 970)
  obtain ⟨unit, hunit⟩ : ∃ unit, unit = 2 ^ 970 := ⟨_, rfl⟩
  rw [← hunit] at htop hnext hlarge
  refine ⟨unit, hlarge, ?_, ?_, ?_, fun m hm => roundSignificand_below hunit hm,
    fun m hm => roundSignificand_reaches hunit hm⟩
  · rw [overflow, htop]
  · rw [infiniteFrom, htop, ← hunit]
  · rw [largest, htop, hnext, Nat.pow_one]

theorem ofInt_infinite {i : Int} (h : (infiniteFrom : Int) ≤ i) : ofInt i = infinity false := by
  obtain ⟨unit, hlarge, htop, hfrom, -, -, hreach⟩ := overflow_unit
  have hover : overflow ≤ roundSignificand i.natAbs := by
    rw [htop]
    apply hreach
    omega
  have hpos : ¬ i < 0 := by omega
  unfold ofInt
  dsimp only
  rw [if_pos hover, decide_eq_false hpos]

theorem ofInt_finite {i : Int} (h : i < infiniteFrom) : (ofInt i).Below largest := by
  obtain ⟨unit, hlarge, htop, hfrom, hmax, hbelow, -⟩ := overflow_unit
  unfold ofInt
  dsimp only
  by_cases hneg : i < 0
  · simp only [hneg, decide_true, if_true]
    split
    · exact .infinity
    · exact .int (by omega)
  · have hround := hbelow i.natAbs (by omega)
    simp only [hneg, if_false]
    rw [if_neg (by omega)]
    exact .int (by omega)

theorem Below.add_small {x : Number} (hx : x.Below largest) {a : Int} (ha : a < 2 ^ 53) :
    (x.add a).Below largest := by
  obtain ⟨unit, hlarge, -, hfrom, hmax, -, -⟩ := overflow_unit
  cases hx with
  | infinity => exact .infinity
  | int hx =>
    rw [add_int]
    exact ofInt_finite (by omega)

end Number

theorem Numeral.length_le {n : Numeral} {text : Text} (h : n.Spelled text) :
    n.whole.length + n.fraction.length ≤ text.length := by
  obtain ⟨sign, point, exponent, -, hpoint, -, rfl⟩ := h
  have hfraction : n.fraction.length ≤ point.length := by
    generalize n.fraction = fraction at hpoint
    cases hpoint with
    | whole => exact le_rfl
    | point => exact Nat.le_succ _
  simp only [List.length_append]
  omega

theorem trim_length_le (text : Text) : (trim text).length ≤ text.length := by
  obtain ⟨before, behind, htext, -⟩ := padded_trim text
  have hsum := congrArg List.length htext
  simp only [List.length_append] at hsum
  omega

/-- A text is one literal at most. -/
theorem Numeral.value_unique {m n : Numeral} {text : Text} (hm : m.Spelled text)
    (hn : n.Spelled text) : m.value = n.value := by
  have hparts := (decimalParts_spelled hm).symm.trans (decimalParts_spelled hn)
  obtain ⟨hnegative, hwhole, hfraction, hexp⟩ := DecimalParts.mk.inj (Option.some.inj hparts)
  unfold Numeral.value Numeral.scaled
  rw [hnegative, hwhole, hfraction, hexp]

/-- What comes out in the range of a column is exact; fraction digits are few there. -/
theorem decimalToScaled_ranged {text : Text} {f n : Int} {ctx : String} (hlen : text.length < 2 ^ 40)
    (hf : f.natAbs ≤ 128) (hok : decimalToScaled text f ctx = .ok n) (hrange : n.natAbs ≤ 2 ^ 127) :
    ∃ numeral : Numeral, numeral.Spelled (trim text) ∧
      n = roundHalfAway (numeral.value * 10 ^ f) := by
  obtain ⟨numeral, hspelled⟩ : ∃ numeral : Numeral, numeral.Spelled (trim text) := by
    by_contra hnone
    obtain ⟨err, herr⟩ := decimalToScaled_error hnone f ctx
    rw [hok] at herr
    cases herr
  refine ⟨numeral, hspelled, ?_⟩
  have hsize := (Numeral.length_le hspelled).trans (trim_length_le text)
  by_cases hplaced : numeral.Placed f
  · exact Except.ok.inj (hok.symm.trans (decimalToScaled_rounds hspelled hplaced ctx))
  · -- then the point is far to the right, and no digit is more than nothing
    have hfar : 2 ^ 52 ≤ numeral.exponent := by
      by_contra hnear
      apply hplaced
      by_cases hneg : numeral.exponent ≤ 0
      · exact .cut hneg (by omega)
      · exact .exact ⟨by omega, by omega, by omega, by omega⟩
    have hshift : (decimalShift numeral.parts f).Above ((2 ^ 40 : Nat) : Int) := by
      have hcount : (numeral.whole ++ numeral.fraction).length =
          numeral.whole.length + numeral.fraction.length := List.length_append
      have hexp : (Number.ofInt numeral.exponent).Above ((2 ^ 52 : Nat) : Int) :=
        Number.ofInt_above (by omega) (by omega)
      have hpoint := @Number.Above.add _ _ (numeral.whole.length : Int) hexp (2 ^ 52) (by omega)
        (by omega)
      have hlast := @Number.Above.add _ _ (-((numeral.whole ++ numeral.fraction).length : Int))
        hpoint (2 ^ 51) (by omega) (by omega)
      unfold decimalShift Numeral.parts
      exact hlast.add (by omega) (by omega)
    rcases decimalToScaled_above hspelled hshift hok with ⟨hzero, hnothing⟩ | hlarge
    · have hnone : (0 : ℚ) = (0 : Int) := by norm_num
      rw [hnothing, numeral.value_shifted f, hzero, Nat.cast_zero, zero_mul,
        roundHalfAway_signed _ le_rfl, hnone, round_intCast, mul_zero]
    · omega

/-- A literal is scaled unless its exponent is out of reach. -/
theorem decimalToScaled_scales {n : Numeral} {text : Text} (h : n.Spelled (trim text))
    (hlen : text.length < 2 ^ 53) {f : Nat} (hf : f < 2 ^ 53) (ctx : String) :
    (∃ err, decimalToScaled text f ctx = .error err) ↔
      (Number.infiniteFrom : Int) ≤ n.exponent := by
  have hsize := (Numeral.length_le h).trans (trim_length_le text)
  rw [decimalToScaled_parts h]
  by_cases hfar : (Number.infiniteFrom : Int) ≤ n.exponent
  · have hshift : decimalShift n.parts f = .infinity false := by
      unfold decimalShift Numeral.parts
      dsimp only
      rw [Number.ofInt_infinite hfar]
      simp only [Number.add]
    rw [hshift]
    exact iff_of_true ⟨_, rfl⟩ hfar
  · have hshift : (decimalShift n.parts f).Below Number.largest := by
      unfold decimalShift Numeral.parts
      dsimp only
      exact (((Number.ofInt_finite (not_le.mp hfar)).add_small (by omega)).add_small
        (by omega)).add_small (by omega)
    apply iff_of_false _ hfar
    rintro ⟨err, herr⟩
    generalize decimalShift n.parts f = shift at hshift herr
    cases hshift with
    | infinity => cases herr
    | int =>
      dsimp only at herr
      split at herr <;> cases herr

/-- Every literal is scaled to its value, half away from zero, where the sums that place its point
are exact or cut all of it away. Nothing else is scaled, and no exponent that reads as infinite. -/
theorem decimalToScaled_exact (text : Text) (f : Nat) (ctx : String)
    (hlen : text.length < 2 ^ 53) :
    (f < 2 ^ 53 → ((∃ err, decimalToScaled text f ctx = .error err) ↔
      ¬ ∃ n : Numeral, n.Spelled (trim text) ∧ n.exponent < Number.infiniteFrom)) ∧
      ∀ n : Numeral, n.Spelled (trim text) → n.Placed f →
        decimalToScaled text f ctx = .ok (roundHalfAway (n.value * 10 ^ f)) := by
  refine ⟨fun hf => ⟨?_, fun h => ?_⟩, fun n hn hplaced => ?_⟩
  · rintro herr ⟨n, hn, hexp⟩
    exact absurd ((decimalToScaled_scales hn hlen hf ctx).mp herr) (not_le.mpr hexp)
  · by_cases hliteral : ∃ n : Numeral, n.Spelled (trim text)
    · obtain ⟨n, hn⟩ := hliteral
      exact (decimalToScaled_scales hn hlen hf ctx).mpr (not_lt.mp fun hlt => h ⟨n, hn, hlt⟩)
    · exact decimalToScaled_error hliteral f ctx
  · rw [decimalToScaled_rounds hn hplaced, zpow_natCast]

theorem decimalToScaled_exact_rounds_up :
    decimalToScaled " -12.345e1 ".toList 1 "" = .ok (-1235) := by
  have hliteral : Numeral.Spelled ⟨true, ['1', '2'], ['3', '4', '5'], 1, by decide +kernel, by decide +kernel⟩
      (trim " -12.345e1 ".toList) :=
    ⟨['-'], ['.', '3', '4', '5'], ['e', '1'], .minus, .point _,
      @ExponentPart.scaled 'e' false [] ['1'] (Or.inl rfl) .unsigned (by decide +kernel) (by decide +kernel),
      by decide +kernel⟩
  have hplaced : Numeral.Placed ⟨true, ['1', '2'], ['3', '4', '5'], 1, by decide +kernel, by decide +kernel⟩
      ((1 : Nat) : Int) := .exact ⟨by decide +kernel, by decide +kernel, by decide +kernel, by decide +kernel⟩
  exact ((decimalToScaled_exact " -12.345e1 ".toList 1 "" (by decide +kernel)).2 _ hliteral hplaced).trans
    (by decide +kernel)

/-- The last sum of `1.55e-9007199254740991` is one too large. -/
theorem decimalToScaled_exact_refuted :
    ¬ ∀ (text : Text) (f : Nat) (ctx : String),
      ((∃ err, decimalToScaled text f ctx = .error err) ↔ ¬ ∃ n : Numeral, n.Spelled (trim text)) ∧
        ∀ n : Numeral, n.Spelled (trim text) → n.exponent.natAbs < 2 ^ 53 →
          decimalToScaled text f ctx = .ok (roundHalfAway (n.value * 10 ^ f)) := by
  intro hclaim
  have hliteral : Numeral.Spelled
      ⟨false, ['1'], ['5', '5'], -9007199254740991, by decide +kernel, by decide +kernel⟩
      (trim "1.55e-9007199254740991".toList) :=
    ⟨[], ['.', '5', '5'], "e-9007199254740991".toList, .unsigned, .point _,
      @ExponentPart.scaled 'e' true ['-'] "9007199254740991".toList (Or.inl rfl) .minus
        (by decide +kernel) (by decide +kernel), by decide +kernel⟩
  have hexact := (hclaim _ 9007199254740991 "").2 _ hliteral (by decide +kernel)
  have hcode : decimalToScaled "1.55e-9007199254740991".toList (9007199254740991 : Nat) "" =
      .ok 16 := by decide +kernel
  have hshift : (-9007199254740991 : Int) - (['5', '5'].length : Int) + (9007199254740991 : Nat) =
      -((1 + 1 : Nat) : Int) := by decide +kernel
  have hvalue : roundHalfAway (Numeral.signed false ((155 : Nat) / (10 ^ (1 + 1) : Nat))) = 2 := by
    decide +kernel
  have hdigits : decimalValue (['1'] ++ ['5', '5']) = 155 := by decide +kernel
  rw [hcode, ← zpow_natCast, Numeral.value_shifted] at hexact
  dsimp only at hexact
  rw [hshift, hdigits, scaled_by_neg, hvalue] at hexact
  cases hexact

end FastFirebird
