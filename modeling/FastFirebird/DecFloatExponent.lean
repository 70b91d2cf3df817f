import FastFirebird.DecFloatText
import Mathlib.Tactic.Positivity

/-! The exponent of an encoded literal: the numbers that the language adds up for it, and the
digits that rounding takes off. -/
namespace FastFirebird

theorem roundSignificand_of_lt {m : Nat} (h : m < 2 ^ 53) : roundSignificand m = m := by
  have hlog : m.log2 + 1 - 53 = 0 := by
    rcases Nat.eq_zero_or_pos m with hzero | hpos
    · rw [hzero]
      decide
    · have : m.log2 < 53 := (Nat.log2_lt (by omega)).mpr h
      omega
  simp [roundSignificand, hlog, Nat.mod_one]

theorem le_roundSignificand {bound m : Nat} (hbound : bound ≤ 2 ^ 53) (h : bound ≤ m) :
    bound ≤ roundSignificand m := by
  by_cases hm : m < 2 ^ 53
  · rw [roundSignificand_of_lt hm]
    exact h
  · have hlog : 53 ≤ m.log2 := (Nat.le_log2 (by omega)).mpr (by omega)
    have hq : 2 ^ 52 ≤ m / 2 ^ (m.log2 + 1 - 53) := by
      rw [Nat.le_div_iff_mul_le (by positivity), ← Nat.pow_add]
      have hexp : 52 + (m.log2 + 1 - 53) = m.log2 := by omega
      rw [hexp]
      exact Nat.log2_self_le (by omega)
    have htwo : 2 ≤ 2 ^ (m.log2 + 1 - 53) := by
      calc 2 = 2 ^ 1 := rfl
        _ ≤ _ := Nat.pow_le_pow_right (by decide) (by omega)
    have hup : 2 ^ 52 ≤ (if 2 ^ (m.log2 + 1 - 53) < 2 * (m % 2 ^ (m.log2 + 1 - 53)) ∨
        (2 * (m % 2 ^ (m.log2 + 1 - 53)) = 2 ^ (m.log2 + 1 - 53) ∧
          m / 2 ^ (m.log2 + 1 - 53) % 2 = 1)
        then m / 2 ^ (m.log2 + 1 - 53) + 1 else m / 2 ^ (m.log2 + 1 - 53)) := by
      split
      · omega
      · exact hq
    calc bound ≤ 2 ^ 53 := hbound
      _ = 2 ^ 52 * 2 := rfl
      _ ≤ roundSignificand m := Nat.mul_le_mul hup htwo

namespace Number

/-- At least `bound`. -/
inductive Above (bound : Int) : Number → Prop where
  | infinity : Above bound (infinity false)
  | int {i : Int} (h : bound ≤ i) : Above bound (int i)

inductive Below (bound : Int) : Number → Prop where
  | infinity : Below bound (infinity true)
  | int {i : Int} (h : i ≤ bound) : Below bound (int i)

theorem add_int (i a : Int) : (int i).add a = ofInt (i + a) := rfl

theorem ofInt_exact {i : Int} (h : i.natAbs < 2 ^ 53) : ofInt i = int i := by
  have hsmall : ¬ overflow ≤ i.natAbs := by
    have : 2 ^ 53 < overflow := by decide +kernel
    omega
  rw [ofInt, roundSignificand_of_lt h]
  simp only [if_neg hsmall]
  split
  · congr 1
    omega
  · congr 1
    omega

theorem ofInt_above {bound : Nat} {i : Int} (hbound : bound ≤ 2 ^ 53) (h : (bound : Int) ≤ i) :
    (ofInt i).Above bound := by
  have hround := @le_roundSignificand bound i.natAbs hbound (by omega)
  have hpos : ¬ i < 0 := by omega
  simp only [ofInt, hpos, decide_false, if_false]
  by_cases hover : overflow ≤ roundSignificand i.natAbs
  · rw [if_pos hover]
    exact .infinity
  · rw [if_neg hover]
    exact .int (Int.ofNat_le.mpr hround)

theorem ofInt_below {bound : Nat} {i : Int} (hpos : 0 < bound) (hbound : bound ≤ 2 ^ 53)
    (h : i ≤ -(bound : Int)) : (ofInt i).Below (-(bound : Int)) := by
  have hround := @le_roundSignificand bound i.natAbs hbound (by omega)
  have hneg : i < 0 := by omega
  simp only [ofInt, hneg, decide_true, if_true]
  by_cases hover : overflow ≤ roundSignificand i.natAbs
  · rw [if_pos hover]
    exact .infinity
  · rw [if_neg hover]
    exact .int (Int.neg_le_neg (Int.ofNat_le.mpr hround))

/-- `x` is `e`, or both are out of reach on the same side. `slack` is how far sums have moved
them. -/
def Tracks (x : Number) (e : Int) (slack : Nat) : Prop :=
  (x = int e ∧ e.natAbs < 2 ^ 52 + slack) ∨
    (((2 ^ 52 - slack : Nat) : Int) ≤ e ∧ x.Above ((2 ^ 52 - slack : Nat) : Int)) ∨
    (e ≤ -((2 ^ 52 - slack : Nat) : Int) ∧ x.Below (-((2 ^ 52 - slack : Nat) : Int)))

theorem Tracks.ofInt (e : Int) : Tracks (ofInt e) e 0 := by
  by_cases hsmall : e.natAbs < 2 ^ 52
  · left
    exact ⟨ofInt_exact (by omega), by omega⟩
  by_cases hpos : 0 ≤ e
  · right
    left
    exact ⟨by omega, ofInt_above (by omega) (by omega)⟩
  · right
    right
    exact ⟨by omega, ofInt_below (by omega) (by omega) (by omega)⟩

theorem Tracks.add {x : Number} {e a : Int} {slack step : Nat} (h : Tracks x e slack)
    (ha : a.natAbs ≤ step) (hroom : slack + step ≤ 2 ^ 40) :
    Tracks (x.add a) (e + a) (slack + step) := by
  rcases h with ⟨rfl, he⟩ | ⟨he, hx⟩ | ⟨he, hx⟩
  · left
    rw [add_int]
    exact ⟨ofInt_exact (by omega), by omega⟩
  · right
    left
    refine ⟨by omega, ?_⟩
    cases hx with
    | infinity => exact .infinity
    | int hx =>
      rw [add_int]
      exact ofInt_above (by omega) (by omega)
  · right
    right
    refine ⟨by omega, ?_⟩
    cases hx with
    | infinity => exact .infinity
    | int hx =>
      rw [add_int]
      exact ofInt_below (by omega) (by omega) (by omega)

theorem Tracks.foldl {x : Number} {e : Int} {slack step : Nat} {steps : List Int}
    (h : Tracks x e slack) (ha : ∀ a ∈ steps, a.natAbs ≤ step)
    (hroom : slack + steps.length * step ≤ 2 ^ 40) :
    Tracks (steps.foldl Number.add x) (e + steps.sum) (slack + steps.length * step) := by
  induction steps generalizing x e slack with
  | nil => simpa using h
  | cons a steps ih =>
    rw [List.length_cons, Nat.succ_mul] at hroom
    have hnext := h.add (ha a List.mem_cons_self) (by omega)
    have hrest := ih hnext (fun b hb => ha b (List.mem_cons_of_mem a hb)) (by omega)
    have hslack : slack + (a :: steps).length * step = slack + step + steps.length * step := by
      rw [List.length_cons, Nat.succ_mul]
      omega
    rw [List.foldl_cons, List.sum_cons, ← Int.add_assoc, hslack]
    exact hrest

/-- A number that is small is exact. -/
theorem Tracks.exact {x : Number} {e : Int} {slack : Nat} (h : Tracks x e slack)
    (hroom : slack ≤ 2 ^ 40) {i : Int} (hx : x = int i) (hi : i.natAbs < 2 ^ 51) : i = e := by
  rcases h with ⟨hxe, -⟩ | ⟨he, habove⟩ | ⟨he, hbelow⟩
  · rw [hx] at hxe
    exact Number.int.inj hxe
  · rw [hx] at habove
    cases habove
    omega
  · rw [hx] at hbelow
    cases hbelow
    omega

theorem Tracks.small {x : Number} {e : Int} {slack : Nat} (h : Tracks x e slack)
    (hroom : slack ≤ 2 ^ 40) (he : e.natAbs < 2 ^ 51) : x = int e := by
  rcases h with ⟨hxe, -⟩ | ⟨hlarge, -⟩ | ⟨hlarge, -⟩
  · exact hxe
  · omega
  · omega

theorem Tracks.negative {x : Number} {e : Int} {slack : Nat} (h : Tracks x e slack)
    (hroom : slack ≤ 2 ^ 40) (he : e < 0) : x.isNegative = true := by
  rcases h with ⟨rfl, -⟩ | ⟨hlarge, -⟩ | ⟨-, hbelow⟩
  · simpa [isNegative] using he
  · omega
  · cases hbelow with
    | infinity => rfl
    | int hx =>
      simp only [isNegative, decide_eq_true_eq]
      omega

end Number

/-! Rounding -/

/-- Half a unit more carries when the first digit that goes is at least five. -/
theorem half_up_digit {q : Nat} {c : Char} {rest : Text} (h : AllDigits (c :: rest)) :
    (q * 10 ^ (rest.length + 1) + decimalValue (c :: rest) + 10 ^ (rest.length + 1) / 2) /
        10 ^ (rest.length + 1) =
      if 5 ≤ c.toNat - 48 then q + 1 else q := by
  have hrest : decimalValue rest < 10 ^ rest.length :=
    decimalValue_lt fun d hd => h d (List.mem_cons_of_mem c hd)
  have hc := isDigit_bounds (h c List.mem_cons_self)
  have hpos : 0 < 10 ^ rest.length := by positivity
  rw [decimalValue_cons, Nat.pow_succ]
  generalize 10 ^ rest.length = unit at *
  generalize hd : c.toNat - 48 = d at *
  have hd9 : d ≤ 9 := by omega
  have hhalf : unit * 10 / 2 = 5 * unit := by omega
  have hsum : q * (unit * 10) + (d * unit + decimalValue rest) + unit * 10 / 2 =
      (d * unit + 5 * unit + decimalValue rest) + q * (unit * 10) := by
    rw [hhalf]
    omega
  rw [hsum, Nat.add_mul_div_right _ _ (by omega)]
  split
  · rename_i hlarge
    have hlow : 5 * unit ≤ d * unit := Nat.mul_le_mul_right _ hlarge
    have hhigh : d * unit ≤ 9 * unit := Nat.mul_le_mul_right _ hd9
    have hone : (d * unit + 5 * unit + decimalValue rest) / (unit * 10) = 1 := by
      apply Nat.div_eq_of_lt_le
      · omega
      · omega
    omega
  · rename_i hsmall
    have hhigh : d * unit ≤ 4 * unit := Nat.mul_le_mul_right _ (by omega)
    have hzero : (d * unit + 5 * unit + decimalValue rest) / (unit * 10) = 0 :=
      Nat.div_eq_of_lt (by omega)
    omega

theorem decimalValue_take_pred {digits : Text} {p : Nat} (h : AllDigits digits)
    (hlen : digits.length = p + 1) : decimalValue (digits.take p) = decimalValue digits / 10 := by
  have hsplit := decimalValue_append (digits.take p) (digits.drop p)
  rw [List.take_append_drop] at hsplit
  have hlast : (digits.drop p).length = 1 := by
    rw [List.length_drop, hlen]
    omega
  have hdrop : AllDigits (digits.drop p) := fun c hc => h c (List.mem_of_mem_drop hc)
  have hlt := decimalValue_lt hdrop
  rw [hlast] at hsplit hlt
  omega

theorem AllDigits.take {digits : Text} (h : AllDigits digits) (k : Nat) :
    AllDigits (digits.take k) := fun c hc => h c (List.mem_of_mem_take hc)

/-- `fitDigits` is rounding half up; `steps` are what it adds to the exponent. -/
theorem fitDigits_round {p : Nat} {s : Text} (hp : 0 < p) (hdigits : AllDigits s) (hne : s ≠ [])
    (exp : Number) (e : Int) :
    ∃ steps : List Int,
      (fitDigits p (stripZeros s) exp).2 = steps.foldl Number.add exp ∧
      (Scaled.round p ⟨decimalValue s, e⟩).exponent = e + steps.sum ∧
      (∀ a ∈ steps, a.natAbs ≤ s.length) ∧ steps.length ≤ 2 ∧
      AllDigits (fitDigits p (stripZeros s) exp).1 ∧
      (fitDigits p (stripZeros s) exp).1.length ≤ p ∧
      decimalValue (fitDigits p (stripZeros s) exp).1 =
        (Scaled.round p ⟨decimalValue s, e⟩).coefficient := by
  have hcount := length_stripZeros hdigits hne
  obtain ⟨hstripped, hvalue, -⟩ := stripZeros_facts hdigits hne
  have hle : digitCount (decimalValue s) ≤ s.length := by
    apply (Nat.length_toDigits_le_iff (by decide) (List.length_pos_iff.mpr hne)).mpr
    exact decimalValue_lt hdigits
  by_cases hlong : p < (stripZeros s).length
  · generalize stripZeros s = digits at *
    -- the digits that stay, and the first that goes
    have hkept : (digits.take p).length = p := by
      rw [List.length_take]
      omega
    obtain ⟨c, rest, hrest⟩ : ∃ c rest, digits.drop p = c :: rest := by
      apply List.exists_cons_of_length_pos
      rw [List.length_drop]
      omega
    have hdropped : digits.length - p = rest.length + 1 := by
      have := congrArg List.length hrest
      rwa [List.length_drop, List.length_cons] at this
    have hnext : digits.getD p '0' = c := by
      have hget : digits[p]? = some c := by
        rw [← List.head?_drop, hrest]
        rfl
      rw [List.getD_eq_getElem?_getD, hget]
      rfl
    have htail : AllDigits (c :: rest) := by
      rw [← hrest]
      exact fun d hd => hstripped d (List.mem_of_mem_drop hd)
    have hsplit := decimalValue_append (digits.take p) (digits.drop p)
    rw [List.take_append_drop, hrest, List.length_cons, hvalue] at hsplit
    have hunit : Scaled.dropped p ⟨decimalValue s, e⟩ = rest.length + 1 := by
      rw [Scaled.dropped, ← hcount, hdropped]
    have hhalf : (Scaled.halfUp p ⟨decimalValue s, e⟩).coefficient =
        if 5 ≤ c.toNat - 48 then decimalValue (digits.take p) + 1
        else decimalValue (digits.take p) := by
      simp only [Scaled.halfUp, hunit]
      rw [hsplit]
      exact half_up_digit htail
    have hexp : (Scaled.halfUp p ⟨decimalValue s, e⟩).exponent = e + (rest.length + 1 : Nat) := by
      simp only [Scaled.halfUp, hunit]
    have hbound := Scaled.halfUp_le hp ⟨decimalValue s, e⟩
    have hround : Scaled.round p ⟨decimalValue s, e⟩ =
        if (Scaled.halfUp p ⟨decimalValue s, e⟩).coefficient < 10 ^ p
        then Scaled.halfUp p ⟨decimalValue s, e⟩
        else ⟨(Scaled.halfUp p ⟨decimalValue s, e⟩).coefficient / 10,
          (Scaled.halfUp p ⟨decimalValue s, e⟩).exponent + 1⟩ := rfl
    have hshort : rest.length + 1 ≤ s.length := by
      rw [← hdropped]
      omega
    simp only [fitDigits, if_pos hlong, hnext, ← hhalf, hdropped]
    generalize Scaled.halfUp p ⟨decimalValue s, e⟩ = half at *
    have hfits := @Nat.length_toDigits_le_iff 10 half.coefficient p (by decide) hp
    have hall := allDigits_toDigits half.coefficient
    by_cases hcarry : p < (Nat.toDigits 10 half.coefficient).length
    · have hover : ¬ half.coefficient < 10 ^ p := fun hlt => absurd (hfits.mpr hlt) (by omega)
      have hmore : (Nat.toDigits 10 half.coefficient).length = p + 1 := by
        have hten : 10 ^ p < 10 ^ (p + 1) := Nat.pow_lt_pow_right (by decide) (by omega)
        have := (@Nat.length_toDigits_le_iff 10 half.coefficient (p + 1) (by decide)
          (by omega)).mpr (by omega)
        omega
      rw [if_pos hcarry, hround, if_neg hover]
      refine ⟨[((rest.length + 1 : Nat) : Int), 1], rfl, ?_, ?_, by simp, hall.take p, ?_, ?_⟩
      · rw [hexp, Int.add_assoc]
        rfl
      · intro a ha
        rcases List.mem_cons.mp ha with rfl | ha
        · exact hshort
        · rw [List.mem_singleton.mp ha]
          exact Nat.one_le_iff_ne_zero.mpr fun hzero => hne (List.length_eq_zero_iff.mp hzero)
      · rw [List.length_take]
        exact Nat.min_le_left _ _
      · rw [decimalValue_take_pred hall hmore, decimalValue_toDigits]
    · have hunder : half.coefficient < 10 ^ p := hfits.mp (by omega)
      rw [if_neg hcarry, hround, if_pos hunder]
      refine ⟨[((rest.length + 1 : Nat) : Int)], rfl, ?_, ?_, by simp, hall,
        Nat.le_of_not_lt hcarry, ?_⟩
      · rw [hexp]
        rfl
      · intro a ha
        rw [List.mem_singleton.mp ha]
        exact hshort
      · rw [decimalValue_toDigits]
  · rw [Scaled.round_of_short hp (by rw [← hcount]; omega), fitDigits, if_neg hlong]
    exact ⟨[], rfl, (Int.add_zero e).symm, by simp, by simp, hstripped,
      Nat.le_of_not_lt hlong, hvalue⟩

end FastFirebird
