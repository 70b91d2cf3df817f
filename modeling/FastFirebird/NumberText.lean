import FastFirebird.DecFloatExponent
import FastFirebird.DecFloatText
import FastFirebird.Packet

/-! Whole numbers as text: how the language spells one (`String(v)`), and how `protocol/batch.ts`
reads decimal text as a scaled integer. -/
namespace FastFirebird

/-! Spelling -/

/-- Of the multiples of `unit` next to the double `x` the nearest that is rounded to it. -/
def nearestMultiple (x unit : Nat) : Option Nat :=
  let low := x / unit
  let toLow := x - low * unit
  let toHigh := (low + 1) * unit - x
  let lowRounds := roundSignificand (low * unit) = x
  let highRounds := roundSignificand ((low + 1) * unit) = x
  if lowRounds ∧ (¬ highRounds ∨ toLow < toHigh ∨ (toLow = toHigh ∧ low % 2 = 0)) then some low
  else if highRounds then some (low + 1)
  else none

/-- The fewest digits that are rounded to `x`, and the zeros behind them; no more than `zeros`. -/
def shortestDecimal (x : Nat) : (zeros : Nat) → Nat × Nat
  | 0 => (x, 0)
  | zeros + 1 =>
    ((nearestMultiple x (10 ^ (zeros + 1))).map fun digits => (digits, zeros + 1)).getD
      (shortestDecimal x zeros)

/-- The digits of a whole number, and the zeros behind them. -/
def spelledDigits (n : Int) : Nat × Nat :=
  if n = 0 then (0, 0) else shortestDecimal n.natAbs (digitCount n.natAbs)

/-- What stands behind the sign. -/
def unsignedText (digits zeros : Nat) : Text :=
  let text := Nat.toDigits 10 digits
  let point := text.length + zeros
  if point ≤ 21 then text ++ List.replicate zeros '0'
  else
    (match text with
      | first :: second :: rest => first :: '.' :: second :: rest
      | _ => text) ++ 'e' :: '+' :: Nat.toDigits 10 (point - 1)

/-- `String(v)` of a whole number. -/
def numberText (n : Int) : Text :=
  let (digits, zeros) := spelledDigits n
  (if n < 0 then ['-'] else []) ++ unsignedText digits zeros

/-- The number that the text of `n` stands for. -/
def spelledValue (n : Int) : Int :=
  let (digits, zeros) := spelledDigits n
  if n < 0 then -((digits * 10 ^ zeros : Nat) : Int) else (digits * 10 ^ zeros : Nat)

/-! Reading -/

/-- `/^([+-]?)(\d*)(?:\.(\d*))?(?:[eE]([+-]?\d+))?$/` -/
structure DecimalParts where
  negative : Bool
  whole : Text
  fraction : Text
  exponent : Int
  deriving Repr, DecidableEq

/-- The part of the exponent, to the end of the text. -/
def exponentPart : Text → Option Int
  | [] => some 0
  | c :: rest =>
    let (negative, digits) := splitSign rest
    if isExponentMark c ∧ digits ≠ [] ∧ digits.all Char.isDigit then
      some (if negative then -(decimalValue digits : Int) else decimalValue digits)
    else none

def decimalParts (text : Text) : Option DecimalParts :=
  let (negative, rest) := splitSign text
  let whole := rest.takeWhile Char.isDigit
  match rest.dropWhile Char.isDigit with
  | '.' :: rest =>
    (exponentPart (rest.dropWhile Char.isDigit)).map fun exponent =>
      ⟨negative, whole, rest.takeWhile Char.isDigit, exponent⟩
  | rest => (exponentPart rest).map fun exponent => ⟨negative, whole, [], exponent⟩

/-- `pointPos - digits.length + fracDigits`, summed up from the left. -/
def decimalShift (p : DecimalParts) (fracDigits : Int) : Number :=
  let digits := p.whole ++ p.fraction
  let pointPos := (Number.ofInt p.exponent).add p.whole.length
  (pointPos.add (-(digits.length : Int))).add fracDigits

/-- The first `keep` digits, rounded by the one behind them. Before the first digit nothing is
left. -/
def keepDigits (digits : Text) : Number → Nat
  | .int keep =>
    let scaled := if 0 < keep then decimalValue (digits.take keep.toNat) else 0
    if 0 ≤ keep ∧ '5'.toNat ≤ (digits.getD keep.toNat '0').toNat then scaled + 1 else scaled
  | .infinity false => decimalValue digits
  | .infinity true | .nan => 0

/-- Exact decimal to scaled integer, half away from zero. `BigInt(Infinity)` throws. -/
def decimalToScaled (text : Text) (fracDigits : Int) (ctx : String) :
    Except FirebirdError Int :=
  match decimalParts (trim text) with
  | none => .error ⟨.firebird,
      ctx ++ ": cannot convert '" ++ String.ofList text ++ "' to a scaled numeric value", none⟩
  | some p =>
    if p.whole = [] ∧ p.fraction = [] then .error ⟨.firebird,
      ctx ++ ": cannot convert '" ++ String.ofList text ++ "' to a scaled numeric value", none⟩
    else
      let sign : Int := if p.negative then -1 else 1
      let digits := p.whole ++ p.fraction
      match decimalShift p fracDigits with
      | .int shift =>
        if 0 ≤ shift then .ok (sign * decimalValue digits * 10 ^ shift.toNat)
        else .ok (sign * keepDigits digits ((Number.int shift).add digits.length))
      | .infinity false => .error ⟨.other, "The number Infinity cannot be converted to a BigInt " ++
          "because it is not an integer", none⟩
      | shift => .ok (sign * keepDigits digits (shift.add digits.length))

/-! Literals -/

theorem takeWhile_digits {digits rest : Text} (hdigits : AllDigits digits)
    (hrest : ∀ c ∈ rest.head?, c.isDigit = false) :
    (digits ++ rest).takeWhile Char.isDigit = digits ∧
      (digits ++ rest).dropWhile Char.isDigit = rest := by
  have hstop : rest.takeWhile Char.isDigit = [] ∧ rest.dropWhile Char.isDigit = rest := by
    cases rest with
    | nil => exact ⟨rfl, rfl⟩
    | cons c rest =>
      have hc : ¬ c.isDigit = true := by
        rw [hrest c rfl]
        exact Bool.false_ne_true
      exact ⟨List.takeWhile_cons_of_neg hc, List.dropWhile_cons_of_neg hc⟩
  rw [List.takeWhile_append_of_pos hdigits, List.dropWhile_append_of_pos hdigits, hstop.1, hstop.2,
    List.append_nil]
  exact ⟨rfl, rfl⟩

theorem exponentPart_spelled {e : Int} {exponent : Text} (h : ExponentPart e exponent) :
    exponentPart exponent = some e ∧ ∀ c ∈ exponent.head?, c.isDigit = false ∧ c ≠ '.' := by
  cases h with
  | plain => exact ⟨rfl, fun c hc => nomatch hc⟩
  | @scaled mark negative sign digits hmark hsign hdigits hnonempty =>
    have hmarked : isExponentMark mark = true := by
      rcases hmark with rfl | rfl <;> decide
    have hsplit : splitSign (sign ++ digits) = (negative, digits) := by
      apply splitSign_spelled hsign
      intro c hc
      exact digit_not_sign (hdigits c (List.mem_of_head? hc))
    constructor
    · unfold exponentPart
      simp only [hsplit]
      rw [if_pos ⟨hmarked, hnonempty, List.all_eq_true.mpr hdigits⟩]
    · intro c hc
      obtain rfl : c = mark := (Option.some.inj hc).symm
      rcases hmark with rfl | rfl <;> exact ⟨by decide, by decide⟩

theorem decimalParts_spelled {n : Numeral} {text : Text} (h : n.Spelled text) :
    decimalParts text = some ⟨n.negative, n.whole, n.fraction, n.exponent⟩ := by
  obtain ⟨sign, point, exponent, hsign, hpoint, hexp, rfl⟩ := h
  obtain ⟨hwhole, hfraction⟩ := n.digits.of_append
  obtain ⟨hread, hhead⟩ := exponentPart_spelled hexp
  have hnonempty := n.nonempty
  unfold decimalParts
  generalize n.whole = whole at *
  generalize n.fraction = fraction at *
  cases hpoint with
  | whole =>
    rw [List.nil_append, List.append_nil] at *
    have hsigned : ∀ c ∈ (whole ++ exponent).head?, c ≠ '+' ∧ c ≠ '-' := by
      cases whole with
      | nil => exact absurd rfl hnonempty
      | cons c rest =>
        intro d hd
        obtain rfl : d = c := (Option.some.inj hd).symm
        exact digit_not_sign (hwhole d List.mem_cons_self)
    obtain ⟨htake, hdrop⟩ := @takeWhile_digits whole exponent hwhole fun c hc => (hhead c hc).1
    rw [splitSign_spelled hsign hsigned]
    dsimp only
    rw [htake, hdrop]
    split
    · rename_i rest heq
      exact absurd rfl (hhead '.' rfl).2
    · rw [hread]
      rfl
  | point =>
    have hsigned : ∀ c ∈ (whole ++ ('.' :: fraction ++ exponent)).head?, c ≠ '+' ∧ c ≠ '-' := by
      cases whole with
      | nil =>
        intro d hd
        obtain rfl : d = '.' := (Option.some.inj hd).symm
        exact ⟨by decide, by decide⟩
      | cons c rest =>
        intro d hd
        obtain rfl : d = c := (Option.some.inj hd).symm
        exact digit_not_sign (hwhole d List.mem_cons_self)
    obtain ⟨htake, hdrop⟩ := @takeWhile_digits whole ('.' :: fraction ++ exponent) hwhole (by
      intro c hc
      obtain rfl : c = '.' := (Option.some.inj hc).symm
      decide)
    obtain ⟨htake', hdrop'⟩ :=
      @takeWhile_digits fraction exponent hfraction fun c hc => (hhead c hc).1
    rw [splitSign_spelled hsign hsigned]
    dsimp only
    rw [htake, hdrop]
    show (exponentPart ((fraction ++ exponent).dropWhile Char.isDigit)).map (fun e =>
      (⟨n.negative, whole, (fraction ++ exponent).takeWhile Char.isDigit, e⟩ :
        DecimalParts)) = _
    rw [htake', hdrop', hread]
    rfl

/-! Where the point goes -/

/-- The sums that place the point of a literal are exact. -/
structure Numeral.PointExact (n : Numeral) (f : Int) : Prop where
  digits : n.whole.length + n.fraction.length < 2 ^ 53
  point : (n.exponent + n.whole.length).natAbs < 2 ^ 53
  last : (n.exponent - n.fraction.length).natAbs < 2 ^ 53
  shift : (n.exponent - n.fraction.length + f).natAbs < 2 ^ 53

def Numeral.parts (n : Numeral) : DecimalParts := ⟨n.negative, n.whole, n.fraction, n.exponent⟩

theorem Numeral.PointExact.decimalShift_eq {n : Numeral} {f : Int} (h : n.PointExact f) :
    decimalShift n.parts f = .int (n.exponent - n.fraction.length + f) := by
  obtain ⟨hdigits, hpoint, hlast, hshift⟩ := h
  have hcount : (n.whole ++ n.fraction).length = n.whole.length + n.fraction.length :=
    List.length_append
  have hbehind : n.exponent + n.whole.length + -((n.whole ++ n.fraction).length : Int) =
      n.exponent - n.fraction.length := by
    rw [hcount]
    push_cast
    omega
  unfold decimalShift Numeral.parts
  dsimp only
  rw [Number.ofInt_exact (by omega), Number.add_int, Number.ofInt_exact hpoint, Number.add_int,
    hbehind, Number.ofInt_exact hlast, Number.add_int, Number.ofInt_exact hshift]

theorem trim_numeral {n : Numeral} {text : Text} (h : n.Spelled text) : trim text = text :=
  trim_padded (fun c hc => (h.chars c hc).solid) ⟨[], [], by simp, by simp, by simp⟩

theorem decimalToScaled_parts {n : Numeral} {text : Text} (h : n.Spelled (trim text)) (f : Int)
    (ctx : String) : decimalToScaled text f ctx =
      match decimalShift n.parts f with
      | .int shift =>
        if 0 ≤ shift then .ok ((if n.negative then -1 else 1) *
          decimalValue (n.whole ++ n.fraction) * 10 ^ shift.toNat)
        else .ok ((if n.negative then -1 else 1) * keepDigits (n.whole ++ n.fraction)
          ((Number.int shift).add (n.whole ++ n.fraction).length))
      | .infinity false => .error ⟨.other, "The number Infinity cannot be converted to a BigInt " ++
          "because it is not an integer", none⟩
      | shift => .ok ((if n.negative then -1 else 1) * keepDigits (n.whole ++ n.fraction)
          (shift.add (n.whole ++ n.fraction).length)) := by
  have hnonempty : ¬ (n.whole = [] ∧ n.fraction = []) :=
    fun hnil => n.nonempty (List.append_eq_nil_iff.mpr hnil)
  have hparts : decimalShift ⟨n.negative, n.whole, n.fraction, n.exponent⟩ f =
      decimalShift n.parts f := rfl
  unfold decimalToScaled
  rw [decimalParts_spelled h]
  dsimp only
  rw [if_neg hnonempty, hparts]

/-- A literal that has no more fraction digits than the column is scaled exactly. -/
theorem decimalToScaled_spelled {n : Numeral} {text : Text} (h : n.Spelled text) {f k : Nat}
    (hexact : n.PointExact f) (hshift : n.exponent - n.fraction.length + f = k) (ctx : String) :
    decimalToScaled text f ctx =
      .ok ((if n.negative then -1 else 1) * decimalValue (n.whole ++ n.fraction) * 10 ^ k) := by
  have htrimmed : n.Spelled (trim text) := by
    rw [trim_numeral h]
    exact h
  rw [decimalToScaled_parts htrimmed, hexact.decimalShift_eq, hshift]
  dsimp only
  rw [if_pos (Int.natCast_nonneg k), Int.toNat_natCast]

/-- Scaled beyond what a column holds, or not at all. -/
theorem decimalToScaled_above {n : Numeral} {text : Text} (h : n.Spelled (trim text)) {f : Int}
    (hshift : (decimalShift n.parts f).Above ((2 ^ 40 : Nat) : Int)) {ctx : String} {scaled : Int}
    (hok : decimalToScaled text f ctx = .ok scaled) :
    decimalValue (n.whole ++ n.fraction) = 0 ∧ scaled = 0 ∨ 2 ^ 127 < scaled.natAbs := by
  rw [decimalToScaled_parts h] at hok
  generalize decimalShift n.parts f = shift at hshift hok
  cases hshift with
  | infinity => cases hok
  | @int shift hlarge =>
    dsimp only at hok
    rw [if_pos (by omega)] at hok
    rcases Nat.eq_zero_or_pos (decimalValue (n.whole ++ n.fraction)) with hzero | hpos
    · rw [hzero, Nat.cast_zero, mul_zero, zero_mul] at hok
      exact Or.inl ⟨hzero, (Except.ok.inj hok).symm⟩
    · have hunit : 2 ^ 128 ≤ 10 ^ shift.toNat :=
        calc 2 ^ 128 ≤ 10 ^ 39 := by decide
          _ ≤ 10 ^ shift.toNat := Nat.pow_le_pow_right (by decide) (by omega)
      have hsign : (if n.negative = true then (-1 : Int) else 1).natAbs = 1 := by
        split <;> rfl
      rw [← Except.ok.inj hok, Int.natAbs_mul, Int.natAbs_mul, hsign, Int.natAbs_natCast,
        Int.natAbs_pow, Nat.one_mul]
      right
      calc 2 ^ 127 < 1 * 2 ^ 128 := by decide
        _ ≤ decimalValue (n.whole ++ n.fraction) * 10 ^ shift.toNat := Nat.mul_le_mul hpos hunit

theorem decimalShift_far {n : Numeral} {f : Nat}
    (hpoint : n.whole.length + n.fraction.length + n.exponent.natAbs < 2 ^ 51) (hfar : 2 ^ 52 ≤ f) :
    (decimalShift n.parts f).Above ((2 ^ 40 : Nat) : Int) := by
  have hcount : (n.whole ++ n.fraction).length = n.whole.length + n.fraction.length :=
    List.length_append
  unfold decimalShift Numeral.parts
  dsimp only
  rw [Number.ofInt_exact (by omega), Number.add_int, Number.ofInt_exact (by omega),
    Number.add_int, Number.ofInt_exact (by omega), Number.add_int]
  exact Number.ofInt_above (by omega) (by omega)

/-! What is spelled is read -/

theorem nearestMultiple_rounds {x unit digits : Nat} (h : nearestMultiple x unit = some digits) :
    roundSignificand (digits * unit) = x := by
  unfold nearestMultiple at h
  dsimp only at h
  by_cases hlow : roundSignificand (x / unit * unit) = x
  · by_cases hhigh : roundSignificand ((x / unit + 1) * unit) = x
    · simp only [hlow, hhigh, true_and, not_true_eq_false, false_or, if_true] at h
      split at h <;> cases h <;> assumption
    · simp only [hlow, hhigh, true_and, not_false_eq_true, true_or, if_true] at h
      cases h
      exact hlow
  · simp only [hlow, false_and, if_false] at h
    split at h
    · cases h
      assumption
    · cases h

/-- What was found is rounded to the number. -/
theorem shortestDecimal_rounds {x : Nat} (hx : roundSignificand x = x) (zeros : Nat) :
    roundSignificand ((shortestDecimal x zeros).1 * 10 ^ (shortestDecimal x zeros).2) = x := by
  induction zeros with
  | zero =>
    simp only [shortestDecimal, Nat.pow_zero, Nat.mul_one]
    exact hx
  | succ zeros ih =>
    simp only [shortestDecimal]
    cases hfind : nearestMultiple x (10 ^ (zeros + 1)) with
    | none => exact ih
    | some digits => exact nearestMultiple_rounds hfind

/-- A sign, and the digits with their zeros. -/
theorem unsignedText_spelled (digits zeros : Nat) (negative : Bool) :
    ∃ n : Numeral, n.Spelled ((if negative then ['-'] else []) ++ unsignedText digits zeros) ∧
      n.whole.length + n.fraction.length + n.exponent.natAbs ≤
        2 * ((Nat.toDigits 10 digits).length + zeros) ∧
      n.negative = negative ∧ ∃ k : Nat, n.exponent - n.fraction.length = k ∧
        decimalValue (n.whole ++ n.fraction) * 10 ^ k = digits * 10 ^ zeros := by
  have hsign : SignPart negative (if negative then ['-'] else []) := by
    cases negative
    · exact .unsigned
    · exact .minus
  have hdigits := allDigits_toDigits digits
  have hvalue := decimalValue_toDigits digits
  have hnonempty : Nat.toDigits 10 digits ≠ [] := Nat.toDigits_ne_nil
  unfold unsignedText
  generalize Nat.toDigits 10 digits = text at *
  dsimp only
  by_cases hshort : text.length + zeros ≤ 21
  · have hall : AllDigits (text ++ List.replicate zeros '0') := by
      apply hdigits.append
      intro c hc
      rw [List.eq_of_mem_replicate hc]
      decide
    have hzeros : decimalValue (text ++ List.replicate zeros '0') = digits * 10 ^ zeros := by
      have hnil := decimalValue_zeros zeros []
      rw [List.append_nil] at hnil
      rw [decimalValue_append, List.length_replicate, hvalue, hnil, decimalValue_nil, Nat.add_zero]
    rw [if_pos hshort]
    refine ⟨⟨negative, text ++ List.replicate zeros '0', [], 0, ?_, ?_⟩, ?_, ?_, rfl, 0, rfl, ?_⟩
    · rw [List.append_nil]
      exact hall
    · simp [hnonempty]
    · exact ⟨_, [], [], hsign, .whole, .plain, by simp⟩
    · rw [List.length_append, List.length_replicate, List.length_nil, Int.natAbs_zero]
      omega
    · rw [List.append_nil, hzeros, Nat.pow_zero, Nat.mul_one]
  · have hmark : ExponentPart ((text.length + zeros - 1 : Nat) : Int)
        ('e' :: ('+' :: Nat.toDigits 10 (text.length + zeros - 1))) := by
      have hscaled := @ExponentPart.scaled 'e' false ['+']
        (Nat.toDigits 10 (text.length + zeros - 1)) (Or.inl rfl) .plus
        (allDigits_toDigits _) Nat.toDigits_ne_nil
      rw [decimalValue_toDigits] at hscaled
      exact hscaled
    rw [if_neg hshort]
    match text, hnonempty with
    | [first], _ =>
      refine ⟨⟨negative, [first], [], ([first].length + zeros - 1 : Nat), ?_, ?_⟩, ?_, ?_, rfl,
        zeros, ?_, ?_⟩
      · rw [List.append_nil]
        exact hdigits
      · simp
      · exact ⟨_, [], _, hsign, .whole, hmark, rfl⟩
      · simp only [List.length_singleton, List.length_nil, Int.natAbs_natCast]
        omega
      · simp
      · rw [List.append_nil, hvalue]
    | first :: second :: rest, _ =>
      refine ⟨⟨negative, [first], second :: rest,
        ((first :: second :: rest).length + zeros - 1 : Nat), ?_, ?_⟩, ?_, ?_, rfl, zeros, ?_, ?_⟩
      · exact hdigits
      · simp
      · exact ⟨_, _, _, hsign, .point _, hmark, rfl⟩
      · simp only [List.length_cons, List.length_nil, Int.natAbs_natCast]
        omega
      · simp only [List.length_cons]
        omega
      · rw [List.singleton_append, hvalue]

theorem nearestMultiple_le {x unit digits : Nat} (h : nearestMultiple x unit = some digits) :
    digits ≤ x + 1 := by
  have hquotient : x / unit ≤ x := Nat.div_le_self x unit
  unfold nearestMultiple at h
  dsimp only at h
  split at h
  · cases h
    omega
  · split at h
    · cases h
      omega
    · cases h

theorem shortestDecimal_le (x zeros : Nat) :
    (shortestDecimal x zeros).1 ≤ x + 1 ∧ (shortestDecimal x zeros).2 ≤ zeros := by
  induction zeros with
  | zero => exact ⟨Nat.le_succ x, le_rfl⟩
  | succ zeros ih =>
    simp only [shortestDecimal]
    cases hfind : nearestMultiple x (10 ^ (zeros + 1)) with
    | none => exact ⟨ih.1, Nat.le_succ_of_le ih.2⟩
    | some digits => exact ⟨nearestMultiple_le hfind, le_rfl⟩

theorem spelledDigits_short (n : Int) :
    (Nat.toDigits 10 (spelledDigits n).1).length + (spelledDigits n).2 ≤
      2 * digitCount n.natAbs + 1 := by
  unfold spelledDigits
  split
  · have hone : (Nat.toDigits 10 0).length = 1 := rfl
    dsimp only
    omega
  · obtain ⟨hdigits, hzeros⟩ := shortestDecimal_le n.natAbs (digitCount n.natAbs)
    have hlt : n.natAbs < 10 ^ digitCount n.natAbs := by
      apply (Nat.length_toDigits_le_iff (by decide) Nat.length_toDigits_pos).mp
      exact le_rfl
    have hnext : 10 ^ (digitCount n.natAbs + 1) = 10 ^ digitCount n.natAbs * 10 := pow_succ _ _
    have hlength : (Nat.toDigits 10 (shortestDecimal n.natAbs (digitCount n.natAbs)).1).length ≤
        digitCount n.natAbs + 1 := by
      apply (Nat.length_toDigits_le_iff (by decide) (by omega)).mpr
      omega
    omega

/-- The text of a whole number as a literal. -/
theorem numberText_spelled (n : Int) :
    ∃ numeral : Numeral, numeral.Spelled (numberText n) ∧
      numeral.whole.length + numeral.fraction.length + numeral.exponent.natAbs ≤
        4 * digitCount n.natAbs + 2 ∧
      ∃ k : Nat, numeral.exponent - numeral.fraction.length = k ∧
        (if numeral.negative then -1 else 1) *
          ((decimalValue (numeral.whole ++ numeral.fraction) * 10 ^ k : Nat) : Int) =
            spelledValue n := by
  have hshort := spelledDigits_short n
  obtain ⟨⟨digits, zeros⟩, hfound⟩ : ∃ found, found = spelledDigits n := ⟨_, rfl⟩
  obtain ⟨numeral, hspelled, hsize, hnegative, k, hk, hvalue⟩ :=
    unsignedText_spelled digits zeros (decide (n < 0))
  have htext : numberText n =
      (if decide (n < 0) = true then ['-'] else []) ++ unsignedText digits zeros := by
    unfold numberText
    rw [← hfound]
    simp only [decide_eq_true_eq]
  rw [← hfound] at hshort
  dsimp only at hshort
  refine ⟨numeral, ?_, by omega, k, hk, ?_⟩
  · rw [htext]
    exact hspelled
  · unfold spelledValue
    rw [hnegative, hvalue, ← hfound]
    by_cases hneg : n < 0
    · simp only [hneg, decide_true, if_true, neg_one_mul]
    · simp only [hneg, decide_false, if_false, Bool.false_eq_true, one_mul]

/-- The text of a whole number is scaled to the number that it spells, where a column holds it. -/
theorem decimalToScaled_numberText {n : Int} (hn : digitCount n.natAbs ≤ 2 ^ 40)
    (hnonzero : spelledValue n ≠ 0) (f : Nat) {ctx : String} {scaled : Int}
    (hok : decimalToScaled (numberText n) f ctx = .ok scaled) :
    scaled = spelledValue n * 10 ^ f ∨ 2 ^ 127 < scaled.natAbs := by
  obtain ⟨numeral, hspelled, hsize, k, hk, hvalue⟩ := numberText_spelled n
  by_cases hfar : 2 ^ 52 ≤ f
  · right
    have htrimmed : numeral.Spelled (trim (numberText n)) := by
      rw [trim_numeral hspelled]
      exact hspelled
    refine (decimalToScaled_above htrimmed (decimalShift_far (by omega) hfar) hok).resolve_left ?_
    rintro ⟨hzero, -⟩
    rw [hzero, Nat.zero_mul] at hvalue
    exact hnonzero (hvalue.symm.trans (mul_zero _))
  · left
    have hexact : numeral.PointExact f := ⟨by omega, by omega, by omega, by omega⟩
    have hshift : numeral.exponent - numeral.fraction.length + f = ((k + f : Nat) : Int) := by
      rw [hk]
      push_cast
      rfl
    rw [decimalToScaled_spelled hspelled hexact hshift] at hok
    rw [← Except.ok.inj hok, ← hvalue, Int.pow_add]
    push_cast
    ring

/-- What a large double is spelled as is as large. -/
theorem spelledValue_large {n : Int} (hn : roundSignificand n.natAbs = n.natAbs)
    (hlarge : 2 ^ 53 ≤ n.natAbs) : 2 ^ 53 ≤ (spelledValue n).natAbs := by
  obtain ⟨found, hfound⟩ : ∃ found, found = spelledDigits n := ⟨_, rfl⟩
  have hrounds := shortestDecimal_rounds hn (digitCount n.natAbs)
  have hdigits : shortestDecimal n.natAbs (digitCount n.natAbs) = found := by
    rw [hfound, spelledDigits, if_neg (by omega)]
  rw [hdigits] at hrounds
  have hvalue : 2 ^ 53 ≤ found.1 * 10 ^ found.2 := by
    by_contra hsmall
    rw [roundSignificand_of_lt (by omega)] at hrounds
    omega
  unfold spelledValue
  rw [← hfound]
  dsimp only
  split <;> omega

end FastFirebird
