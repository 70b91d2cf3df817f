import FastFirebird.DecFloat
import Mathlib.Data.List.TakeWhile

/-! Decimal literals: which texts are one, what `parseDecimal` reads off them, and that `format`
writes them. -/
namespace FastFirebird

/-- `text`, white space around it. -/
def Padded (value text : Text) : Prop :=
  ∃ before after, value = before ++ text ++ after ∧ (∀ c ∈ before, isSpace c = true) ∧
    ∀ c ∈ after, isSpace c = true

/-- The literal `n`. -/
def Written (n : Numeral) (value : Text) : Prop := ∃ text, Padded value text ∧ n.Spelled text

theorem padded_trim (value : Text) : Padded value (trim value) := by
  refine ⟨value.takeWhile isSpace,
    ((value.dropWhile isSpace).reverse.takeWhile isSpace).reverse, ?_, ?_, ?_⟩
  · rw [trim, trimEnd, List.append_assoc, ← List.reverse_append, List.takeWhile_append_dropWhile,
      List.reverse_reverse, List.takeWhile_append_dropWhile]
  · intro c hc
    exact List.mem_takeWhile_imp hc
  · intro c hc
    exact List.mem_takeWhile_imp (List.mem_reverse.mp hc)

theorem dropWhile_solid {text : Text} (h : ∀ c ∈ text, isSpace c = false) :
    text.dropWhile isSpace = text := by
  cases text with
  | nil => rfl
  | cons c rest =>
    apply List.dropWhile_cons_of_neg
    rw [h c List.mem_cons_self]
    exact Bool.false_ne_true

theorem trim_padded {value text : Text} (hsolid : ∀ c ∈ text, isSpace c = false)
    (h : Padded value text) : trim value = text := by
  obtain ⟨before, after, rfl, hbefore, hafter⟩ := h
  by_cases hnil : text = []
  · have hall : (before ++ text ++ after).dropWhile isSpace = [] := by
      apply List.dropWhile_eq_nil_iff.mpr
      intro c hc
      rw [hnil, List.append_nil] at hc
      rcases List.mem_append.mp hc with hc | hc
      · exact hbefore c hc
      · exact hafter c hc
    rw [trim, hall, hnil]
    rfl
  · have hfront : (before ++ text ++ after).dropWhile isSpace = text ++ after := by
      rw [List.append_assoc, List.dropWhile_append_of_pos hbefore, List.dropWhile_append,
        dropWhile_solid hsolid, if_neg]
      simpa using hnil
    have hback : ∀ c ∈ after.reverse, isSpace c = true := fun c hc =>
      hafter c (List.mem_reverse.mp hc)
    rw [trim, hfront, trimEnd, List.reverse_append, List.dropWhile_append_of_pos hback,
      dropWhile_solid fun c hc => hsolid c (List.mem_reverse.mp hc), List.reverse_reverse]

/-! The characters of a literal -/

theorem isSpace_of_isDigit {c : Char} (h : c.isDigit = true) : isSpace c = false := by
  have hbounds := isDigit_bounds h
  rw [← Bool.not_eq_true]
  intro hspace
  have := isSpace_toNat hspace
  omega

/-- A character of a literal is no white space, and no letter of a special name. -/
structure LiteralChar (c : Char) : Prop where
  solid : isSpace c = false
  plain : c.toLower ≠ 'n'

theorem LiteralChar.digit {c : Char} (h : c.isDigit = true) : LiteralChar c := by
  constructor
  · exact isSpace_of_isDigit h
  · have hbounds := isDigit_bounds h
    have hsame : c.toLower = c := toLower_self (by omega)
    rw [hsame]
    intro heq
    rw [heq] at hbounds
    exact absurd hbounds (by decide)

theorem SignPart.chars {negative : Bool} {sign : List Char} (h : SignPart negative sign) :
    ∀ c ∈ sign, c = '+' ∨ c = '-' := by
  cases h with
  | unsigned => simp
  | plus => simp
  | minus => simp

theorem SignPart.literalChars {negative : Bool} {sign : List Char} (h : SignPart negative sign) :
    ∀ c ∈ sign, LiteralChar c := by
  intro c hc
  rcases h.chars c hc with rfl | rfl
  · exact ⟨by decide, by decide⟩
  · exact ⟨by decide, by decide⟩

theorem PointPart.chars {fraction point : List Char} (h : PointPart fraction point) :
    ∀ c ∈ point, c = '.' ∨ c ∈ fraction := by
  cases h with
  | whole => simp
  | point => simp

theorem ExponentPart.literalChars {e : Int} {exponent : List Char} (h : ExponentPart e exponent) :
    ∀ c ∈ exponent, LiteralChar c := by
  cases h with
  | plain => simp
  | scaled hmark hs hdigits =>
    intro c hc
    rcases List.mem_cons.mp hc with rfl | hc
    · rcases hmark with rfl | rfl
      · exact ⟨by decide, by decide⟩
      · exact ⟨by decide, by decide⟩
    · rcases List.mem_append.mp hc with hc | hc
      · exact hs.literalChars c hc
      · exact .digit (hdigits c hc)

theorem Numeral.Spelled.chars {n : Numeral} {text : Text} (h : n.Spelled text) :
    ∀ c ∈ text, LiteralChar c := by
  obtain ⟨sign, point, exponent, hsign, hpoint, hexp, rfl⟩ := h
  obtain ⟨hwhole, hfraction⟩ := n.digits.of_append
  intro c hc
  simp only [List.mem_append] at hc
  rcases hc with hc | hc | hc | hc
  · exact hsign.literalChars c hc
  · exact .digit (hwhole c hc)
  · rcases hpoint.chars c hc with rfl | hc
    · exact ⟨by decide, by decide⟩
    · exact .digit (hfraction c hc)
  · exact hexp.literalChars c hc

/-! Reading -/

theorem splitSign_unsigned {c : Char} {rest : Text} (hplus : c ≠ '+') (hminus : c ≠ '-') :
    splitSign (c :: rest) = (false, c :: rest) := by
  rw [splitSign]
  · intro rest' heq
    exact hplus (List.cons.inj heq).1
  · intro rest' heq
    exact hminus (List.cons.inj heq).1

theorem splitSign_spelled {negative : Bool} {sign rest : Text} (hsign : SignPart negative sign)
    (hrest : ∀ c ∈ rest.head?, c ≠ '+' ∧ c ≠ '-') : splitSign (sign ++ rest) = (negative, rest) := by
  cases hsign with
  | plus => rfl
  | minus => rfl
  | unsigned =>
    cases rest with
    | nil => rfl
    | cons c rest =>
      obtain ⟨hplus, hminus⟩ := hrest c rfl
      exact splitSign_unsigned hplus hminus

theorem digit_not_sign {c : Char} (h : c.isDigit = true) : c ≠ '+' ∧ c ≠ '-' := by
  constructor
  · rintro rfl
    exact absurd h (by decide)
  · rintro rfl
    exact absurd h (by decide)

theorem parseInt_spelled {negative : Bool} {sign digits : Text} (hsign : SignPart negative sign)
    (hdigits : AllDigits digits) (hnonempty : digits ≠ []) :
    parseInt (sign ++ digits) =
      .ofInt (if negative then -(decimalValue digits : Int) else decimalValue digits) := by
  have hsolid : ∀ c ∈ sign ++ digits, isSpace c = false := by
    intro c hc
    rcases List.mem_append.mp hc with hc | hc
    · exact (hsign.literalChars c hc).solid
    · exact isSpace_of_isDigit (hdigits c hc)
  have hsplit : splitSign (sign ++ digits) = (negative, digits) := by
    apply splitSign_spelled hsign
    intro c hc
    exact digit_not_sign (hdigits c (List.mem_of_head? hc))
  have htake : digits.takeWhile Char.isDigit = digits := by
    rw [List.takeWhile_eq_self_iff]
    exact hdigits
  simp only [parseInt, dropWhile_solid hsolid, hsplit, htake, if_neg hnonempty]

theorem ofInt_zero : Number.ofInt 0 = .int 0 := by decide +kernel

theorem splitExponent_spelled {e : Int} {body exponent : Text} (hexp : ExponentPart e exponent)
    (hbody : ∀ c ∈ body, isExponentMark c = false) :
    splitExponent (body ++ exponent) = (.ofInt e, body) := by
  have hnone : body.findIdx? isExponentMark = none := List.findIdx?_eq_none_iff.mpr hbody
  cases hexp with
  | plain =>
    rw [List.append_nil, splitExponent, hnone, ofInt_zero]
  | @scaled mark negative sign digits hmark hsign hdigits hnonempty =>
    have hfound : (mark :: (sign ++ digits)).findIdx? isExponentMark = some 0 := by
      rcases hmark with rfl | rfl
      · rfl
      · rfl
    have hindex : (body ++ mark :: (sign ++ digits)).findIdx? isExponentMark =
        some body.length := by
      rw [List.findIdx?_append, hnone, hfound]
      simp
    rw [splitExponent, hindex]
    show (parseInt ((body ++ mark :: (sign ++ digits)).drop (body.length + 1)),
      (body ++ mark :: (sign ++ digits)).take body.length) = _
    rw [List.take_left, List.drop_append, List.drop_eq_nil_of_le (Nat.le_succ _), List.nil_append,
      Nat.add_sub_cancel_left, List.drop_succ_cons, List.drop_zero,
      parseInt_spelled hsign hdigits hnonempty]

/-- How often a point is taken out of `point`, and by how far the exponent moves. -/
def pointShift (fraction point : Text) : List Int :=
  if point = [] then [] else [-(fraction.length : Int)]

theorem splitPoint_spelled {whole fraction point : Text} (exp : Number)
    (hpoint : PointPart fraction point) (hwhole : ∀ c ∈ whole, c ≠ '.') :
    splitPoint exp (whole ++ point) =
      ((pointShift fraction point).foldl Number.add exp, whole ++ fraction) := by
  have hnone : whole.idxOf? '.' = none := by
    rw [List.idxOf?_eq_none_iff]
    intro hmem
    exact hwhole '.' hmem rfl
  cases hpoint with
  | whole =>
    rw [List.append_nil, splitPoint, hnone]
    rfl
  | point =>
    have hindex : (whole ++ '.' :: fraction).idxOf? '.' = some whole.length := by
      rw [List.idxOf?, List.findIdx?_append]
      rw [List.idxOf?] at hnone
      rw [hnone]
      simp [List.findIdx?_cons]
    have hlen : ((whole ++ '.' :: fraction).length : Int) - whole.length - 1 = fraction.length := by
      rw [List.length_append, List.length_cons]
      push_cast
      omega
    rw [splitPoint, hindex]
    show (exp.add (-(((whole ++ '.' :: fraction).length : Int) - whole.length - 1)),
      (whole ++ '.' :: fraction).take whole.length ++
        (whole ++ '.' :: fraction).drop (whole.length + 1)) = _
    rw [hlen, List.take_left, List.drop_append, List.drop_eq_nil_of_le (Nat.le_succ _),
      List.nil_append, Nat.add_sub_cancel_left, List.drop_succ_cons, List.drop_zero]
    rfl

theorem isExponentMark_of_isDigit {c : Char} (h : c.isDigit = true) : isExponentMark c = false := by
  have hbounds := isDigit_bounds h
  rw [isExponentMark, Bool.or_eq_false_iff]
  constructor
  · rw [beq_eq_false_iff_ne]
    rintro rfl
    exact absurd hbounds (by decide)
  · rw [beq_eq_false_iff_ne]
    rintro rfl
    exact absurd hbounds (by decide)

/-- What `parseDecimal` reads off a literal. -/
theorem parseDecimal_written {n : Numeral} {value : Text} (h : Written n value) :
    ∃ point, PointPart n.fraction point ∧ parseDecimal value =
      .ok ⟨n.negative, stripZeros (n.whole ++ n.fraction),
        (pointShift n.fraction point).foldl Number.add (.ofInt n.exponent)⟩ := by
  obtain ⟨text, hpadded, hspelled⟩ := h
  have htrim := trim_padded (fun c hc => (hspelled.chars c hc).solid) hpadded
  obtain ⟨sign, point, exponent, hsign, hpoint, hexp, rfl⟩ := hspelled
  obtain ⟨hwhole, hfraction⟩ := n.digits.of_append
  have hmarks : ∀ c ∈ n.whole ++ point, isExponentMark c = false := by
    intro c hc
    rcases List.mem_append.mp hc with hc | hc
    · exact isExponentMark_of_isDigit (hwhole c hc)
    · rcases hpoint.chars c hc with rfl | hc
      · decide
      · exact isExponentMark_of_isDigit (hfraction c hc)
  have hhead : ∀ c ∈ (n.whole ++ (point ++ exponent)).head?, c ≠ '+' ∧ c ≠ '-' := by
    intro c hc
    have hne := n.nonempty
    generalize n.whole = whole at hc hne hwhole
    generalize n.fraction = fraction at hne hpoint
    cases whole with
    | cons d rest =>
      cases hc
      exact digit_not_sign (hwhole c List.mem_cons_self)
    | nil =>
      -- then there is a fraction, and a point in front of it
      cases hpoint with
      | whole => exact absurd rfl hne
      | point =>
        cases hc
        exact ⟨by decide, by decide⟩
  have hdots : ∀ c ∈ n.whole, c ≠ '.' := by
    intro c hc heq
    rw [heq] at hc
    exact absurd (hwhole '.' hc) (by decide)
  have hexponent := splitExponent_spelled hexp hmarks
  rw [List.append_assoc] at hexponent
  refine ⟨point, hpoint, ?_⟩
  simp only [parseDecimal, htrim, splitSign_spelled hsign hhead, hexponent,
    splitPoint_spelled _ hpoint hdots]
  rw [if_pos]
  exact ⟨n.nonempty, List.all_eq_true.mpr n.digits⟩

/-- What it accepts is digits. -/
theorem parseDecimal_digits {value : Text} {d : ParsedDecimal} (h : parseDecimal value = .ok d) :
    ∃ s, s ≠ [] ∧ AllDigits s ∧ d.digits = stripZeros s := by
  simp only [parseDecimal] at h
  split at h
  · rename_i hok
    cases h
    exact ⟨_, hok.1, List.all_eq_true.mp hok.2, rfl⟩
  · cases h

/-! Zeros in front -/

/-- What is left begins with no zero, or is a single digit. -/
theorem stripZeros_facts {s : Text} (hdigits : AllDigits s) (hne : s ≠ []) :
    AllDigits (stripZeros s) ∧ decimalValue (stripZeros s) = decimalValue s ∧
      ∃ c rest, stripZeros s = c :: rest ∧ (c ≠ '0' ∨ rest = []) := by
  induction s using stripZeros.induct with
  | case1 c rest hc ih =>
    rw [stripZeros, if_pos hc]
    obtain ⟨hall, hvalue, hform⟩ := ih (fun d hd => hdigits d (List.mem_cons_of_mem _ hd)) (by simp)
    refine ⟨hall, ?_, hform⟩
    rw [hvalue]
    exact (decimalValue_zeros 1 (c :: rest)).symm
  | case2 c rest hc => exact absurd (hdigits c (by simp)) hc
  | case3 text hother =>
    have hsame : stripZeros text = text := by
      rw [stripZeros]
      exact hother
    rw [hsame]
    refine ⟨hdigits, rfl, ?_⟩
    match text, hne with
    | [c], _ => exact ⟨c, [], rfl, .inr rfl⟩
    | c :: d :: rest, _ =>
      refine ⟨c, d :: rest, rfl, .inl ?_⟩
      intro hc
      exact hother d rest (by rw [hc])

theorem length_stripZeros {s : Text} (hdigits : AllDigits s) (hne : s ≠ []) :
    (stripZeros s).length = digitCount (decimalValue s) := by
  obtain ⟨hall, hvalue, c, rest, hform, hlead⟩ := stripZeros_facts hdigits hne
  rw [← hvalue, hform]
  rw [hform] at hall
  rcases hlead with hc | rfl
  · rw [digitCount_decimalValue hall hc, List.length_cons]
  · have hc := isDigit_bounds (hall c List.mem_cons_self)
    have hlt : decimalValue [c] < 10 := by
      simp only [decimalValue_cons, List.length_nil, decimalValue_nil]
      omega
    rw [digitCount, Nat.toDigits_of_lt_base hlt]
    rfl

/-! Writing -/

theorem signPart_of_neg (neg : Bool) : SignPart neg (if neg then ['-'] else []) := by
  cases neg
  · exact .unsigned
  · exact .minus

theorem signed_eq {negative : Bool} {x y : ℚ} (h : x = y) :
    Numeral.signed negative x = Numeral.signed negative y := by
  rw [h]

theorem allDigits_zeros (k : Nat) : AllDigits (List.replicate k '0') := by
  intro c hc
  rw [List.eq_of_mem_replicate hc]
  decide

theorem denotes_spelled {neg : Bool} {whole fraction point : Text} {x : ℚ}
    (hdigits : AllDigits (whole ++ fraction)) (hne : whole ++ fraction ≠ [])
    (hpoint : PointPart fraction point)
    (hx : (decimalValue (whole ++ fraction) : ℚ) * 10 ^ (-(fraction.length : Int)) = x) :
    Denotes ((if neg then ['-'] else []) ++ (whole ++ point)) (Numeral.signed neg x) := by
  refine ⟨⟨neg, whole, fraction, 0, hdigits, hne⟩,
    ⟨_, point, [], signPart_of_neg neg, hpoint, .plain, by rw [List.append_nil]⟩, ?_⟩
  apply signed_eq
  rw [← hx]
  simp only [Numeral.scaled, Scaled.value, Int.zero_sub]

/-- What `format` writes is worth the digits times the power of ten. -/
theorem format_denotes (neg : Bool) {digits : Text} (exp : Int) (hdigits : AllDigits digits)
    (hne : digits ≠ []) :
    Denotes (format neg digits exp)
      (Numeral.signed neg ((decimalValue digits : ℚ) * 10 ^ exp)) := by
  have hten : (10 : ℚ) ≠ 0 := by norm_num
  rw [format]
  dsimp only
  split
  · rename_i hzero
    have hspelled := @denotes_spelled neg ['0'] [] [] ((decimalValue digits : ℚ) * 10 ^ exp)
      (by rwa [hzero] at hdigits) (by simp) .whole (by rw [hzero]; simp [decimalValue_cons])
    exact hspelled
  split
  · rename_i hexp
    have hspelled := @denotes_spelled neg digits [] [] ((decimalValue digits : ℚ) * 10 ^ exp)
      (by rwa [List.append_nil]) (by rwa [List.append_nil]) .whole (by simp [hexp])
    rw [List.append_nil] at hspelled
    exact hspelled
  split
  · rename_i hpos
    -- zeros behind the digits
    have hvalue : (decimalValue (digits ++ List.replicate exp.toNat '0') : ℚ) =
        (decimalValue digits : ℚ) * 10 ^ exp := by
      have hzeros := decimalValue_zeros exp.toNat []
      rw [List.append_nil, decimalValue_nil] at hzeros
      have hpow : (10 : ℚ) ^ exp = 10 ^ exp.toNat := by
        rw [← zpow_natCast, Int.toNat_of_nonneg hpos.le]
      rw [decimalValue_append, hzeros, List.length_replicate, hpow]
      push_cast
      ring
    have hspelled := @denotes_spelled neg (digits ++ List.replicate exp.toNat '0') [] []
      ((decimalValue digits : ℚ) * 10 ^ exp)
      (by rw [List.append_nil]; exact hdigits.append (allDigits_zeros _)) (by simp [hne]) .whole
      (by rw [List.append_nil, hvalue]; simp)
    rw [List.append_nil, ← List.append_assoc] at hspelled
    exact hspelled
  · rename_i hpos hexp hnonpos
    by_cases hpoint : 0 < (digits.length : Int) + exp
    · -- the point among the digits
      rw [if_pos hpoint]
      have hsplit := List.take_append_drop ((digits.length : Int) + exp).toNat digits
      have hlen : ((digits.drop ((digits.length : Int) + exp).toNat).length : Int) = -exp := by
        rw [List.length_drop]
        omega
      have hspelled := @denotes_spelled neg (digits.take ((digits.length : Int) + exp).toNat)
        (digits.drop ((digits.length : Int) + exp).toNat) _ ((decimalValue digits : ℚ) * 10 ^ exp)
        (by rwa [hsplit]) (by rwa [hsplit]) (.point _) (by rw [hsplit, hlen, neg_neg])
      rw [← List.append_assoc] at hspelled
      exact hspelled
    · -- zeros between the point and the digits
      rw [if_neg hpoint]
      have hvalue : decimalValue (['0'] ++
          (List.replicate (-((digits.length : Int) + exp)).toNat '0' ++ digits)) =
          decimalValue digits := by
        have hone := decimalValue_zeros 1
          (List.replicate (-((digits.length : Int) + exp)).toNat '0' ++ digits)
        exact hone.trans (decimalValue_zeros _ digits)
      have hlen : ((List.replicate (-((digits.length : Int) + exp)).toNat '0' ++
          digits).length : Int) = -exp := by
        rw [List.length_append, List.length_replicate]
        push_cast
        omega
      have hspelled := @denotes_spelled neg ['0']
        (List.replicate (-((digits.length : Int) + exp)).toNat '0' ++ digits) _
        ((decimalValue digits : ℚ) * 10 ^ exp)
        ((allDigits_zeros 1).append ((allDigits_zeros _).append hdigits)) (by simp) (.point _)
        (by rw [hvalue, hlen, neg_neg])
      rw [List.append_assoc]
      exact hspelled

end FastFirebird
