import FastFirebird.DecFloatSound

/-! What `decodeDecFloat` writes is accepted by `encodeDecFloat`, and decodes to the same text. -/
namespace FastFirebird

/-! Digits and their value -/

theorem eq_of_decimalValue : ∀ {a b : Text}, AllDigits a → AllDigits b → a.length = b.length →
    decimalValue a = decimalValue b → a = b
  | [], [], _, _, _, _ => rfl
  | [], _ :: _, _, _, hlen, _ => nomatch hlen
  | _ :: _, [], _, _, hlen, _ => nomatch hlen
  | c :: a, d :: b, ha, hb, hlen, hvalue => by
    have hc := isDigit_bounds (ha c List.mem_cons_self)
    have hd := isDigit_bounds (hb d List.mem_cons_self)
    have hresta : AllDigits a := fun x hx => ha x (List.mem_cons_of_mem c hx)
    have hrestb : AllDigits b := fun x hx => hb x (List.mem_cons_of_mem d hx)
    have hsame : a.length = b.length := Nat.succ.inj hlen
    have hlta := decimalValue_lt hresta
    have hltb := decimalValue_lt hrestb
    rw [decimalValue_cons, decimalValue_cons, hsame] at hvalue
    rw [hsame] at hlta
    -- the first digits are the quotients
    have hfirst : c.toNat - 48 = d.toNat - 48 := by
      calc c.toNat - 48 = ((c.toNat - 48) * 10 ^ b.length + decimalValue a) / 10 ^ b.length := by
            rw [Nat.add_comm, Nat.add_mul_div_right _ _ (by positivity), Nat.div_eq_of_lt hlta,
              Nat.zero_add]
        _ = ((d.toNat - 48) * 10 ^ b.length + decimalValue b) / 10 ^ b.length := by rw [hvalue]
        _ = d.toNat - 48 := by
            rw [Nat.add_comm, Nat.add_mul_div_right _ _ (by positivity), Nat.div_eq_of_lt hltb,
              Nat.zero_add]
    have hchar : c = d := by
      apply Char.toNat_inj.mp
      omega
    rw [hfirst] at hvalue
    rw [hchar, eq_of_decimalValue hresta hrestb hsame (Nat.add_left_cancel hvalue)]

/-- Digits as a coefficient is written: no zero in front, unless it is the only digit. -/
structure Coefficient (digits : Text) : Prop where
  allDigits : AllDigits digits
  lead : ∃ c rest, digits = c :: rest ∧ (c ≠ '0' ∨ rest = [])

namespace Coefficient

variable {digits : Text}

theorem ne_nil (h : Coefficient digits) : digits ≠ [] := by
  obtain ⟨c, rest, rfl, -⟩ := h.lead
  exact List.cons_ne_nil c rest

theorem stripped {s : Text} (hdigits : AllDigits s) (hne : s ≠ []) : Coefficient (stripZeros s) := by
  obtain ⟨hall, -, hlead⟩ := stripZeros_facts hdigits hne
  exact ⟨hall, hlead⟩

theorem stripZeros_eq (h : Coefficient digits) : stripZeros digits = digits := by
  obtain ⟨c, rest, rfl, hc⟩ := h.lead
  rw [stripZeros]
  intro d tail heq
  injection heq with hzero hrest
  rcases hc with hne | hnil
  · exact hne hzero
  · rw [hnil] at hrest
    cases hrest

/-- The digits of a coefficient are those of its value. -/
theorem toDigits_value (h : Coefficient digits) : Nat.toDigits 10 (decimalValue digits) = digits := by
  have hcount := length_stripZeros h.allDigits h.ne_nil
  rw [h.stripZeros_eq] at hcount
  exact eq_of_decimalValue (allDigits_toDigits _) h.allDigits hcount.symm (decimalValue_toDigits _)

theorem lead_ne_zero (h : Coefficient digits) (hzero : digits ≠ ['0']) :
    ∃ c rest, digits = c :: rest ∧ c ≠ '0' := by
  obtain ⟨c, rest, rfl, hc⟩ := h.lead
  refine ⟨c, rest, rfl, ?_⟩
  rintro rfl
  rcases hc with hne | rfl
  · exact hne rfl
  · exact hzero rfl

/-- Zeros behind a coefficient that is not zero. -/
theorem zeros (h : Coefficient digits) (hzero : digits ≠ ['0']) (k : Nat) :
    Coefficient (digits ++ List.replicate k '0') ∧ digits ++ List.replicate k '0' ≠ ['0'] := by
  obtain ⟨c, rest, hform, hc⟩ := h.lead_ne_zero hzero
  refine ⟨⟨h.allDigits.append (allDigits_zeros k), c, rest ++ List.replicate k '0', ?_, .inl hc⟩, ?_⟩
  · rw [hform, List.cons_append]
  · rw [hform, List.cons_append]
    intro heq
    exact hc (List.cons.inj heq).1

end Coefficient

theorem stripZeros_zeros (k : Nat) {digits : Text} (h : AllDigits digits) (hne : digits ≠ []) :
    stripZeros (List.replicate k '0' ++ digits) = stripZeros digits := by
  induction k with
  | zero => rfl
  | succ k ih =>
    have hall : AllDigits (List.replicate k '0' ++ digits) := (allDigits_zeros k).append h
    obtain ⟨c, rest, hform⟩ : ∃ c rest, List.replicate k '0' ++ digits = c :: rest := by
      apply List.exists_cons_of_ne_nil
      simp [hne]
    rw [List.replicate_succ, List.cons_append, ← ih]
    rw [hform] at hall ⊢
    rw [stripZeros, if_pos (hall c List.mem_cons_self)]

/-! What is decoded -/

theorem mem_foldl_set {entries : List (Nat × Nat)} {table : List Nat} {x : Nat}
    (h : x ∈ entries.foldl (fun table entry => table.set entry.1 entry.2) table) :
    x ∈ table ∨ ∃ entry ∈ entries, entry.2 = x := by
  induction entries generalizing table with
  | nil => exact .inl h
  | cons entry entries ih =>
    rcases ih h with hset | ⟨other, hother, hx⟩
    · rcases List.mem_or_eq_of_mem_set hset with hold | hnew
      · exact .inl hold
      · exact .inr ⟨entry, List.mem_cons_self, hnew.symm⟩
    · exact .inr ⟨other, List.mem_cons_of_mem entry hother, hx⟩

/-- Every declet, canonical or not, is read as three digits. -/
theorem dpdToInt_lt (declet : Nat) : dpdToInt declet < 1000 := by
  unfold dpdToInt
  rw [List.getD_eq_getElem?_getD]
  cases hget : buildDpdTable[declet]? with
  | none => decide
  | some x =>
    show x < 1000
    rcases mem_foldl_set (List.mem_of_getElem? hget) with hzero | ⟨entry, hentry, rfl⟩
    · rw [List.eq_of_mem_replicate hzero]
      decide
    · obtain ⟨d2, h2, d1, h1, d0, h0, rfl⟩ := mem_dpdEntries.mp hentry
      dsimp only
      omega

theorem decletDigits_facts (declets coeffCont : Nat) : AllDigits (decletDigits declets coeffCont) ∧
    (decletDigits declets coeffCont).length = declets * 3 := by
  have hthree (x : Nat) : AllDigits (padStart 3 '0' (Nat.toDigits 10 (dpdToInt x))) ∧
      (padStart 3 '0' (Nat.toDigits 10 (dpdToInt x))).length = 3 := by
    have hshort : (Nat.toDigits 10 (dpdToInt x)).length ≤ 3 :=
      (Nat.length_toDigits_le_iff (by decide) (by decide)).mpr (dpdToInt_lt x)
    refine ⟨(allDigits_zeros _).append (allDigits_toDigits _), ?_⟩
    rw [padStart, List.length_append, List.length_replicate]
    omega
  induction declets generalizing coeffCont with
  | zero => exact ⟨fun c hc => absurd hc List.not_mem_nil, rfl⟩
  | succ n ih =>
    obtain ⟨hall, hlen⟩ := ih (coeffCont >>> 10)
    rw [decletDigits_succ]
    refine ⟨hall.append (hthree _).1, ?_⟩
    rw [List.length_append, hlen, (hthree _).2]
    omega

theorem splitCombo_lt : ∀ combo < 30, (splitCombo combo).1 < 3 ∧ (splitCombo combo).2 < 10 := by
  decide

/-- What any bytes decode to. -/
inductive Decoded (byteWidth : ByteWidth) : Text → Prop where
  | infinite (neg : Bool) : Decoded byteWidth (infinityName neg)
  | nan : Decoded byteWidth nanName
  | finite (neg : Bool) {digits : Text} {biased : Nat} (hdigits : Coefficient digits)
      (hlen : digits.length ≤ byteWidth.format.maxDigits)
      (hbiased : biased < byteWidth.format.exponents) :
      Decoded byteWidth (format neg digits (biased - byteWidth.format.bias))

theorem decodeDecFloat_decoded {byteWidth : ByteWidth} {buf : List UInt8}
    (h : buf.length = byteWidth.toNat) : Decoded byteWidth (decodeDecFloat buf) := by
  unfold decodeDecFloat
  simp only [ByteWidth.format_of_length h]
  split
  · split
    · exact .infinite _
    · exact .nan
  · rename_i hcombo
    obtain ⟨hmsb, hmsd⟩ := splitCombo_lt _ (Nat.lt_of_not_le hcombo)
    obtain ⟨hall, hcount⟩ := decletDigits_facts byteWidth.format.declets
      (ofBigEndian buf &&& ((1 <<< (byteWidth.format.declets * 10)) - 1))
    rw [Nat.toDigits_of_lt_base hmsd]
    have hdigits : AllDigits ([Nat.digitChar (splitCombo
        ((ofBigEndian buf >>> (byteWidth.format.totalBits - 6)) &&& 0x1f)).2] ++
        decletDigits byteWidth.format.declets
          (ofBigEndian buf &&& ((1 <<< (byteWidth.format.declets * 10)) - 1))) := by
      have hlead := allDigits_toDigits (splitCombo
        ((ofBigEndian buf >>> (byteWidth.format.totalBits - 6)) &&& 0x1f)).2
      rw [Nat.toDigits_of_lt_base hmsd] at hlead
      exact hlead.append hall
    apply Decoded.finite
    · exact .stripped hdigits (by simp)
    · rw [length_stripZeros hdigits (by simp)]
      apply (Nat.length_toDigits_le_iff (by decide) byteWidth.format.maxDigits_pos).mpr
      have hlt := decimalValue_lt hdigits
      rw [List.length_append, hcount, List.length_singleton, Nat.add_comm] at hlt
      exact hlt
    · rw [Nat.one_shiftLeft, Nat.and_two_pow_sub_one_eq_mod,
        shiftLeft_or (Nat.mod_lt _ (by positivity))]
      unfold DecimalFormat.exponents
      have hrest := Nat.mod_lt (ofBigEndian buf >>>
        (byteWidth.format.totalBits - 6 - byteWidth.format.expContBits))
        (show 0 < 2 ^ byteWidth.format.expContBits by positivity)
      have hroom := Nat.mul_le_mul_right (2 ^ byteWidth.format.expContBits)
        (Nat.succ_le_of_lt hmsb)
      rw [Nat.succ_mul] at hroom
      omega

/-! Plain decimals are encoded -/

/-- The exponent that the point leaves. -/
theorem pointShift_fold {fraction point : Text} (h : PointPart fraction point)
    (hshort : fraction.length < 2 ^ 53) :
    (pointShift fraction point).foldl Number.add (.ofInt 0) = .int (-(fraction.length : Int)) := by
  cases h with
  | whole =>
    rw [pointShift, if_pos rfl, List.foldl_nil, ofInt_zero, List.length_nil, Nat.cast_zero, neg_zero]
  | point =>
    rw [pointShift, if_neg (List.cons_ne_nil _ _), List.foldl_cons, List.foldl_nil, ofInt_zero,
      Number.add_int, Int.zero_add]
    exact Number.ofInt_exact (by omega)

section Plain

variable {byteWidth : ByteWidth} {neg : Bool} {whole fraction point fitted : Text} {biased : Nat}

/-- A plain decimal that is fitted to a coefficient within the exponents. -/
theorem encodes_plain (hdigits : AllDigits (whole ++ fraction)) (hne : whole ++ fraction ≠ [])
    (hpoint : PointPart fraction point) (hshort : fraction.length < 2 ^ 53)
    (hfit : fitDigits byteWidth.format.maxDigits (stripZeros (whole ++ fraction))
      (.int (-(fraction.length : Int))) = (fitted, .int (biased - byteWidth.format.bias)))
    (hfitted : Coefficient fitted) (hlen : fitted.length ≤ byteWidth.format.maxDigits)
    (hbiased : biased < byteWidth.format.exponents) :
    ∃ bytes, encodeDecFloat ((if neg then ['-'] else []) ++ (whole ++ point)) byteWidth =
        .ok bytes ∧
      decodeDecFloat bytes = format neg fitted (biased - byteWidth.format.bias) := by
  obtain ⟨value, hvalue⟩ : ∃ value, value = (if neg then ['-'] else []) ++ (whole ++ point) :=
    ⟨_, rfl⟩
  have hspelled : Numeral.Spelled ⟨neg, whole, fraction, 0, hdigits, hne⟩ value :=
    ⟨_, point, [], signPart_of_neg neg, hpoint, .plain, by rw [hvalue, List.append_nil]⟩
  have hwritten : Written ⟨neg, whole, fraction, 0, hdigits, hne⟩ value :=
    ⟨value, ⟨[], [], by rw [List.nil_append, List.append_nil], nofun, nofun⟩, hspelled⟩
  obtain ⟨hinf, hnan⟩ := hwritten.not_special
  obtain ⟨point', hpoint', hparse⟩ := parseDecimal_written hwritten
  dsimp only at hparse
  rw [pointShift_fold hpoint' hshort] at hparse
  have hexponent : biasedExponent byteWidth.format (stripZeros (whole ++ fraction))
      (.int (-(fraction.length : Int))) = .int biased := by
    have hsmall : byteWidth.format.exponents ≤ 3 * 2 ^ 12 := by cases byteWidth <;> decide
    have hsum : (biased : Int) - byteWidth.format.bias + byteWidth.format.bias = biased := by omega
    rw [biasedExponent, hfit, Number.add_int, hsum]
    exact Number.ofInt_exact (by omega)
  have haccepted : ¬ ∃ e, encodeDecFloat value byteWidth = .error e := by
    rw [encodeDecFloat_throws_iff hinf hnan hparse, ← exponentAccepted_iff, hexponent,
      exponentAccepted_room hbiased]
    exact Bool.noConfusion
  obtain ⟨bytes, hbytes⟩ : ∃ bytes, encodeDecFloat value byteWidth = .ok bytes := by
    cases hencode : encodeDecFloat value byteWidth with
    | ok bytes => exact ⟨bytes, rfl⟩
    | error e => exact absurd ⟨e, hencode⟩ haccepted
  have hdecoded := decode_encoded hinf hnan hparse hexponent hbiased
    (by rw [hfit]; exact hfitted.allDigits) (by rw [hfit]; exact hlen) hbytes
  dsimp only at hdecoded
  rw [hfit, padStart, stripZeros_zeros _ hfitted.allDigits hfitted.ne_nil,
    hfitted.stripZeros_eq] at hdecoded
  rw [← hvalue]
  exact ⟨bytes, hbytes, hdecoded⟩

end Plain

theorem fitDigits_of_short {p : Nat} {digits : Text} (h : digits.length ≤ p) (exp : Number) :
    fitDigits p digits exp = (digits, exp) := by
  rw [fitDigits, if_neg (by omega)]

/-- The zeros that exceed the precision go to the exponent. -/
theorem fitDigits_zeros {p k : Nat} {digits : Text} (hdigits : Coefficient digits)
    (hzero : digits ≠ ['0']) (hlen : digits.length ≤ p) (hlong : p < digits.length + k)
    (hk : k < 2 ^ 53) : fitDigits p (digits ++ List.replicate k '0') (.int 0) =
      (digits ++ List.replicate (p - digits.length) '0', .int (digits.length + k - p : Nat)) := by
  have htake : (digits ++ List.replicate k '0').take p =
      digits ++ List.replicate (p - digits.length) '0' := by
    rw [List.take_append, List.take_of_length_le hlen, List.take_replicate, Nat.min_eq_left (by omega)]
  have hdigit : (digits ++ List.replicate k '0').getD p '0' = '0' := by
    rw [List.getD_eq_getElem?_getD, List.getElem?_append_right hlen, List.getElem?_replicate]
    split <;> rfl
  have hkept : (digits ++ List.replicate (p - digits.length) '0').length = p := by
    rw [List.length_append, List.length_replicate]
    omega
  have hcount : (digits ++ List.replicate k '0').length = digits.length + k := by
    rw [List.length_append, List.length_replicate]
  have hexp : (Number.int 0).add (digits.length + k - p : Nat) =
      .int (digits.length + k - p : Nat) := by
    rw [Number.add_int, Int.zero_add]
    exact Number.ofInt_exact (by omega)
  have hdown : ¬ 5 ≤ '0'.toNat - 48 := by decide
  have hvalue := (hdigits.zeros hzero (p - digits.length)).1.toDigits_value
  unfold fitDigits
  dsimp only
  rw [hcount, if_pos hlong, htake, hdigit, if_neg hdown, hvalue, hkept, if_neg (Nat.lt_irrefl p),
    hexp]

theorem format_of_ne_zero {neg : Bool} {digits : Text} {exp : Int} (h : digits ≠ ['0']) :
    format neg digits exp = (if neg then ['-'] else []) ++
      (if 0 ≤ exp then digits ++ List.replicate exp.toNat '0'
      else if 0 < digits.length + exp then
        digits.take (digits.length + exp).toNat ++ '.' :: digits.drop (digits.length + exp).toNat
      else '0' :: '.' :: (List.replicate (-(digits.length + exp)).toNat '0' ++ digits)) := by
  unfold format
  dsimp only
  rw [if_neg h]
  by_cases hpos : 0 ≤ exp
  · rw [if_pos hpos]
    by_cases hzero : exp = 0
    · rw [if_pos hzero, hzero, Int.toNat_zero, List.replicate_zero, List.append_nil]
    · have hlarge : 0 < exp := by omega
      rw [if_neg hzero, if_pos hlarge, List.append_assoc]
  · have hzero : ¬ exp = 0 := by omega
    have hlarge : ¬ 0 < exp := by omega
    rw [if_neg hzero, if_neg hlarge, if_neg hpos]
    split
    · rw [List.append_assoc]
    · rw [List.append_assoc]
      rfl

section Formatted

variable {byteWidth : ByteWidth} {neg : Bool} {digits : Text} {biased : Nat}

/-- Zeros behind the coefficient are digits again, and those that exceed the precision are the
exponent. -/
theorem encodes_whole (hdigits : Coefficient digits) (hzero : digits ≠ ['0'])
    (hlen : digits.length ≤ byteWidth.format.maxDigits)
    (hbiased : biased < byteWidth.format.exponents)
    (hpos : 0 ≤ (biased : Int) - byteWidth.format.bias) :
    ∃ bytes, encodeDecFloat (format neg digits (biased - byteWidth.format.bias)) byteWidth =
        .ok bytes ∧
      decodeDecFloat bytes = format neg digits (biased - byteWidth.format.bias) := by
  have hsmall : byteWidth.format.exponents ≤ 3 * 2 ^ 12 := by cases byteWidth <;> decide
  obtain ⟨k, hk⟩ := Int.eq_ofNat_of_zero_le hpos
  obtain ⟨hlong, hplain⟩ := hdigits.zeros hzero k
  have hwritten : format neg digits (biased - byteWidth.format.bias) =
      (if neg then ['-'] else []) ++ ((digits ++ List.replicate k '0') ++ []) := by
    rw [format_of_ne_zero hzero, if_pos hpos, hk, Int.toNat_natCast, List.append_nil]
  have hall : AllDigits ((digits ++ List.replicate k '0') ++ []) := by
    rw [List.append_nil]
    exact hlong.allDigits
  have hne : (digits ++ List.replicate k '0') ++ [] ≠ [] := by
    rw [List.append_nil]
    exact hlong.ne_nil
  have hstripped : stripZeros ((digits ++ List.replicate k '0') ++ []) =
      digits ++ List.replicate k '0' := by
    rw [List.append_nil, hlong.stripZeros_eq]
  by_cases hfits : digits.length + k ≤ byteWidth.format.maxDigits
  · have hcount : (digits ++ List.replicate k '0').length ≤ byteWidth.format.maxDigits := by
      rw [List.length_append, List.length_replicate]
      exact hfits
    have hbias : byteWidth.format.bias < byteWidth.format.exponents := by omega
    have hfit : fitDigits byteWidth.format.maxDigits
        (stripZeros ((digits ++ List.replicate k '0') ++ [])) (.int (-(([] : Text).length : Int))) =
        (digits ++ List.replicate k '0',
          .int (byteWidth.format.bias - byteWidth.format.bias)) := by
      rw [hstripped, Int.sub_self]
      exact fitDigits_of_short hcount _
    obtain ⟨bytes, hbytes, hdecoded⟩ := @encodes_plain byteWidth neg _ [] [] _ _ hall hne .whole
      (by decide) hfit hlong hcount hbias
    rw [hwritten]
    refine ⟨bytes, hbytes, ?_⟩
    rw [hdecoded, Int.sub_self, format_of_ne_zero hplain, if_pos le_rfl, Int.toNat_zero,
      List.replicate_zero]
  · obtain ⟨left, hleft⟩ : ∃ left, left = digits.length + k - byteWidth.format.maxDigits := ⟨_, rfl⟩
    obtain ⟨hkept, hplain'⟩ := hdigits.zeros hzero (byteWidth.format.maxDigits - digits.length)
    have hexponent : ((byteWidth.format.bias + left : Nat) : Int) - byteWidth.format.bias = left := by
      omega
    have hfit : fitDigits byteWidth.format.maxDigits
        (stripZeros ((digits ++ List.replicate k '0') ++ [])) (.int (-(([] : Text).length : Int))) =
        (digits ++ List.replicate (byteWidth.format.maxDigits - digits.length) '0',
          .int ((byteWidth.format.bias + left : Nat) - byteWidth.format.bias)) := by
      rw [hstripped, hexponent, hleft]
      exact fitDigits_zeros hdigits hzero hlen (by omega) (by omega)
    have hcount : (digits ++ List.replicate (byteWidth.format.maxDigits - digits.length) '0').length ≤
        byteWidth.format.maxDigits := by
      rw [List.length_append, List.length_replicate]
      omega
    obtain ⟨bytes, hbytes, hdecoded⟩ := @encodes_plain byteWidth neg _ [] [] _ _ hall hne .whole
      (by decide) hfit hkept hcount (by omega)
    have hzeros : byteWidth.format.maxDigits - digits.length + left = k := by omega
    rw [hwritten]
    refine ⟨bytes, hbytes, ?_⟩
    rw [hdecoded, hexponent, format_of_ne_zero hplain', if_pos (Int.natCast_nonneg left),
      Int.toNat_natCast, List.append_assoc, ← List.replicate_add, hzeros, List.append_nil]

/-- A point among the digits or in front of them leaves the coefficient and the exponent. -/
theorem encodes_fraction (hdigits : Coefficient digits) (hzero : digits ≠ ['0'])
    (hlen : digits.length ≤ byteWidth.format.maxDigits)
    (hbiased : biased < byteWidth.format.exponents)
    (hneg : ¬ 0 ≤ (biased : Int) - byteWidth.format.bias) :
    ∃ bytes, encodeDecFloat (format neg digits (biased - byteWidth.format.bias)) byteWidth =
        .ok bytes ∧
      decodeDecFloat bytes = format neg digits (biased - byteWidth.format.bias) := by
  have hbias : byteWidth.format.bias ≤ 6176 := by cases byteWidth <;> decide
  obtain ⟨whole, fraction, hwritten, hall, hstripped, hfraction⟩ : ∃ whole fraction,
      format neg digits (biased - byteWidth.format.bias) =
        (if neg then ['-'] else []) ++ (whole ++ '.' :: fraction) ∧
      AllDigits (whole ++ fraction) ∧ stripZeros (whole ++ fraction) = digits ∧
      (fraction.length : Int) = byteWidth.format.bias - biased := by
    by_cases hpoint : 0 < (digits.length : Int) + ((biased : Int) - byteWidth.format.bias)
    · refine ⟨digits.take (digits.length + ((biased : Int) - byteWidth.format.bias)).toNat,
        digits.drop (digits.length + ((biased : Int) - byteWidth.format.bias)).toNat, ?_, ?_, ?_, ?_⟩
      · rw [format_of_ne_zero hzero, if_neg hneg, if_pos hpoint]
      · rw [List.take_append_drop]
        exact hdigits.allDigits
      · rw [List.take_append_drop, hdigits.stripZeros_eq]
      · rw [List.length_drop]
        omega
    · refine ⟨['0'], List.replicate
        (-(digits.length + ((biased : Int) - byteWidth.format.bias))).toNat '0' ++ digits, ?_, ?_, ?_, ?_⟩
      · rw [format_of_ne_zero hzero, if_neg hneg, if_neg hpoint]
        rfl
      · exact (allDigits_zeros 1).append ((allDigits_zeros _).append hdigits.allDigits)
      · have hjoin : ['0'] ++ (List.replicate
            (-(digits.length + ((biased : Int) - byteWidth.format.bias))).toNat '0' ++ digits) =
            List.replicate ((-(digits.length + ((biased : Int) - byteWidth.format.bias))).toNat + 1)
              '0' ++ digits := rfl
        rw [hjoin, stripZeros_zeros _ hdigits.allDigits hdigits.ne_nil, hdigits.stripZeros_eq]
      · rw [List.length_append, List.length_replicate]
        omega
  have hne : whole ++ fraction ≠ [] := by
    intro hnil
    rw [hnil] at hstripped
    exact hdigits.ne_nil hstripped.symm
  have hexponent : -(fraction.length : Int) = biased - byteWidth.format.bias := by omega
  have hfit : fitDigits byteWidth.format.maxDigits (stripZeros (whole ++ fraction))
      (.int (-(fraction.length : Int))) = (digits, .int (biased - byteWidth.format.bias)) := by
    rw [hstripped, hexponent]
    exact fitDigits_of_short hlen _
  obtain ⟨bytes, hbytes, hdecoded⟩ := @encodes_plain byteWidth neg whole fraction _ digits biased hall
    hne (.point _) (by omega) hfit hdigits hlen hbiased
  rw [← hwritten] at hbytes
  exact ⟨bytes, hbytes, hdecoded⟩

/-- What is written for a coefficient and an exponent is read as the same number, or one that is
written the same. -/
theorem encodes_format (hdigits : Coefficient digits)
    (hlen : digits.length ≤ byteWidth.format.maxDigits)
    (hbiased : biased < byteWidth.format.exponents) :
    ∃ bytes, encodeDecFloat (format neg digits (biased - byteWidth.format.bias)) byteWidth =
        .ok bytes ∧
      decodeDecFloat bytes = format neg digits (biased - byteWidth.format.bias) := by
  have hbias : byteWidth.format.bias < byteWidth.format.exponents := by cases byteWidth <;> decide
  have hsmall : byteWidth.format.exponents ≤ 3 * 2 ^ 12 := by cases byteWidth <;> decide
  have hprecision : byteWidth.format.maxDigits ≤ 34 := by cases byteWidth <;> decide
  by_cases hzero : digits = ['0']
  · -- a zero loses its exponent
    have hwritten : format neg digits (biased - byteWidth.format.bias) =
        format neg ['0'] (byteWidth.format.bias - byteWidth.format.bias) := by
      rw [hzero]
      rfl
    have hfit : fitDigits byteWidth.format.maxDigits (stripZeros (['0'] ++ []))
        (.int (-(([] : Text).length : Int))) =
        (['0'], .int (byteWidth.format.bias - byteWidth.format.bias)) := by
      rw [Int.sub_self]
      exact fitDigits_of_short byteWidth.format.maxDigits_pos _
    rw [hwritten]
    exact @encodes_plain byteWidth neg ['0'] [] [] ['0'] byteWidth.format.bias (allDigits_zeros 1)
      (List.cons_ne_nil _ _) .whole (by decide) hfit ⟨allDigits_zeros 1, '0', [], rfl, .inr rfl⟩
      byteWidth.format.maxDigits_pos hbias
  · by_cases hpos : 0 ≤ (biased : Int) - byteWidth.format.bias
    · exact encodes_whole hdigits hzero hlen hbiased hpos
    · exact encodes_fraction hdigits hzero hlen hbiased hpos

end Formatted

/-- Whatever bytes are read, writing the text back changes nothing that can be read. -/
theorem decFloat_round_trip (byteWidth : ByteWidth) (buf : List UInt8)
    (h : buf.length = byteWidth.toNat) :
    ∃ bytes, encodeDecFloat (decodeDecFloat buf) byteWidth = .ok bytes ∧
      decodeDecFloat bytes = decodeDecFloat buf := by
  have hdecoded := decodeDecFloat_decoded h
  generalize decodeDecFloat buf = text at *
  cases hdecoded with
  | infinite neg =>
    have hencode : encodeDecFloat (infinityName neg) byteWidth =
        .ok (specialDecFloat neg 0b11110 byteWidth) := by
      cases byteWidth <;> cases neg <;> decide +kernel
    exact ⟨_, hencode, (decodeDecFloat_special byteWidth).1 neg⟩
  | nan =>
    have hencode : encodeDecFloat nanName byteWidth =
        .ok (specialDecFloat false 0b11111 byteWidth) := by
      cases byteWidth <;> decide +kernel
    exact ⟨_, hencode, (decodeDecFloat_special byteWidth).2⟩
  | finite neg hdigits hlen hbiased => exact encodes_format hdigits hlen hbiased

theorem decFloat_round_trip_one : ∃ bytes,
    encodeDecFloat (decodeDecFloat [0xC7, 0x84, 0, 0, 0, 0, 0, 0x10]) .w8 = .ok bytes ∧
      decodeDecFloat bytes = decodeDecFloat [0xC7, 0x84, 0, 0, 0, 0, 0, 0x10] :=
  decFloat_round_trip .w8 [0xC7, 0x84, 0, 0, 0, 0, 0, 0x10] rfl

example : decodeDecFloat [0xA2, 0x24, 0, 0, 0, 0, 0, 0x10] = "-0.00010".toList := by decide +kernel

end FastFirebird
