import FastFirebird.DecFloatBits
import FastFirebird.DecFloatExponent
import Mathlib.Data.Bool.AllAny

/-! When a text encodes as the decimal float it means. -/
namespace FastFirebird

/-! What the spec says of a text -/

/-- An infinity by one of its names. -/
def InfinityWritten (neg : Bool) (value : Text) : Prop :=
  ∃ sign name, Padded value (sign ++ name) ∧ SignPart neg sign ∧
    (name.map Char.toLower = "inf".toList ∨ name.map Char.toLower = "infinity".toList)

def NanWritten (value : Text) : Prop :=
  ∃ neg sign name, Padded value (sign ++ name) ∧ SignPart neg sign ∧
    name.map Char.toLower = "nan".toList

namespace Numeral

/-- What the literal is worth, rounded half up to `p` digits. -/
def rounded (p : Nat) (n : Numeral) : ℚ := signed n.negative (n.scaled.halfUp p).value

/-- The exponent the rounded literal has in the format. -/
def biased (fmt : DecimalFormat) (n : Numeral) : Int :=
  (n.scaled.round fmt.maxDigits).exponent + fmt.bias

end Numeral

/-- How many exponents a format has. The fourth quarter of them codes the special values. -/
def DecimalFormat.exponents (fmt : DecimalFormat) : Nat := 3 * 2 ^ fmt.expContBits

/-- What `encodeDecFloat` may do with a text. -/
structure EncodesSoundly (byteWidth : ByteWidth) (value : Text) : Prop where
  infinite : ∀ neg bytes, InfinityWritten neg value → encodeDecFloat value byteWidth = .ok bytes →
    decodeDecFloat bytes = infinityName neg
  nan : ∀ bytes, NanWritten value → encodeDecFloat value byteWidth = .ok bytes →
    decodeDecFloat bytes = nanName
  literal : ∀ n bytes, Written n value → encodeDecFloat value byteWidth = .ok bytes →
    0 ≤ n.biased byteWidth.format ∧ n.biased byteWidth.format < byteWidth.format.exponents ∧
      Denotes (decodeDecFloat bytes) (n.rounded byteWidth.format.maxDigits)
  other : (∀ neg, ¬ InfinityWritten neg value) → ¬ NanWritten value → (∀ n, ¬ Written n value) →
    ∃ e, encodeDecFloat value byteWidth = .error e

/-- The check refuses the exponent: it is negative, or too large for its field even after it has
wrapped. -/
def Refused (fmt : DecimalFormat) (biasedExp : Number) : Prop :=
  biasedExp.isNegative = true ∨ 4 * 2 ^ fmt.expContBits ≤ biasedExp.toInt32.toInt

/-- A special name; no number in front of the exponent; a literal below the exponents that code
special values; or an exponent, whatever `parseInt` makes of it, that the check refuses. -/
def SoundlyEncodable (byteWidth : ByteWidth) (value : Text) : Prop :=
  (∃ neg, InfinityWritten neg value) ∨ NanWritten value ∨
    (∃ e, parseDecimal value = .error e) ∨
    (∃ n, Written n value ∧ n.biased byteWidth.format < byteWidth.format.exponents) ∨
    ∃ d, parseDecimal value = .ok d ∧
      Refused byteWidth.format (biasedExponent byteWidth.format d.digits d.exp)

/-! Special names -/

theorem toLower_eq_sign {c s : Char} (hs : s = '+' ∨ s = '-') (h : c.toLower = s) : c = s := by
  by_cases hupper : 65 ≤ c.toNat ∧ c.toNat ≤ 90
  · have hlower := toLower_upper hupper.1 hupper.2
    have hsmall : s.toNat < 48 := by rcases hs with rfl | rfl <;> decide
    rw [h] at hlower
    omega
  · rw [← h, toLower_self hupper]

theorem splitSign_spec (text : Text) :
    ∃ sign, text = sign ++ (splitSign text).2 ∧ SignPart (splitSign text).1 sign := by
  match text with
  | [] => exact ⟨[], rfl, .unsigned⟩
  | c :: rest =>
    by_cases hplus : c = '+'
    · rw [hplus]
      exact ⟨['+'], rfl, .plus⟩
    by_cases hminus : c = '-'
    · rw [hminus]
      exact ⟨['-'], rfl, .minus⟩
    rw [splitSign_unsigned hplus hminus]
    exact ⟨[], rfl, .unsigned⟩

theorem splitSign_map_toLower (text : Text) :
    splitSign (text.map Char.toLower) =
      ((splitSign text).1, (splitSign text).2.map Char.toLower) := by
  match text with
  | [] => rfl
  | c :: rest =>
    by_cases hplus : c = '+'
    · rw [hplus]
      rfl
    by_cases hminus : c = '-'
    · rw [hminus]
      rfl
    have hplus' : c.toLower ≠ '+' := fun h => hplus (toLower_eq_sign (.inl rfl) h)
    have hminus' : c.toLower ≠ '-' := fun h => hminus (toLower_eq_sign (.inr rfl) h)
    rw [splitSign_unsigned hplus hminus, List.map_cons, splitSign_unsigned hplus' hminus']

theorem head_of_splitSign (text : Text) :
    text.head? = some '-' ↔ (splitSign text).1 = true := by
  match text with
  | [] => exact ⟨fun h => (nomatch h), fun h => absurd h Bool.false_ne_true⟩
  | c :: rest =>
    by_cases hplus : c = '+'
    · rw [hplus]
      exact ⟨fun h => absurd (Option.some.inj h) (by decide),
        fun h => absurd h Bool.false_ne_true⟩
    by_cases hminus : c = '-'
    · rw [hminus]
      exact ⟨fun _ => rfl, fun _ => rfl⟩
    rw [splitSign_unsigned hplus hminus]
    exact ⟨fun h => absurd (Option.some.inj h) hminus, fun h => absurd h Bool.false_ne_true⟩

/-- What `encodeDecFloat` looks for a special name in. -/
def specialText (value : Text) : Text := (trim value).map Char.toLower

theorem solid_of_toLower {name lower : Text} (hname : name.map Char.toLower = lower)
    (hsolid : ∀ c ∈ lower, isSpace c = false) : ∀ c ∈ name, isSpace c = false := by
  intro c hc
  rw [← Bool.not_eq_true]
  intro hspace
  have hmem : c.toLower ∈ lower := by
    rw [← hname]
    exact List.mem_map_of_mem hc
  rw [isSpace_toLower hspace] at hmem
  exact absurd hspace (by rw [hsolid c hmem]; exact Bool.false_ne_true)

theorem SignPart.map_toLower {neg : Bool} {sign : Text} (h : SignPart neg sign) :
    sign.map Char.toLower = sign := by
  cases h <;> rfl

/-- A special name is written when it stands behind the sign. -/
theorem specialName_iff {neg : Bool} {value lower : Text} (hsolid : ∀ c ∈ lower, isSpace c = false)
    (hhead : ∀ c ∈ lower.head?, c ≠ '+' ∧ c ≠ '-') :
    (∃ sign name, Padded value (sign ++ name) ∧ SignPart neg sign ∧
      name.map Char.toLower = lower) ↔ splitSign (specialText value) = (neg, lower) := by
  constructor
  · rintro ⟨sign, name, hpadded, hsign, hname⟩
    have htrim : trim value = sign ++ name := by
      apply trim_padded _ hpadded
      intro c hc
      rcases List.mem_append.mp hc with hc | hc
      · exact (hsign.literalChars c hc).solid
      · exact solid_of_toLower hname hsolid c hc
    rw [specialText, htrim, List.map_append, hsign.map_toLower, hname]
    exact splitSign_spelled hsign hhead
  · intro hsplit
    rw [specialText, splitSign_map_toLower] at hsplit
    obtain ⟨hneg, hname⟩ := Prod.mk.inj hsplit
    obtain ⟨sign, htext, hsign⟩ := splitSign_spec (trim value)
    rw [hneg] at hsign
    refine ⟨sign, (splitSign (trim value)).2, ?_, hsign, hname⟩
    rw [← htext]
    exact padded_trim value

theorem infinityWritten_iff {neg : Bool} {value : Text} :
    InfinityWritten neg value ↔ isInfinityName (specialText value) = true ∧
      (splitSign (specialText value)).1 = neg := by
  have hshort := @specialName_iff neg value "inf".toList (by simp [isSpace]) (by simp)
  have hlong := @specialName_iff neg value "infinity".toList (by simp [isSpace]) (by simp)
  have hor : InfinityWritten neg value ↔ splitSign (specialText value) = (neg, "inf".toList) ∨
      splitSign (specialText value) = (neg, "infinity".toList) := by
    rw [← hshort, ← hlong]
    constructor
    · rintro ⟨sign, name, hpadded, hsign, hname | hname⟩
      · exact .inl ⟨sign, name, hpadded, hsign, hname⟩
      · exact .inr ⟨sign, name, hpadded, hsign, hname⟩
    · rintro (⟨sign, name, hpadded, hsign, hname⟩ | ⟨sign, name, hpadded, hsign, hname⟩)
      · exact ⟨sign, name, hpadded, hsign, .inl hname⟩
      · exact ⟨sign, name, hpadded, hsign, .inr hname⟩
  rw [hor, isInfinityName]
  generalize splitSign (specialText value) = split
  obtain ⟨mark, rest⟩ := split
  simp only [Prod.mk.injEq, Bool.or_eq_true, beq_iff_eq]
  constructor
  · rintro (⟨hmark, hrest⟩ | ⟨hmark, hrest⟩)
    · exact ⟨.inl hrest, hmark⟩
    · exact ⟨.inr hrest, hmark⟩
  · rintro ⟨hrest | hrest, hmark⟩
    · exact .inl ⟨hmark, hrest⟩
    · exact .inr ⟨hmark, hrest⟩

theorem nanWritten_iff {value : Text} :
    NanWritten value ↔ isNanName (specialText value) = true := by
  have hname (neg : Bool) := @specialName_iff neg value "nan".toList (by simp [isSpace]) (by simp)
  simp only [NanWritten, hname, isNanName, beq_iff_eq]
  constructor
  · rintro ⟨neg, hsplit⟩
    rw [hsplit]
  · intro hrest
    exact ⟨_, Prod.ext rfl hrest⟩

/-- All special names have an `n`, and no literal has. -/
theorem Written.not_special {n : Numeral} {value : Text} (h : Written n value) :
    isInfinityName (specialText value) = false ∧ isNanName (specialText value) = false := by
  obtain ⟨text, hpadded, hspelled⟩ := h
  have htrim := trim_padded (fun c hc => (hspelled.chars c hc).solid) hpadded
  have hno : 'n' ∉ (splitSign (specialText value)).2 := by
    rw [specialText, htrim, splitSign_map_toLower]
    intro hmem
    obtain ⟨c, hc, hlower⟩ := List.mem_map.mp hmem
    obtain ⟨sign, htext, -⟩ := splitSign_spec text
    have hchar : c ∈ text := by
      rw [htext]
      exact List.mem_append_right _ hc
    exact (hspelled.chars c hchar).plain hlower
  constructor
  · rw [isInfinityName, Bool.or_eq_false_iff]
    constructor
    · rw [beq_eq_false_iff_ne]
      intro heq
      rw [heq] at hno
      exact hno (by decide)
    · rw [beq_eq_false_iff_ne]
      intro heq
      rw [heq] at hno
      exact hno (by decide)
  · rw [isNanName, beq_eq_false_iff_ne]
    intro heq
    rw [heq] at hno
    exact hno (by decide)

theorem isNanName_of_isInfinityName {special : Text} (h : isInfinityName special = true) :
    isNanName special = false := by
  rw [isInfinityName, Bool.or_eq_true, beq_iff_eq, beq_iff_eq] at h
  rw [isNanName, beq_eq_false_iff_ne]
  rcases h with h | h
  · rw [h]
    decide
  · rw [h]
    decide

/-! The exponent -/

theorem pointShift_facts {fraction point : Text} (h : PointPart fraction point) :
    (pointShift fraction point).sum = -(fraction.length : Int) ∧
      (pointShift fraction point).length ≤ 1 ∧
      ∀ a ∈ pointShift fraction point, a.natAbs ≤ fraction.length := by
  cases h with
  | whole => exact ⟨rfl, by decide, by simp [pointShift]⟩
  | point => exact ⟨by simp [pointShift], by simp [pointShift], by simp [pointShift]⟩

theorem Numeral.Spelled.length_digits {n : Numeral} {text : Text} (h : n.Spelled text) :
    (n.whole ++ n.fraction).length ≤ text.length := by
  obtain ⟨sign, point, exponent, -, hpoint, -, rfl⟩ := h
  have hlen : n.fraction.length ≤ point.length := by
    generalize n.fraction = fraction at hpoint
    cases hpoint with
    | whole => exact le_rfl
    | point => exact Nat.le_succ _
  simp only [List.length_append]
  omega

theorem Written.length_digits {n : Numeral} {value : Text} (h : Written n value) :
    (n.whole ++ n.fraction).length ≤ value.length := by
  obtain ⟨text, ⟨before, after, rfl, -, -⟩, hspelled⟩ := h
  have := hspelled.length_digits
  simp only [List.length_append] at this ⊢
  omega

theorem DecimalFormat.maxDigits_pos (fmt : DecimalFormat) : 0 < fmt.maxDigits := Nat.succ_pos _

/-- The exponent that is computed for a literal is the exact one, if it is not out of reach. -/
theorem biasedExponent_tracks {n : Numeral} {value : Text} (h : Written n value)
    (hlen : value.length ≤ maxStringLength) (byteWidth : ByteWidth) :
    ∃ d, parseDecimal value = .ok d ∧ d.neg = n.negative ∧
      d.digits = stripZeros (n.whole ++ n.fraction) ∧
      ∃ slack ≤ 2 ^ 40, Number.Tracks (biasedExponent byteWidth.format d.digits d.exp)
        (n.biased byteWidth.format) slack := by
  obtain ⟨point, hpoint, hparse⟩ := parseDecimal_written h
  refine ⟨_, hparse, rfl, rfl, ?_⟩
  obtain ⟨hsum, hcount, hshift⟩ := pointShift_facts hpoint
  obtain ⟨steps, hexp, hround, hsteps, htwo, -⟩ := fitDigits_round byteWidth.format.maxDigits_pos
    n.digits n.nonempty ((pointShift n.fraction point).foldl Number.add (.ofInt n.exponent))
    (n.exponent - n.fraction.length)
  have hdigits := h.length_digits
  have hbias : byteWidth.format.bias ≤ 6176 := by cases byteWidth <;> decide
  have hmax : maxStringLength = 536870888 := rfl
  have hfraction : n.fraction.length ≤ (n.whole ++ n.fraction).length := by
    rw [List.length_append]
    omega
  have hall : ∀ a ∈ pointShift n.fraction point ++ (steps ++ [(byteWidth.format.bias : Int)]),
      a.natAbs ≤ 2 ^ 30 := by
    intro a ha
    simp only [List.mem_append, List.mem_singleton] at ha
    rcases ha with ha | ha | rfl
    · have := hshift a ha
      omega
    · have := hsteps a ha
      omega
    · omega
  have hroom : (pointShift n.fraction point ++
      (steps ++ [(byteWidth.format.bias : Int)])).length ≤ 4 := by
    simp only [List.length_append, List.length_singleton]
    omega
  have htracks := (Number.Tracks.ofInt n.exponent).foldl hall (by omega)
  rw [List.foldl_append, List.foldl_append, ← hexp, List.sum_append, List.sum_append, hsum]
    at htracks
  have hexact : n.exponent + (-(n.fraction.length : Int) +
      (steps.sum + [(byteWidth.format.bias : Int)].sum)) = n.biased byteWidth.format := by
    rw [Numeral.biased, Numeral.scaled, hround]
    simp only [List.sum_cons, List.sum_nil]
    omega
  rw [hexact] at htracks
  exact ⟨_, by omega, htracks⟩

/-! Bit operations on the exponent -/

theorem toInt_shiftRight (byteWidth : ByteWidth) (x : Int32) :
    (x >>> Int32.ofNat byteWidth.format.expContBits).toInt =
      x.toInt / 2 ^ byteWidth.format.expContBits := by
  have hamount : (Int32.ofNat byteWidth.format.expContBits).toBitVec.smod 32 =
      BitVec.ofNat 32 byteWidth.format.expContBits := by
    cases byteWidth <;> decide
  have hsmall : (BitVec.ofNat 32 byteWidth.format.expContBits).toNat =
      byteWidth.format.expContBits := by
    cases byteWidth <;> decide
  rw [← Int32.toInt_toBitVec, Int32.toBitVec_shiftRight, hamount, BitVec.sshiftRight', hsmall,
    BitVec.toInt_sshiftRight, Int.shiftRight_eq_div_pow]
  rfl

theorem exponentAccepted_iff {byteWidth : ByteWidth} {x : Number} :
    exponentAccepted byteWidth.format x = false ↔ Refused byteWidth.format x := by
  have hthree : (0b11 : Int32).toInt = 3 := by decide
  have hpos : (0 : Int) < 2 ^ byteWidth.format.expContBits := by positivity
  rw [exponentAccepted, Refused, Bool.not_eq_false', Bool.or_eq_true, decide_eq_true_eq,
    Int32.lt_iff_toInt_lt, hthree, toInt_shiftRight, Int.lt_iff_add_one_le,
    Int.le_ediv_iff_mul_le hpos]
  rfl

section Small
variable {b : Nat} (hb : b < 2 ^ 31)
include hb

theorem toNat_ofInt32 : (Int32.ofInt b).toBitVec.toNat = b := by
  show (BitVec.ofInt 32 b).toNat = b
  rw [BitVec.ofInt_natCast, BitVec.toNat_ofNat, Nat.mod_eq_of_lt]
  omega

theorem toInt_ofInt32 : (Int32.ofInt b).toInt = b := by
  have hnat := toNat_ofInt32 hb
  rw [← Int32.toInt_toBitVec, BitVec.toInt_eq_toNat_of_lt, hnat]
  rw [hnat]
  omega

theorem expMsb_small (byteWidth : ByteWidth) :
    Int32.ofInt b >>> Int32.ofNat byteWidth.format.expContBits =
      Int32.ofNat (b / 2 ^ byteWidth.format.expContBits) := by
  apply Int32.toInt_inj.mp
  have hquot : b / 2 ^ byteWidth.format.expContBits < 2 ^ 31 :=
    Nat.lt_of_le_of_lt (Nat.div_le_self _ _) hb
  have hofNat := toInt_ofInt32 hquot
  rw [toInt_shiftRight, toInt_ofInt32 hb]
  have hcast : Int32.ofInt ((b / 2 ^ byteWidth.format.expContBits : Nat) : Int) =
      Int32.ofNat (b / 2 ^ byteWidth.format.expContBits) := Int32.ofInt_eq_ofNat
  rw [← hcast, hofNat]
  push_cast
  rfl

theorem expCont_small (byteWidth : ByteWidth) :
    (Int32.ofInt b &&& ((1 <<< Int32.ofNat byteWidth.format.expContBits) - 1)).toInt =
      ((b % 2 ^ byteWidth.format.expContBits : Nat) : Int) := by
  have hmask : ((1 : Int32) <<< Int32.ofNat byteWidth.format.expContBits - 1).toBitVec.toNat =
      2 ^ byteWidth.format.expContBits - 1 := by
    cases byteWidth <;> decide
  have hnat : (Int32.ofInt b &&& ((1 <<< Int32.ofNat byteWidth.format.expContBits) -
      1)).toBitVec.toNat = b % 2 ^ byteWidth.format.expContBits := by
    rw [Int32.toBitVec_and, BitVec.toNat_and, toNat_ofInt32 hb, hmask,
      Nat.and_two_pow_sub_one_eq_mod]
  have hle := Nat.mod_le b (2 ^ byteWidth.format.expContBits)
  rw [← Int32.toInt_toBitVec, BitVec.toInt_eq_toNat_of_lt, hnat]
  rw [hnat]
  omega

end Small

/-! Encoding a number -/

theorem exponentAccepted_room {byteWidth : ByteWidth} {b : Nat}
    (hb : b < byteWidth.format.exponents) : exponentAccepted byteWidth.format (.int b) = true := by
  have hbits : byteWidth.format.expContBits ≤ 12 := by cases byteWidth <;> decide
  have hpow : 2 ^ byteWidth.format.expContBits ≤ 2 ^ 12 :=
    Nat.pow_le_pow_right (by decide) hbits
  simp only [DecimalFormat.exponents] at hb
  have hb31 : b < 2 ^ 31 := by omega
  rw [← Bool.not_eq_false, exponentAccepted_iff]
  rintro (hneg | hlarge)
  · simp only [Number.isNegative, decide_eq_true_eq] at hneg
    omega
  · rw [Number.toInt32, toInt_ofInt32 hb31] at hlarge
    have hcast : ((4 * 2 ^ byteWidth.format.expContBits : Nat) : Int) ≤ b := by
      push_cast
      exact hlarge
    omega

/-- The bytes of a number decode to its digits and exponent. -/
theorem decode_encoded {byteWidth : ByteWidth} {value : Text} {bytes : List UInt8}
    {d : ParsedDecimal} {b : Nat} (hinf : isInfinityName (specialText value) = false)
    (hnan : isNanName (specialText value) = false) (hparse : parseDecimal value = .ok d)
    (hexp : biasedExponent byteWidth.format d.digits d.exp = .int b)
    (hb : b < byteWidth.format.exponents)
    (hdigits : AllDigits (fitDigits byteWidth.format.maxDigits d.digits d.exp).1)
    (hfit : (fitDigits byteWidth.format.maxDigits d.digits d.exp).1.length ≤
      byteWidth.format.maxDigits)
    (h : encodeDecFloat value byteWidth = .ok bytes) :
    decodeDecFloat bytes = format d.neg (stripZeros (padStart byteWidth.format.maxDigits '0'
      (fitDigits byteWidth.format.maxDigits d.digits d.exp).1)) (b - byteWidth.format.bias) := by
  have hbits : byteWidth.format.expContBits ≤ 12 := by cases byteWidth <;> decide
  have hpow : 2 ^ byteWidth.format.expContBits ≤ 2 ^ 12 :=
    Nat.pow_le_pow_right (by decide) hbits
  have hb31 : b < 2 ^ 31 := by
    simp only [DecimalFormat.exponents] at hb
    omega
  have haccepted := exponentAccepted_room hb
  obtain ⟨neg, digits, exp⟩ := d
  simp only [specialText] at hinf hnan
  simp only [encodeDecFloat, hinf, hnan, hparse, Bool.false_eq_true, if_false] at h
  dsimp only at hexp hfit
  rw [hexp, if_pos haccepted, Number.toInt32, expMsb_small hb31, expCont_small hb31] at h
  injection h with h
  rw [← h]
  apply decodeDecFloat_packed
  · exact (allDigits_zeros _).append hdigits
  · rw [padStart, List.length_append, List.length_replicate]
    omega
  · exact hb

/-- An encoded literal whose exponent has room decodes to what it is worth, rounded. -/
theorem literal_denotes {byteWidth : ByteWidth} {n : Numeral} {value : Text} {bytes : List UInt8}
    (hwritten : Written n value) (hlen : value.length ≤ maxStringLength)
    (hnonneg : 0 ≤ n.biased byteWidth.format)
    (hroom : n.biased byteWidth.format < byteWidth.format.exponents)
    (h : encodeDecFloat value byteWidth = .ok bytes) :
    Denotes (decodeDecFloat bytes) (n.rounded byteWidth.format.maxDigits) := by
  obtain ⟨d, hparse, hneg, hdigits, slack, hslack, htracks⟩ :=
    biasedExponent_tracks hwritten hlen byteWidth
  obtain ⟨hinf, hnan⟩ := hwritten.not_special
  have hp := byteWidth.format.maxDigits_pos
  have hsmall : byteWidth.format.exponents ≤ 3 * 2 ^ 12 := by cases byteWidth <;> decide
  obtain ⟨b, hb⟩ := Int.eq_ofNat_of_zero_le hnonneg
  have hexact : biasedExponent byteWidth.format d.digits d.exp = .int b := by
    rw [← hb]
    exact htracks.small hslack (by omega)
  obtain ⟨steps, -, hround, -, -, hall, hfit, hvalue⟩ := fitDigits_round hp n.digits n.nonempty
    d.exp (n.exponent - n.fraction.length)
  rw [← hdigits] at hall hfit hvalue
  have hdecoded := decode_encoded hinf hnan hparse hexact (by omega) hall hfit h
  -- the zeros that are put in front go again
  have hpadded : AllDigits (padStart byteWidth.format.maxDigits '0'
      (fitDigits byteWidth.format.maxDigits d.digits d.exp).1) :=
    (allDigits_zeros _).append hall
  have hne : padStart byteWidth.format.maxDigits '0'
      (fitDigits byteWidth.format.maxDigits d.digits d.exp).1 ≠ [] := by
    apply List.ne_nil_of_length_pos
    rw [padStart, List.length_append, List.length_replicate]
    omega
  obtain ⟨hstripped, hsame, c, rest, hform, -⟩ := stripZeros_facts hpadded hne
  have hdenotes := format_denotes d.neg ((b : Int) - byteWidth.format.bias) hstripped
    (by rw [hform]; exact List.cons_ne_nil c rest)
  have hcoefficient : decimalValue (padStart byteWidth.format.maxDigits '0'
      (fitDigits byteWidth.format.maxDigits d.digits d.exp).1) =
      (n.scaled.round byteWidth.format.maxDigits).coefficient := by
    rw [padStart, decimalValue_zeros, hvalue]
    rfl
  have hexponent : (b : Int) - byteWidth.format.bias =
      (n.scaled.round byteWidth.format.maxDigits).exponent := by
    have hbiased : n.biased byteWidth.format = b := hb
    rw [Numeral.biased] at hbiased
    omega
  rw [hsame, hcoefficient, hexponent, hneg] at hdenotes
  rw [hdecoded, Numeral.rounded, ← Scaled.value_round hp, hexponent, hneg]
  exact hdenotes

/-! Throwing -/

theorem encodeDecFloat_error {byteWidth : ByteWidth} {value : Text} {e : Text}
    (hinf : isInfinityName (specialText value) = false)
    (hnan : isNanName (specialText value) = false) (hparse : parseDecimal value = .error e) :
    encodeDecFloat value byteWidth = .error e := by
  simp only [specialText] at hinf hnan
  simp [encodeDecFloat, hinf, hnan, hparse]

/-- Past the parser, it throws exactly what the check refuses. -/
theorem encodeDecFloat_throws_iff {byteWidth : ByteWidth} {value : Text} {d : ParsedDecimal}
    (hinf : isInfinityName (specialText value) = false)
    (hnan : isNanName (specialText value) = false) (hparse : parseDecimal value = .ok d) :
    (∃ e, encodeDecFloat value byteWidth = .error e) ↔
      Refused byteWidth.format (biasedExponent byteWidth.format d.digits d.exp) := by
  obtain ⟨neg, digits, exp⟩ := d
  simp only [specialText] at hinf hnan
  rw [← exponentAccepted_iff]
  simp only [encodeDecFloat, hinf, hnan, hparse, Bool.false_eq_true, if_false]
  split
  · rename_i haccepted
    rw [haccepted]
    simp
  · rename_i hrefused
    simpa using hrefused

theorem EncodesSoundly.of_throws {byteWidth : ByteWidth} {value : Text}
    (h : ∃ e, encodeDecFloat value byteWidth = .error e) : EncodesSoundly byteWidth value := by
  obtain ⟨e, he⟩ := h
  have hnone (bytes : List UInt8) : encodeDecFloat value byteWidth ≠ .ok bytes := by
    rw [he]
    exact fun heq => nomatch heq
  exact ⟨fun _ bytes _ h => absurd h (hnone bytes), fun bytes _ h => absurd h (hnone bytes),
    fun _ bytes _ h => absurd h (hnone bytes), fun _ _ _ => ⟨e, he⟩⟩

theorem infinity_sound {byteWidth : ByteWidth} {value : Text} {neg : Bool} {bytes : List UInt8}
    (hwritten : InfinityWritten neg value) (h : encodeDecFloat value byteWidth = .ok bytes) :
    decodeDecFloat bytes = infinityName neg := by
  obtain ⟨hname, hsign⟩ := infinityWritten_iff.mp hwritten
  have hhead := head_of_splitSign (specialText value)
  simp only [specialText] at hname hsign hhead
  simp only [encodeDecFloat, hname, if_true] at h
  injection h with h
  rw [hsign] at hhead
  have hneg : decide ((List.map Char.toLower (trim value)).head? = some '-') = neg := by
    cases neg
    · exact decide_eq_false fun hminus => absurd (hhead.mp hminus) Bool.false_ne_true
    · exact decide_eq_true (hhead.mpr rfl)
  rw [← h]
  simp only [hneg]
  exact (decodeDecFloat_special byteWidth).1 neg

theorem nan_sound {byteWidth : ByteWidth} {value : Text} {bytes : List UInt8}
    (hwritten : NanWritten value) (h : encodeDecFloat value byteWidth = .ok bytes) :
    decodeDecFloat bytes = nanName := by
  have hname := nanWritten_iff.mp hwritten
  have hinf : isInfinityName (specialText value) = false := by
    rw [← Bool.not_eq_true]
    intro hinf
    rw [isNanName_of_isInfinityName hinf] at hname
    exact absurd hname Bool.false_ne_true
  simp only [specialText] at hname hinf
  simp only [encodeDecFloat, hinf, hname, if_true, Bool.false_eq_true, if_false] at h
  injection h with h
  rw [← h]
  exact (decodeDecFloat_special byteWidth).2

/-- All spellings of a text whose exponent has room are encoded as what they are worth. -/
theorem literals_sound {byteWidth : ByteWidth} {n m : Numeral} {value : Text} {bytes : List UInt8}
    (hlen : value.length ≤ maxStringLength) (hn : Written n value)
    (hroom : n.biased byteWidth.format < byteWidth.format.exponents) (hm : Written m value)
    (h : encodeDecFloat value byteWidth = .ok bytes) :
    0 ≤ m.biased byteWidth.format ∧ m.biased byteWidth.format < byteWidth.format.exponents ∧
      Denotes (decodeDecFloat bytes) (m.rounded byteWidth.format.maxDigits) := by
  obtain ⟨hinf, hnan⟩ := hn.not_special
  have hsmall : byteWidth.format.exponents ≤ 3 * 2 ^ 12 := by cases byteWidth <;> decide
  obtain ⟨d, hparse, -, -, slack, hslack, htracks⟩ := biasedExponent_tracks hn hlen byteWidth
  obtain ⟨d', hparse', -, -, slack', hslack', htracks'⟩ :=
    biasedExponent_tracks hm hlen byteWidth
  have hd : d' = d := by
    rw [hparse] at hparse'
    exact (Except.ok.inj hparse').symm
  rw [hd] at htracks'
  have hkept : ¬ Refused byteWidth.format (biasedExponent byteWidth.format d.digits d.exp) := by
    intro hrefused
    obtain ⟨e, he⟩ := (encodeDecFloat_throws_iff hinf hnan hparse).mpr hrefused
    rw [he] at h
    cases h
  -- a negative exponent would have been refused
  have hnonneg : 0 ≤ n.biased byteWidth.format := by
    apply Int.not_lt.mp
    intro hneg
    exact hkept (.inl (htracks.negative hslack hneg))
  have hsame : n.biased byteWidth.format = m.biased byteWidth.format := by
    have hexact := htracks.small hslack (by omega)
    exact htracks'.exact hslack' hexact (by omega)
  refine ⟨by omega, by omega, ?_⟩
  exact literal_denotes hm hlen (by omega) (by omega) h

/-- Decimal floats encode soundly exactly when their exponent is one, and stays below those that
code special values. -/
theorem encodeDecFloat_sound_iff (value : JsString) (byteWidth : ByteWidth) :
    EncodesSoundly byteWidth value.text ↔ SoundlyEncodable byteWidth value.text := by
  obtain ⟨value, hlen⟩ := value
  show EncodesSoundly byteWidth value ↔ SoundlyEncodable byteWidth value
  cases hinf : isInfinityName (specialText value) with
  | true =>
    have hwritten := infinityWritten_iff.mpr ⟨hinf, rfl⟩
    constructor
    · intro _
      exact .inl ⟨_, hwritten⟩
    · intro _
      refine ⟨fun _ _ hw h => infinity_sound hw h, fun _ hw h => nan_sound hw h, ?_, ?_⟩
      · intro n bytes hn _
        rw [hn.not_special.1] at hinf
        exact absurd hinf Bool.false_ne_true
      · intro hnone _ _
        exact absurd hwritten (hnone _)
  | false =>
  cases hnan : isNanName (specialText value) with
  | true =>
    have hwritten := nanWritten_iff.mpr hnan
    constructor
    · intro _
      exact .inr (.inl hwritten)
    · intro _
      refine ⟨fun _ _ hw h => infinity_sound hw h, fun _ hw h => nan_sound hw h, ?_, ?_⟩
      · intro n bytes hn _
        rw [hn.not_special.2] at hnan
        exact absurd hnan Bool.false_ne_true
      · intro _ hnone _
        exact absurd hwritten hnone
  | false =>
  have hnotInf (neg : Bool) : ¬ InfinityWritten neg value := by
    rw [infinityWritten_iff, hinf]
    exact fun h => Bool.false_ne_true h.1
  have hnotNan : ¬ NanWritten value := by
    rw [nanWritten_iff, hnan]
    exact Bool.false_ne_true
  cases hparse : parseDecimal value with
  | error e =>
    constructor
    · intro _
      exact .inr (.inr (.inl ⟨e, hparse⟩))
    · intro _
      exact .of_throws ⟨e, encodeDecFloat_error hinf hnan hparse⟩
  | ok d =>
  have hthrows := @encodeDecFloat_throws_iff byteWidth value d hinf hnan hparse
  constructor
  · intro hsound
    by_cases hrefused : Refused byteWidth.format (biasedExponent byteWidth.format d.digits d.exp)
    · exact .inr (.inr (.inr (.inr ⟨d, hparse, hrefused⟩)))
    · -- it does not throw, so that it must be a literal
      by_cases hliteral : ∃ n, Written n value
      · obtain ⟨n, hn⟩ := hliteral
        cases hencoded : encodeDecFloat value byteWidth with
        | error e => exact absurd (hthrows.mp ⟨e, hencoded⟩) hrefused
        | ok bytes =>
          have hroom := (hsound.literal n bytes hn hencoded).2.1
          exact .inr (.inr (.inr (.inl ⟨n, hn, hroom⟩)))
      · have hthrown := hsound.other hnotInf hnotNan fun n hn => hliteral ⟨n, hn⟩
        exact absurd (hthrows.mp hthrown) hrefused
  · rintro (⟨neg, h⟩ | h | ⟨e, h⟩ | ⟨n, hn, hroom⟩ | ⟨d', h, hrefused⟩)
    · exact absurd h (hnotInf neg)
    · exact absurd h hnotNan
    · rw [hparse] at h
      cases h
    · refine ⟨fun _ _ hw h => infinity_sound hw h, fun _ hw h => nan_sound hw h, ?_, ?_⟩
      · intro m bytes hm h
        exact literals_sound hlen hn hroom hm h
      · intro _ _ hnone
        exact absurd hn (hnone n)
    · rw [hparse] at h
      cases h
      exact .of_throws (hthrows.mpr hrefused)

/-- `1E370` is past the last exponent of eight bytes, and is encoded all the same. -/
theorem exponent_past_the_last_encoded : ¬ EncodesSoundly .w8 "1E370".toList := by
  intro hsound
  have hexponent : AllDigits "370".toList := List.all_iff_forall_prop.mp (by decide)
  have hwritten : Written
      ⟨false, ['1'], [], 370, List.forall_mem_singleton.mpr (by decide), by decide⟩ "1E370".toList :=
    ⟨"1E370".toList, ⟨[], [], rfl, by simp, by simp⟩, [], [], "E370".toList, .unsigned, .whole,
      @ExponentPart.scaled 'E' false [] "370".toList (.inr rfl) .unsigned hexponent (by decide), rfl⟩
  have hok : (encodeDecFloat "1E370".toList .w8).isOk = true := by decide +kernel
  cases hencoded : encodeDecFloat "1E370".toList .w8 with
  | error e =>
    rw [hencoded] at hok
    exact absurd hok Bool.false_ne_true
  | ok bytes =>
    have hroom := (hsound.literal _ bytes hwritten hencoded).2.1
    exact absurd hroom (by decide +kernel)

end FastFirebird
