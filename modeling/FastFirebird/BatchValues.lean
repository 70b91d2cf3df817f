import FastFirebird.BatchMessage
import FastFirebird.BoundValues
import FastFirebird.ScaledNumbers

/-! What the values of a row stand for in their columns, told without their writers, and when the
writers keep it. -/
namespace FastFirebird.Msgcodec.BatchMessage

/-! Numbers -/

/-- What a finite double is. -/
def Double.value (v : Double) : ℚ :=
  let bits : Nat := v.bits.toNat
  let exponent : Nat := bits >>> 52 % 2048
  let fraction : Nat := bits % 2 ^ 52
  let significand : Nat := if exponent = 0 then fraction else fraction + 2 ^ 52
  let scale : Nat := if exponent = 0 then 1 else exponent
  (if bits >>> 63 = 1 then -1 else 1) * significand * 2 ^ ((scale : ℤ) - 1075)

theorem Double.value_integer {v : Double} {n : Int} (h : v.integer = some n) :
    Double.value v = n := by
  unfold Double.integer at h
  unfold Double.value
  dsimp only at h ⊢
  generalize (if v.bits.toNat >>> 52 % 2048 = 0 then v.bits.toNat % 2 ^ 52
    else v.bits.toNat % 2 ^ 52 + 2 ^ 52) = significand at h ⊢
  generalize (if v.bits.toNat >>> 52 % 2048 = 0 then 1 else v.bits.toNat >>> 52 % 2048) = scale
    at h ⊢
  obtain ⟨i, hi, rfl⟩ := Option.map_eq_some_iff.mp h
  obtain ⟨m, hm, hcast⟩ := Option.bind_eq_some_iff.mp hi
  obtain rfl : (m : Int) = i := Option.some.inj hcast
  have hmagnitude : (significand : ℚ) * 2 ^ ((scale : ℤ) - 1075) = m := by
    split at hm
    · cases hm
    · split at hm
      · rename_i hlarge
        obtain ⟨k, rfl⟩ := Nat.exists_eq_add_of_le hlarge
        have hexp : ((1075 + k : Nat) : ℤ) - 1075 = k := by
          push_cast
          ring
        rw [← Option.some.inj hm, hexp, zpow_natCast, Nat.shiftLeft_eq, Nat.add_sub_cancel_left]
        push_cast
        rfl
      · split at hm
        · rename_i hsmall hdvd
          obtain ⟨k, hk⟩ : ∃ k, 1075 = scale + k := ⟨1075 - scale, by omega⟩
          have hexp : (scale : ℤ) - 1075 = -(k : ℤ) := by omega
          have hsub : 1075 - scale = k := by omega
          rw [hsub] at hm hdvd
          have hwhole : m * 2 ^ k = significand := by
            rw [← Option.some.inj hm, Nat.shiftRight_eq_div_pow]
            exact Nat.div_mul_cancel (Nat.dvd_of_mod_eq_zero hdvd)
          rw [hexp, zpow_neg, zpow_natCast, ← hwhole]
          push_cast
          field_simp
        · cases hm
  rw [mul_assoc, hmagnitude]
  split
  · push_cast
    ring
  · push_cast
    ring

/-- The number that a value is in an exact column. -/
inductive ExactValue : ParamValue → ℚ → Prop where
  | number (x : Double) (h : x.isFinite = true) : ExactValue (.number x) (Double.value x)
  | bigint (n : Int) : ExactValue (.bigint n) n
  | text {text : Text} {n : Numeral} (h : n.Spelled (trim text)) :
    ExactValue (.string text) n.value

/-- What is not whole, or not safe, is scaled by its text; that has to say the same. -/
def KeptByText (host : BatchHost) (x : Double) (scale : Int) : Prop :=
  (∃ n ∈ x.integer, SafeInteger n) ∨ ∃ n : Numeral, n.Spelled (trim (jsString host x)) ∧
    roundHalfAway (n.value * 10 ^ (-scale)) = roundHalfAway (Double.value x * 10 ^ (-scale))

/-! Values -/

variable (host : MessageHost) (client : Zone)

/-- The bytes that a value is in a text column. -/
inductive TextValue (i : Nat) : ParamValue → Bytes → Prop where
  | string {text : Text} {bytes : Bytes} (h : host.encodeText i text = .ok bytes) :
    TextValue i (.string text) bytes
  | buffer (bytes : Bytes) : TextValue i (.buffer bytes) bytes
  | number (x : Double) : TextValue i (.number x) (latin1 (jsString host.toBatchHost x))
  | bigint (n : Int) : TextValue i (.bigint n) (latin1 (toString n).toList)
  | boolean (b : Bool) : TextValue i (.boolean b) (latin1 (toString b).toList)

/-- The number that a value is in a floating-point column; a blank text is none. -/
inductive FloatValue : ParamValue → Double → Prop where
  | number (x : Double) : FloatValue (.number x) x
  | bigint (n : Int) : FloatValue (.bigint n) (host.ofBigint n)
  | string {text : Text} (h : trim text ≠ []) : FloatValue (.string text) (host.ofText text)

/-- The instant that a value is in a column with a time zone, and its zone. -/
inductive ZonedValue : ParamValue → Int → Number → Prop where
  | zoned {date : JsDate} {zone : Text} {t : Int} {tzId : Number} (ht : date.time = some t)
      (hzone : zoneToTzId host.toEncodeHost zone = .ok tzId) :
    ZonedValue (.zonedDate date zone) t tzId
  | utc {date : JsDate} {t : Int} (ht : date.time = some t) :
    ZonedValue (.date date) t (.int TZ_ID_UTC_OFFSET)

def BatchCase.IsExact (c : BatchCase) : Prop := c = .long ∨ c = .int64 ∨ c = .int128

/-- What a value is in a column of the case. Days are counted from the 17th of November 1858, and a
day has ten fractions for each millisecond; dates without a zone are those of the client's clock. -/
inductive CellValue (i : Nat) (d : SqlVarDesc) : BatchCase → ParamValue → RowValue → Prop where
  | text {v : ParamValue} {bytes : Bytes} (h : TextValue host i v bytes) :
    CellValue i d .text v (.text bytes)
  | exact {c : BatchCase} {v : ParamValue} {x : ℚ} (hc : c.IsExact) (h : ExactValue v x) :
    CellValue i d c v (.exact (roundHalfAway (x * 10 ^ (-d.scale))) d.scale)
  | float {v : ParamValue} {x : Double} (h : FloatValue host v x) :
    CellValue i d .float v (.float (host.floatBits x))
  | double {v : ParamValue} {x : Double} (h : FloatValue host v x) :
    CellValue i d .double v (.double x)
  | timestamp {date : JsDate} {t : Int} (ht : date.time = some t) :
    CellValue i d .timestamp (.date date) (.timestamp (client.wall t / 86400000 + 40587)
      ((client.wall t % 86400000).toNat * 10))
  | timestamp_tz {v : ParamValue} {t : Int} {tzId : Number} (h : ZonedValue host v t tzId) :
    CellValue i d .timestamp_tz v
      (.timestamp_tz (t / 86400000 + 40587) ((t % 86400000).toNat * 10) tzId)
  | time_tz {v : ParamValue} {t : Int} {tzId : Number} (h : ZonedValue host v t tzId) :
    CellValue i d .time_tz v (.time_tz ((t % 86400000).toNat * 10) tzId)
  | quad {c : BatchCase} (hc : c = .blob ∨ c = .quad) (id : Bytes) :
    CellValue i d c (.blobRef id) (.quad id)
  | decimal {c : BatchCase} (hc : c = .dec16 ∨ c = .dec34) (x : DecFloatVal) :
    CellValue i d c (.decFloat x) (.decimal x.bytes)
  | boolean (b : Bool) : CellValue i d .boolean (.boolean b) (.boolean b)
  | nonzero (x : Double) : CellValue i d .boolean (.number x) (.boolean (x.integer ≠ some 0))

/-- A null for no value, and what the value is for any other. -/
def CellOf (i : Nat) (d : SqlVarDesc) (v : ParamValue) : Option RowValue → Prop
  | none => isNullish v = true
  | some value => isNullish v = false ∧
      ∃ c, batchCase d.type = some c ∧ CellValue host client i d c v value

/-! What the writers keep -/

/-- A date that the client's clock shows on a day that `Date.UTC` takes for itself. -/
def NaiveDate (date : JsDate) : Prop :=
  ∃ t, date.time = some t ∧ ¬ TwoDigitYear (client.wall t) ∧
    (client.wall t / 86400000 * 86400000).natAbs ≤ 8640000000000000

/-- The date of a value that has one. -/
def dateOf : ParamValue → Option JsDate
  | .date date | .zonedDate date _ => some date
  | _ => none

/-- Blob ids and zones have their size, and what is converted is one that keeps its value. -/
structure CaseFits (d : SqlVarDesc) (c : BatchCase) (v : ParamValue) : Prop where
  sized : WellSized host.toEncodeHost v
  exact : c.IsExact → ∀ x, v = .number x → KeptByText host.toBatchHost x d.scale
  float : c = .float ∨ c = .double → ∀ text, v = .string text → trim text ≠ []
  naive : c = .timestamp → ∀ date, v = .date date → NaiveDate client date
  zoned : c = .timestamp_tz ∨ c = .time_tz → ∀ date, dateOf v = some date →
    ∃ t, date.time = some t

def CellFits (d : SqlVarDesc) (v : ParamValue) : Prop :=
  ∀ c, batchCase d.type = some c → CaseFits host client d c v

variable {host client}

theorem sized_null {v : ParamValue} (h : isNullish v = true) :
    WellSized host.toEncodeHost v := by
  cases v with
  | zonedDate date zone => cases h
  | blobRef id => cases h
  | _ => trivial

theorem CellFits.null {d : SqlVarDesc} {v : ParamValue} (h : isNullish v = true) :
    CellFits host client d v := by
  intro c _
  refine ⟨sized_null h, ?_, ?_, ?_, ?_⟩
  · rintro _ x rfl
    cases h
  · rintro _ text rfl
    cases h
  · rintro _ date rfl
    cases h
  · intro _ date hdate
    cases v with
    | date date => cases h
    | zonedDate date zone => cases h
    | _ => cases hdate

theorem CaseFits.of_sized {d : SqlVarDesc} {c : BatchCase} {v : ParamValue}
    (hsized : WellSized host.toEncodeHost v) (hexact : ¬ c.IsExact)
    (hfloat : ¬ (c = .float ∨ c = .double)) (hnaive : c ≠ .timestamp)
    (hzoned : ¬ (c = .timestamp_tz ∨ c = .time_tz)) : CaseFits host client d c v :=
  ⟨hsized, fun h => absurd h hexact, fun h => absurd h hfloat, fun h => absurd h hnaive,
    fun h => absurd h hzoned⟩

instance (c : BatchCase) : Decidable c.IsExact := inferInstanceAs (Decidable (_ ∨ _))

/-! The host -/

variable (host client) in
/-- The host has the client's clock, and its texts are as short as those of the language. -/
structure Runs : Prop where
  clock : host.localTime = client.localTime
  short : ∀ x, (host.fractionText x).length < 2 ^ 40

theorem length_toDigits_le (m : Nat) : (Nat.toDigits 10 m).length ≤ m + 1 := by
  apply (Nat.length_toDigits_le_iff (by decide) (by omega)).mpr
  exact (Nat.lt_succ_self m).trans (Nat.lt_pow_self (by decide))

theorem unsignedText_length (digits zeros : Nat) : (unsignedText digits zeros).length ≤
    2 * ((Nat.toDigits 10 digits).length + zeros) + 4 := by
  unfold unsignedText
  generalize Nat.toDigits 10 digits = text
  dsimp only
  split
  · rw [List.length_append, List.length_replicate]
    omega
  · have hexp := length_toDigits_le (text.length + zeros - 1)
    match text with
    | [] =>
      simp only [List.length_append, List.length_cons, List.length_nil] at hexp ⊢
      omega
    | [first] =>
      simp only [List.length_append, List.length_cons, List.length_nil] at hexp ⊢
      omega
    | first :: second :: rest =>
      simp only [List.length_append, List.length_cons] at hexp ⊢
      omega

theorem Runs.jsString_short (h : Runs host client) (x : Double) :
    (jsString host.toBatchHost x).length < 2 ^ 40 := by
  unfold jsString
  cases hx : x.integer with
  | none => exact h.short x
  | some n =>
    have hcount := Double.digitCount_integer hx
    have hshort := spelledDigits_short n
    have hunsigned := unsignedText_length (spelledDigits n).1 (spelledDigits n).2
    have hsign : (if n < 0 then ['-'] else []).length ≤ 1 := by
      split
      · exact le_rfl
      · exact Nat.zero_le 1
    unfold numberText
    dsimp only
    rw [List.length_append]
    omega

theorem Runs.within (h : Runs host client) :
    host.toEncodeHost.within client = host.toEncodeHost := by
  unfold EncodeHost.within
  rw [← h.clock]

/-! What is converted -/

section Exact
variable {v : ParamValue} {scale n : Int} {ctx : String}

theorem scaledInteger_string {text : Text} {f : Int} (h : scaledInteger host (.string text) f ctx = .ok n) :
    decimalToScaled text f ctx = .ok n := by
  unfold scaledInteger at h
  split at h
  · rename_i hpos
    have hcast : ((f.toNat : Nat) : Int) = f := Int.toNat_of_nonneg hpos
    have htext : toScaledBigInt host.toBatchHost (.string text) f.toNat ctx =
        decimalToScaled text f.toNat ctx := rfl
    rw [htext, hcast] at h
    exact h
  · exact h

theorem scaledInteger_bigint {m f : Int} (h : scaledInteger host (.bigint m) f ctx = .ok n) :
    0 ≤ f ∧ n = m * 10 ^ f.toNat := by
  unfold scaledInteger at h
  split at h
  · rename_i hpos
    exact ⟨hpos, (Except.ok.inj h).symm⟩
  · cases h

/-- A number is scaled by itself where it is safe, and else by its text. -/
theorem scaledInteger_number {x : Double} {f : Int}
    (h : scaledInteger host (.number x) f ctx = .ok n) : x.isFinite = true ∧
      ((∃ m ∈ x.integer, SafeInteger m ∧ 0 ≤ f ∧ n = m * 10 ^ f.toNat) ∨
        (¬ ∃ m ∈ x.integer, SafeInteger m) ∧
          decimalToScaled (jsString host.toBatchHost x) f ctx = .ok n) := by
  have hfinite : x.isFinite = true := by
    by_contra hinfinite
    have hno : (!x.isFinite) = true := by simpa using hinfinite
    unfold scaledInteger toScaledBigInt at h
    simp only [hno, if_true] at h
    split at h <;> cases h
  refine ⟨hfinite, ?_⟩
  unfold scaledInteger toScaledBigInt at h
  simp only [hfinite, Bool.not_true, Bool.false_eq_true, if_false] at h
  cases hx : x.integer with
  | none =>
    right
    rw [hx] at h
    refine ⟨?_, ?_⟩
    · rintro ⟨m, hm, -⟩
      exact Option.not_mem_none m hm
    split at h
    · rename_i hpos
      rw [Int.toNat_of_nonneg hpos] at h
      exact h
    · exact h
  | some m =>
    rw [hx] at h
    dsimp only at h
    by_cases hsafe : SafeInteger m
    · left
      rw [if_pos hsafe, if_pos hsafe] at h
      split at h
      · rename_i hpos
        exact ⟨m, rfl, hsafe, hpos, (Except.ok.inj h).symm⟩
      · cases h
    · right
      rw [if_neg hsafe, if_neg hsafe] at h
      refine ⟨?_, ?_⟩
      · rintro ⟨m', hm', hsafe'⟩
        cases hm'
        exact hsafe hsafe'
      · split at h
        · rename_i hpos
          rw [Int.toNat_of_nonneg hpos] at h
          exact h
        · exact h

theorem round_scaled_int (m : Int) {f : Int} (hf : 0 ≤ f) :
    roundHalfAway ((m : ℚ) * 10 ^ f) = m * 10 ^ f.toNat := by
  obtain ⟨k, rfl⟩ := Int.eq_ofNat_of_zero_le hf
  have hcast : (m : ℚ) * 10 ^ ((k : Nat) : Int) = ((m * 10 ^ k : Int) : ℚ) := by
    rw [zpow_natCast]
    push_cast
    rfl
  rw [hcast, roundHalfAway_intCast, Int.toNat_natCast]

/-- What an exact column takes for a value, and when that is the value. -/
theorem scaledInteger_exact (hruns : Runs host client)
    (htext : ∀ text, v = .string text → text.length < 2 ^ 40)
    (hscale : -128 ≤ scale ∧ scale < 128) (hok : scaledInteger host v (-scale) ctx = .ok n)
    (hrange : n.natAbs ≤ 2 ^ 127) : ∃ x, ExactValue v x ∧
      (n = roundHalfAway (x * 10 ^ (-scale)) ↔
        ∀ y, v = .number y → KeptByText host.toBatchHost y scale) := by
  cases v with
  | bigint m =>
    obtain ⟨hpos, rfl⟩ := scaledInteger_bigint hok
    refine ⟨m, .bigint m, iff_of_true (round_scaled_int m hpos).symm ?_⟩
    rintro y ⟨⟩
  | string text =>
    obtain ⟨numeral, hspelled, hn⟩ := decimalToScaled_ranged (htext text rfl) (by omega)
      (scaledInteger_string hok) hrange
    refine ⟨numeral.value, .text hspelled, iff_of_true hn ?_⟩
    rintro y ⟨⟩
  | number x =>
    obtain ⟨hfinite, ⟨m, hm, hsafe, hpos, rfl⟩ | ⟨hbeyond, htextual⟩⟩ := scaledInteger_number hok
    · refine ⟨Double.value x, .number x hfinite, iff_of_true ?_ ?_⟩
      · rw [Double.value_integer hm, round_scaled_int m hpos]
      · rintro y ⟨⟩
        exact Or.inl ⟨m, hm, hsafe⟩
    · obtain ⟨numeral, hspelled, hn⟩ := decimalToScaled_ranged (hruns.jsString_short x) (by omega)
        htextual hrange
      refine ⟨Double.value x, .number x hfinite, ?_⟩
      constructor
      · rintro hvalue y ⟨⟩
        exact Or.inr ⟨numeral, hspelled, hn.symm.trans hvalue⟩
      · intro hkept
        obtain ⟨numeral', hspelled', hround⟩ := (hkept x rfl).resolve_left hbeyond
        rw [hn, Numeral.value_unique hspelled hspelled']
        exact hround
  | _ =>
    unfold scaledInteger at hok
    split at hok <;> cases hok

theorem ExactValue.unique {v : ParamValue} {x y : ℚ} (hx : ExactValue v x) (hy : ExactValue v y) :
    x = y := by
  cases hx with
  | number => cases hy; rfl
  | bigint => cases hy; rfl
  | text hspelled =>
    cases hy with
    | text hspelled' => exact Numeral.value_unique hspelled hspelled'

end Exact

/-! Dates -/

/-- A date goes into a timestamp without a zone as what the client's clock shows if it is one that
the host takes for itself, and only then. -/
theorem encodeTimestamp_kept (hruns : Runs host client) {date : JsDate} {t : Int}
    (ht : date.time = some t) :
    (encodeTimestamp host.toEncodeHost date).2.toUint32 = (client.wall t % 86400000).toNat * 10 ∧
      ((encodeTimestamp host.toEncodeHost date).1.toInt32.toInt =
        client.wall t / 86400000 + 40587 ↔ NaiveDate client date) := by
  obtain ⟨hdays, hfractions⟩ := @encodeTimestamp_naive host.toEncodeHost client date t ht
  rw [hruns.within] at hdays hfractions
  refine ⟨hfractions, ?_⟩
  rw [hdays]
  constructor
  · intro h
    have hown : ¬ TwoDigitYear (client.wall t) := by
      intro hyear
      have hearly := dayTaken_early hyear.1 hyear.2
      unfold TwoDigitYear at hyear
      split at h
      · omega
      · omega
    rw [dayTaken_own hown] at h
    refine ⟨t, ht, hown, ?_⟩
    split at h
    · assumption
    · omega
  · rintro ⟨t', ht', hown, hrange⟩
    obtain rfl : t = t' := Option.some.inj (ht.symm.trans ht')
    rw [dayTaken_own hown, if_pos hrange]

end FastFirebird.Msgcodec.BatchMessage
