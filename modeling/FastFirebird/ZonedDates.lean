import FastFirebird.Doubles
import FastFirebird.TimeZones
import FastFirebird.MessageRoundTrip

/-! `TIMESTAMP WITH TIME ZONE`: a column of `protocol/msgcodec.ts` read with its zone, and sent
again as a parameter. -/
namespace FastFirebird.Msgcodec

theorem truncate_natAbs {x : ℚ} {n : ℕ} (h : |x| ≤ n) : (truncate x).natAbs ≤ n := by
  obtain ⟨hlow, hhigh⟩ := abs_le.mp h
  have hbounds : -(n : ℤ) ≤ truncate x ∧ truncate x ≤ n := by
    unfold truncate
    split_ifs with hx
    · constructor
      · apply Int.le_floor.mpr
        push_cast
        exact hlow
      · have hle := (Int.floor_le x).trans hhigh
        exact_mod_cast hle
    · constructor
      · have hle := hlow.trans (Int.le_ceil x)
        exact_mod_cast hle
      · apply Int.ceil_le.mpr
        exact_mod_cast hhigh
  omega

/-- `new Date(time)`: whole milliseconds, no more than a hundred million days of them. -/
def newDate (time : ℚ) : JsDate :=
  if h : |time| ≤ 8640000000000000 then
    ⟨some (truncate time), fun t ht => by
      obtain rfl := Option.mem_some.mp ht
      exact truncate_natAbs (by exact_mod_cast h)⟩
  else ⟨none, fun _ ht => nomatch ht⟩

theorem newDate_time {time : ℚ} (h : |time| ≤ 8640000000000000) :
    (newDate time).time = some (truncate time) := by
  rw [newDate, dif_pos h]

/-- The reader of a `TIMESTAMP WITH TIME ZONE` where zones are kept. -/
def readTimestampTz (days : Int) (frac tzId : Nat) : ParamValue :=
  .zonedDate (newDate (toDouble (toDouble ((days - 40587) * 86400000) + toDouble (frac / 10))))
    (tzIdToZone tzId)

/-- What the server reads when the value is bound to a statement of one parameter. -/
def SentAs (host : EncodeHost) (v : ParamValue) (type : FieldType) (w : WireValue) : Prop :=
  ∃ e, encodeParams host [v] = .ok e ∧ readRow [type] e.message = some ([some w], [])

/-- The message of a zoned date, read back. -/
theorem encodeParams_zoned {host : EncodeHost} {date : JsDate} {zone : Text} {tzId : Number}
    (h : zoneToTzId host zone = .ok tzId) {days fractions : Number}
    (hutc : encodeTimestampUtc date = (days, fractions)) :
    ∃ e, encodeParams host [.zonedDate date zone] = .ok e ∧
      parseBlr e.blr = some (2, [.timestamp_tz]) ∧
      readRow [.timestamp_tz] e.message =
        some ([some (.timestamp_tz days.toInt32.toInt fractions.toUint32
          (.int ((tzId.toUint32 % 65536 : Nat) : Int)))], []) := by
  have hparam : encodeParam host 0 (.zonedDate date zone)
      ⟨blrHeader {} 1, List.replicate 1 0, []⟩ =
      .ok ⟨nullSlot ((blrHeader {} 1).byte Blr.timestamp_tz), [0],
        [fun w => .ok (((w.int32 days).uint32 fractions).uint32 tzId)]⟩ := by
    simp only [encodeParam, hutc, h]
    rfl
  have hrun : encodeParams host [.zonedDate date zone] =
      .ok ⟨blrFooter (nullSlot ((blrHeader {} 1).byte Blr.timestamp_tz)),
        (((((XdrWriter.raw {} [0]).raw [255, 255, 255]).int32 days).uint32 fractions).uint32
          tzId).buf⟩ := by
    unfold encodeParams encodeValues
    dsimp only [List.length_singleton, Nat.zero_add, Nat.reduceAdd, Nat.reduceShiftRight]
    rw [hparam]
    rfl
  have hmessage : (((((XdrWriter.raw {} [0]).raw [255, 255, 255]).int32 days).uint32
      fractions).uint32 tzId).buf = [0] ++ [255, 255, 255] ++ (bigEndian 4 days.toUint32 ++
        bigEndian 4 fractions.toUint32 ++ bigEndian 4 tzId.toUint32) := by
    simp [XdrWriter.raw, XdrWriter.int32, XdrWriter.uint32]
  refine ⟨_, hrun, by rfl, ?_⟩
  have hread := reads_timestamp_tz days fractions tzId []
  rw [List.append_nil] at hread
  have hcells : readCells [0] 0 [.timestamp_tz] (bigEndian 4 days.toUint32 ++
      bigEndian 4 fractions.toUint32 ++ bigEndian 4 tzId.toUint32) =
      some ([some (.timestamp_tz days.toInt32.toInt fractions.toUint32
        (.int ((tzId.toUint32 % 65536 : Nat) : Int)))], []) := by
    unfold readCells
    rw [if_neg (by decide), hread]
    rfl
  have hpadded := @readPadded_append [0] [255, 255, 255] (by decide)
    (bigEndian 4 days.toUint32 ++ bigEndian 4 fractions.toUint32 ++ bigEndian 4 tzId.toUint32)
  dsimp only
  rw [hmessage]
  unfold readRow
  simp only [List.length_singleton, Nat.reduceAdd, Nat.reduceShiftRight] at hpadded ⊢
  rw [hpadded]
  simp only [Option.bind_eq_bind, Option.bind_some]
  exact hcells

theorem sentAs_zoned {host : EncodeHost} {date : JsDate} {zone : Text} {tzId : Number}
    (h : zoneToTzId host zone = .ok tzId) {days fractions : Number}
    (hutc : encodeTimestampUtc date = (days, fractions)) (w : WireValue) :
    SentAs host (.zonedDate date zone) .timestamp_tz w ↔
      w = .timestamp_tz days.toInt32.toInt fractions.toUint32
        (.int ((tzId.toUint32 % 65536 : Nat) : Int)) := by
  obtain ⟨e, he, -, hrow⟩ := encodeParams_zoned h hutc
  constructor
  · rintro ⟨e', he', hrow'⟩
    rw [he] at he'
    obtain rfl := Except.ok.inj he'
    rw [hrow] at hrow'
    simpa using hrow'.symm
  · rintro rfl
    exact ⟨e, he, hrow⟩

/-! The instant -/

theorem truncate_intCast (n : ℤ) : truncate n = n := by
  unfold truncate
  split <;> simp

/-- A part that is neither none nor whole is cut off upwards before 1970. -/
theorem truncate_between {x : ℚ} {n : ℤ} (hlow : (n : ℚ) < x) (hhigh : x < n + 1) :
    truncate x = if 0 ≤ n then n else n + 1 := by
  unfold truncate
  by_cases hn : 0 ≤ n
  · have hx : (0 : ℚ) ≤ x := by
      have hcast : (0 : ℚ) ≤ n := by exact_mod_cast hn
      linarith
    rw [if_pos hn, if_pos hx, Int.floor_eq_iff]
    exact ⟨hlow.le, hhigh⟩
  · have hx : ¬ (0 : ℚ) ≤ x := by
      have hcast : (n : ℚ) ≤ -1 := by exact_mod_cast (show n ≤ -1 by omega)
      intro hpos
      linarith
    rw [if_neg hn, if_neg hx, Int.ceil_eq_iff]
    push_cast
    exact ⟨by linarith, by linarith⟩

/-- The milliseconds an instant is kept with. -/
def keptMs (days : Int) (frac : Nat) : Int :=
  if frac % 10 = 0 ∨ 40587 ≤ days then (days - 40587) * 86400000 + (frac / 10 : Nat)
  else (days - 40587) * 86400000 + (frac / 10 : Nat) + 1

theorem newDate_instant {days : Int} (hlow : -678575 ≤ days) (hhigh : days ≤ 2973483)
    {frac : Nat} (hfrac : frac < 864000000) :
    (newDate (toDouble (toDouble ((days - 40587) * 86400000) + toDouble (frac / 10)))).time =
      some (keptMs days frac) := by
  unfold keptMs
  obtain ⟨midnight, hmidnight⟩ : ∃ midnight : ℤ, midnight = (days - 40587) * 86400000 := ⟨_, rfl⟩
  have hbase : toDouble (((days : ℚ) - 40587) * 86400000) = midnight := by
    have hcast : ((days : ℚ) - 40587) * 86400000 = midnight := by
      rw [hmidnight]
      push_cast
      ring
    rw [hcast]
    apply toDouble_int
    rw [abs_lt]
    constructor
    · exact_mod_cast (show -(2 ^ 48 : ℤ) < midnight by omega)
    · exact_mod_cast (show midnight < (2 ^ 48 : ℤ) by omega)
  obtain ⟨k, hk⟩ : ∃ k : ℕ, k = frac / 10 := ⟨_, rfl⟩
  have hsplit : (frac : ℚ) / 10 = k + ((frac % 10 : Nat) : ℚ) / 10 := by
    have hnat : frac = 10 * k + frac % 10 := by omega
    have hcast : (frac : ℚ) = 10 * k + ((frac % 10 : Nat) : ℚ) := by exact_mod_cast hnat
    linarith
  have hkhigh : (k : ℚ) ≤ 86399999 := by exact_mod_cast (show k ≤ 86399999 by omega)
  have hklow : (0 : ℚ) ≤ k := by exact_mod_cast Nat.zero_le k
  have hmlow : (-62135596800000 : ℚ) ≤ midnight := by exact_mod_cast (show _ ≤ midnight by omega)
  have hmhigh : (midnight : ℚ) ≤ 253402214400000 := by
    exact_mod_cast (show midnight ≤ _ by omega)
  rw [hbase, ← hk, ← hmidnight]
  by_cases hwhole : frac % 10 = 0
  · have hms : toDouble ((frac : ℚ) / 10) = ((k : ℤ) : ℚ) := by
      rw [hsplit, hwhole]
      have habs : |((k : ℤ) : ℚ)| < 2 ^ 48 := by
        rw [abs_lt]
        push_cast
        constructor <;> linarith
      have hint := toDouble_int habs
      push_cast at hint ⊢
      simpa using hint
    have hsum : toDouble ((midnight : ℚ) + ((k : ℤ) : ℚ)) = ((midnight + k : ℤ) : ℚ) := by
      have hint := @toDouble_int (midnight + k) (by
        rw [abs_lt]
        push_cast
        constructor <;> linarith)
      push_cast at hint ⊢
      exact hint
    rw [hms, hsum, newDate_time, truncate_intCast, if_pos (Or.inl hwhole)]
    rw [abs_le]
    push_cast
    constructor <;> linarith
  · -- a part of a millisecond stays a part of it through both roundings
    have hpart : (1 : ℚ) / 10 ≤ ((frac % 10 : Nat) : ℚ) / 10 ∧
        ((frac % 10 : Nat) : ℚ) / 10 ≤ 9 / 10 := by
      have hge : (1 : ℚ) ≤ ((frac % 10 : Nat) : ℚ) := by
        exact_mod_cast (show 1 ≤ frac % 10 by omega)
      have hle : ((frac % 10 : Nat) : ℚ) ≤ 9 := by
        exact_mod_cast (show frac % 10 ≤ 9 by omega)
      constructor <;> linarith
    obtain ⟨hy1, hy2⟩ := @toDouble_between ((frac : ℚ) / 10) (32 * k + 1) (32 * k + 29)
      (by rw [hsplit, abs_lt]; constructor <;> linarith)
      (by rw [hsplit]; push_cast; linarith) (by rw [hsplit]; push_cast; linarith)
    push_cast at hy1 hy2
    obtain ⟨hs1, hs2⟩ := @toDouble_between ((midnight : ℚ) + toDouble ((frac : ℚ) / 10))
      (32 * (midnight + k) + 1) (32 * (midnight + k) + 29)
      (by rw [abs_lt]; constructor <;> linarith)
      (by push_cast; linarith) (by push_cast; linarith)
    push_cast at hs1 hs2
    have hcut := @truncate_between (toDouble ((midnight : ℚ) + toDouble ((frac : ℚ) / 10)))
      (midnight + k) (by push_cast; linarith) (by push_cast; linarith)
    have hsign : 0 ≤ midnight + (k : ℤ) ↔ 40587 ≤ days := by
      omega
    rw [newDate_time (by rw [abs_le]; constructor <;> linarith), hcut]
    simp only [hsign, hwhole, false_or]

/-! The way through the message -/

theorem toInt32_toInt {i : Int} (hlow : -2 ^ 31 ≤ i) (hhigh : i < 2 ^ 31) :
    (Number.int i).toInt32.toInt = i :=
  Int32.toInt_ofInt_of_le hlow hhigh

theorem toUint32_natCast {n : Nat} (h : n < 2 ^ 32) : (Number.int n).toUint32 = n := by
  show (BitVec.ofInt 32 (n : Int)).toNat = n
  rw [BitVec.ofInt_natCast, BitVec.toNat_ofNat, Nat.mod_eq_of_lt h]

theorem encodeTimestampUtc_time {date : JsDate} {ms : Int} (h : date.time = some ms) :
    encodeTimestampUtc date =
      (.int (ms / 86400000 + 40587), .int (((ms % 86400000).toNat * 10 : Nat) : Int)) := by
  unfold encodeTimestampUtc
  rw [h]
  simp only [MS_PER_DAY]
  have hrest : (ms - ms / 86400000 * 86400000) * 10 = (((ms % 86400000).toNat * 10 : Nat) : Int) := by
    omega
  rw [hrest]

theorem sentAs_timestampTz (host : EncodeHost) {days : Int} (hlow : -678575 ≤ days)
    (hhigh : days ≤ 2973483) {frac : Nat} (hfrac : frac < 864000000) {tzId : Nat}
    (htz : tzId < 65536) (w : WireValue) :
    SentAs { host with tzNames := TZ_NAMES } (readTimestampTz days frac tzId) .timestamp_tz w ↔
      w = .timestamp_tz (keptMs days frac / 86400000 + 40587)
        ((keptMs days frac % 86400000).toNat * 10) (.int tzId) := by
  have hzone := @zoneToTzId_tzIdToZone { host with tzNames := TZ_NAMES } rfl tzId htz
  have htime := newDate_instant hlow hhigh hfrac
  have hday : -2 ^ 31 ≤ keptMs days frac / 86400000 + 40587 ∧
      keptMs days frac / 86400000 + 40587 < 2 ^ 31 := by
    unfold keptMs
    split <;> constructor <;> omega
  rw [readTimestampTz, sentAs_zoned hzone (encodeTimestampUtc_time htime),
    toInt32_toInt hday.1 hday.2, toUint32_natCast (by omega), zone_bits htz]

/-- A value goes back to its day, its zone and its millisecond, unless it is before 1970 and
has a part of a millisecond. -/
theorem timestampTz_sent_back_iff (host : EncodeHost) {days : Int} (hlow : -678575 ≤ days)
    (hhigh : days ≤ 2973483) {frac : Nat} (hfrac : frac < 864000000) {tzId : Nat}
    (htz : tzId < 65536) :
    SentAs { host with tzNames := TZ_NAMES } (readTimestampTz days frac tzId) .timestamp_tz
        (.timestamp_tz days (frac / 10 * 10) (.int tzId)) ↔
      frac % 10 = 0 ∨ 40587 ≤ days := by
  rw [sentAs_timestampTz host hlow hhigh hfrac htz, WireValue.timestamp_tz.injEq]
  unfold keptMs
  split
  · rename_i hexact
    refine iff_of_true ⟨?_, ?_, rfl⟩ hexact <;> omega
  · rename_i hlater
    refine iff_of_false ?_ hlater
    rintro ⟨hday, hfraction, -⟩
    omega

theorem timestampTz_sent_back_recent :
    SentAs { asciiHost with tzNames := TZ_NAMES } (readTimestampTz 60000 123456789 64899)
      .timestamp_tz (.timestamp_tz 60000 123456780 (.int 64899)) :=
  (timestampTz_sent_back_iff asciiHost (by decide) (by decide) (by decide) (by decide)).mpr
    (Or.inr (by decide))

/-- The last fraction of 1969 becomes the first of 1970. -/
theorem last_of_1969_moves :
    ¬ ∀ (days : Int) (frac tzId : Nat), -678575 ≤ days → days ≤ 2973483 → frac < 864000000 →
      tzId < 65536 →
      SentAs { asciiHost with tzNames := TZ_NAMES } (readTimestampTz days frac tzId)
        .timestamp_tz (.timestamp_tz days (frac / 10 * 10) (.int tzId)) := by
  intro hall
  have hsent := hall 40586 863999999 1439 (by decide) (by decide) (by decide) (by decide)
  rw [sentAs_timestampTz asciiHost (by decide) (by decide) (by decide) (by decide)] at hsent
  exact absurd hsent (by decide)

end FastFirebird.Msgcodec
