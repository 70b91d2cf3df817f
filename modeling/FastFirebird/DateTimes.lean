import FastFirebird.Calendar

/-! `types/datetime.ts`: `TIMESTAMP` and `DATE` columns through the local time of the client. -/
namespace FastFirebird.Msgcodec

def decodeDate (days : Int) : JsDate :=
  newDate (toDouble ((days - EPOCH_DIFF_DAYS) * MS_PER_DAY : Int))

/-- A local date of the day that an instant has in universal time. -/
def localDateOf (zone : Zone) (utc : JsDate) : JsDate :=
  match utc.time with
  | none => utc
  | some t =>
    let d := clockFields t
    newLocalDate zone d.fullYear d.month d.date

/-- The reader of a `DATE`. -/
def readDate (zone : Zone) (days : Int) : JsDate := localDateOf zone (decodeDate days)

def decodeTimestamp (zone : Zone) (days : Int) (fractions : Nat) : JsDate :=
  let localMidnight := localDateOf zone (decodeDate days)
  match localMidnight.time with
  | none => localMidnight
  | some t => newDate (toDouble (t + toDouble (fractions / 10)))

def encodeDateOnly (host : EncodeHost) (value : JsDate) : Number :=
  match value.time with
  | none => .nan
  | some t =>
    let l := host.localTime t
    dateToDays l.fullYear (l.month + 1) l.date

/-- A host whose clock is that of a zone. -/
def EncodeHost.within (host : EncodeHost) (zone : Zone) : EncodeHost :=
  { host with localTime := zone.localTime }

/-- What the clock shows at the beginning of a day. -/
def midnight (days : Int) : Int := (days - 40587) * 86400000

/-- Both times of the clock are taken with one offset. -/
def Zone.SameOffset (zone : Zone) (v w : Int) : Prop := zone.toUtc v - v = zone.toUtc w - w

/-! Encoding -/

theorem newDate_int {t : Int} (h : t.natAbs ≤ 8640000000000000) :
    (newDate (t : ℚ)).time = some t := by
  rw [newDate_time, truncate_intCast]
  rw [abs_le]
  constructor
  · exact_mod_cast (show -(8640000000000000 : Int) ≤ t by omega)
  · exact_mod_cast (show t ≤ (8640000000000000 : Int) by omega)

theorem dateToDays_fields {t : Int}
    (h : (dayTaken t * 86400000).natAbs ≤ 8640000000000000) :
    dateToDays (clockFields t).fullYear ((clockFields t).month + 1) (clockFields t).date =
      .int (dayTaken t + 40587) := by
  have hutc : dateUTC (clockFields t).fullYear ((clockFields t).month + 1 - 1)
      (clockFields t).date = .int (dayTaken t * 86400000) := by
    rw [Int.add_sub_cancel]
    unfold dateUTC
    exact if_pos h
  unfold dateToDays
  rw [hutc]
  simp only [MS_PER_DAY, EPOCH_DIFF_DAYS]
  rw [Int.mul_ediv_cancel _ (by decide)]

theorem encodeTimestamp_wall {host : EncodeHost} {zone : Zone} {date : JsDate} {t : Int}
    (htime : date.time = some t)
    (h : (dayTaken (zone.wall t) * 86400000).natAbs ≤ 8640000000000000) :
    encodeTimestamp (host.within zone) date =
      (.int (dayTaken (zone.wall t) + 40587), .int (zone.wall t % 86400000 * 10)) := by
  have hclock : (host.within zone).localTime t = clockFields (zone.wall t) := rfl
  unfold encodeTimestamp
  rw [htime]
  simp only [hclock, clockFields_time, timeMsToFractions]
  rw [dateToDays_fields h]

theorem encodeDateOnly_wall {host : EncodeHost} {zone : Zone} {date : JsDate} {t : Int}
    (htime : date.time = some t)
    (h : (dayTaken (zone.wall t) * 86400000).natAbs ≤ 8640000000000000) :
    encodeDateOnly (host.within zone) date = .int (dayTaken (zone.wall t) + 40587) := by
  have hclock : (host.within zone).localTime t = clockFields (zone.wall t) := rfl
  unfold encodeDateOnly
  rw [htime]
  simp only [hclock]
  rw [dateToDays_fields h]

/-- A parameter has the day of a `DATE`. -/
theorem encodeTimestamp_day (host : EncodeHost) (value : JsDate) :
    (encodeTimestamp host value).1 = encodeDateOnly host value := by
  unfold encodeTimestamp encodeDateOnly
  cases value.time <;> rfl

/-! Decoding -/

/-- The beginning of the day that a day is taken for. -/
def midnightTaken (days : Int) : Int := dayTaken (midnight days) * 86400000

theorem dayTaken_range {t : Int} (hlow : -719528 ≤ t / 86400000) (hhigh : t / 86400000 ≤ 2999999) :
    -683003 ≤ dayTaken t ∧ dayTaken t ≤ 2999999 := by
  by_cases h : -683003 ≤ t / 86400000
  · rw [dayTaken_late h]
    exact ⟨h, hhigh⟩
  · obtain ⟨h1, h2⟩ := dayTaken_early hlow (by omega)
    omega

variable {zone : Zone} {days : Int}

theorem localDateOf_decodeDate (hlow : -678575 ≤ days) (hhigh : days ≤ 2973483) :
    (localDateOf zone (decodeDate days)).time = some (zone.toUtc (midnightTaken days)) := by
  have hexact : toDouble ((midnight days : Int) : ℚ) = ((midnight days : Int) : ℚ) := by
    apply toDouble_int
    unfold midnight
    rw [abs_lt]
    constructor
    · exact_mod_cast (show -(2 ^ 48 : Int) < (days - 40587) * 86400000 by omega)
    · exact_mod_cast (show (days - 40587) * 86400000 < (2 ^ 48 : Int) by omega)
  have hutc : (decodeDate days).time = some (midnight days) := by
    unfold decodeDate
    show (newDate (toDouble ((midnight days : Int) : ℚ))).time = _
    rw [hexact]
    apply newDate_int
    unfold midnight
    omega
  have hrange := @dayTaken_range (midnight days) (by unfold midnight; omega)
    (by unfold midnight; omega)
  have hnear := zone.toUtc_near (midnightTaken days)
  unfold localDateOf
  rw [hutc]
  show (newDate (zone.toUtc (midnightTaken days))).time = _
  apply newDate_int
  unfold midnightTaken at hnear ⊢
  omega

theorem decodeTimestamp_time (hlow : -678575 ≤ days) (hhigh : days ≤ 2973483) {frac : Nat}
    (hfrac : frac < 864000000) (haligned : frac % 10 = 0) :
    (decodeTimestamp zone days frac).time =
      some (zone.toUtc (midnightTaken days) + (frac / 10 : Nat)) := by
  have hrange := @dayTaken_range (midnight days) (by unfold midnight; omega)
    (by unfold midnight; omega)
  have hnear := zone.toUtc_near (midnightTaken days)
  obtain ⟨t, ht⟩ : ∃ t, t = zone.toUtc (midnightTaken days) := ⟨_, rfl⟩
  rw [← ht] at hnear ⊢
  have htrange : -(2 ^ 47 : Int) * 2 < t - 86400000 ∧ t + 86400000 < 2 ^ 47 * 2 := by
    unfold midnightTaken at hnear
    omega
  obtain ⟨k, rfl⟩ : ∃ k, frac = 10 * k := ⟨frac / 10, by omega⟩
  rw [Nat.mul_div_cancel_left k (by decide)]
  have hms : toDouble (((10 * k : Nat) : ℚ) / 10) = ((k : Int) : ℚ) := by
    have hcast : ((10 * k : Nat) : ℚ) / 10 = ((k : Int) : ℚ) := by
      push_cast
      ring
    rw [hcast]
    apply toDouble_int
    rw [abs_lt]
    constructor
    · exact_mod_cast (show -(2 ^ 48 : Int) < (k : Int) by omega)
    · exact_mod_cast (show (k : Int) < (2 ^ 48 : Int) by omega)
  have hsum : toDouble ((t : ℚ) + ((k : Int) : ℚ)) = ((t + (k : Int) : Int) : ℚ) := by
    rw [← Int.cast_add]
    apply toDouble_int
    rw [abs_lt]
    constructor
    · exact_mod_cast (show -(2 ^ 48 : Int) < t + (k : Int) by omega)
    · exact_mod_cast (show t + (k : Int) < (2 ^ 48 : Int) by omega)
  unfold decodeTimestamp
  dsimp only
  rw [localDateOf_decodeDate hlow hhigh, ← ht]
  dsimp only
  rw [hms, hsum]
  apply newDate_int
  omega

/-! Round trips -/

theorem midnightTaken_late (h : -642416 ≤ days) : midnightTaken days = midnight days := by
  have hday : midnight days / 86400000 = days - 40587 := by
    unfold midnight
    omega
  unfold midnightTaken
  rw [dayTaken_late (by omega), hday, midnight]

theorem midnightTaken_early (hlow : -678575 ≤ days) (h : days < -642416) :
    -25567 * 86400000 ≤ midnightTaken days ∧ midnightTaken days ≤ 11322 * 86400000 := by
  have hday : midnight days / 86400000 = days - 40587 := by
    unfold midnight
    omega
  have hearly := @dayTaken_early (midnight days) (by omega) (by omega)
  unfold midnightTaken
  omega

/-- An instant that is read for a day is shown no more than two days away from it. -/
theorem wall_read (zone : Zone) (days : Int) (k : Nat) :
    (zone.wall (zone.toUtc (midnightTaken days) + k) - (midnightTaken days + k)).natAbs <
      2 * 86400000 := by
  have hwall := zone.wall_near (zone.toUtc (midnightTaken days) + k)
  have hnear := zone.toUtc_near (midnightTaken days)
  omega

/-- The day an instant that was read is sent with. -/
theorem dayTaken_read (hlow : -678575 ≤ days) (hhigh : days ≤ 2973483) {k : Nat}
    (hk : k < 86400000) :
    (dayTaken (zone.wall (zone.toUtc (midnightTaken days) + k)) * 86400000).natAbs ≤
        8640000000000000 ∧
      (dayTaken (zone.wall (zone.toUtc (midnightTaken days) + k)) + 40587 = days →
        -642416 ≤ days ∧
          zone.wall (zone.toUtc (midnightTaken days) + k) / 86400000 + 40587 = days) := by
  have hwall := wall_read zone days k
  obtain ⟨w, hw⟩ : ∃ w, w = zone.wall (zone.toUtc (midnightTaken days) + k) := ⟨_, rfl⟩
  rw [← hw] at hwall ⊢
  by_cases hlate : -642416 ≤ days
  · rw [midnightTaken_late hlate, midnight] at hwall
    have hrange := @dayTaken_range w (by omega) (by omega)
    refine ⟨by omega, fun hday => ⟨hlate, ?_⟩⟩
    by_cases hown : -683003 ≤ w / 86400000
    · rw [dayTaken_late hown] at hday
      exact hday
    · have hearly := @dayTaken_early w (by omega) (by omega)
      omega
  · have hearly := midnightTaken_early hlow (by omega)
    have hown : dayTaken w = w / 86400000 := dayTaken_late (by omega)
    rw [hown]
    constructor
    · omega
    · intro hday
      omega

/-- A `TIMESTAMP` comes back if the clock has not changed since its midnight, a `DATE` always,
both from the year 100 on. -/
theorem datetime_round_trip_iff (host : EncodeHost) (zone : Zone) (days : Int)
    (hlow : -678575 ≤ days) (hhigh : days ≤ 2973483) :
    (∀ frac : Nat, frac < 864000000 → frac % 10 = 0 →
      (∃! t, zone.wall t = midnight days + (frac / 10 : Nat)) →
      (encodeTimestamp (host.within zone) (decodeTimestamp zone days frac) =
          (.int days, .int frac) ↔
        -642416 ≤ days ∧
          zone.SameOffset (midnight days) (midnight days + (frac / 10 : Nat)))) ∧
    ((∃ t, zone.wall t = midnight days) →
      (encodeDateOnly (host.within zone) (readDate zone days) = .int days ↔
        -642416 ≤ days)) := by
  constructor
  · intro frac hfrac haligned hunique
    obtain ⟨k, rfl⟩ : ∃ k, frac = 10 * k := ⟨frac / 10, by omega⟩
    rw [Nat.mul_div_cancel_left k (by decide)] at hunique ⊢
    have htime := @decodeTimestamp_time zone days hlow hhigh (10 * k) hfrac haligned
    rw [Nat.mul_div_cancel_left k (by decide)] at htime
    obtain ⟨hrange, hsent⟩ := @dayTaken_read zone days hlow hhigh k (by omega)
    have hshown : zone.wall (zone.toUtc (midnight days + k)) = midnight days + k :=
      Zone.wall_toUtc hunique.exists
    rw [encodeTimestamp_wall htime hrange, Prod.mk.injEq, Number.int.injEq, Number.int.injEq]
    constructor
    · rintro ⟨hday, hfraction⟩
      obtain ⟨hlate, hday⟩ := hsent hday
      refine ⟨hlate, ?_⟩
      rw [midnightTaken_late hlate] at hday hfraction
      have hwall : zone.wall (zone.toUtc (midnight days) + k) = midnight days + k := by
        unfold midnight at hday hfraction ⊢
        omega
      have hsame := hunique.unique hwall hshown
      unfold Zone.SameOffset
      omega
    · rintro ⟨hlate, hsame⟩
      have hinstant : zone.toUtc (midnight days) + k = zone.toUtc (midnight days + k) := by
        unfold Zone.SameOffset at hsame
        omega
      rw [midnightTaken_late hlate, hinstant, hshown, dayTaken_late (by unfold midnight; omega)]
      unfold midnight
      constructor <;> omega
  · intro hexists
    have htime : (readDate zone days).time = some (zone.toUtc (midnightTaken days) + (0 : Nat)) := by
      rw [readDate, localDateOf_decodeDate hlow hhigh, Int.natCast_zero, Int.add_zero]
    obtain ⟨hrange, hsent⟩ := @dayTaken_read zone days hlow hhigh 0 (by decide)
    rw [encodeDateOnly_wall htime hrange, Number.int.injEq]
    constructor
    · intro hday
      exact (hsent hday).1
    · intro hlate
      rw [Int.natCast_zero, Int.add_zero, midnightTaken_late hlate, Zone.wall_toUtc hexists,
        dayTaken_late (by unfold midnight; omega)]
      unfold midnight
      omega

/-- One hour ahead. -/
def hourAhead : Zone := Zone.fixed 3600000 (by decide)

theorem hourAhead_shows (w : Int) : ∃! t, hourAhead.wall t = w := by
  refine ⟨w - 3600000, Int.sub_add_cancel w 3600000, fun t ht => ?_⟩
  have hwall : t + 3600000 = w := ht
  omega

theorem datetime_round_trip_noon :
    encodeTimestamp (asciiHost.within hourAhead) (decodeTimestamp hourAhead 60000 432000000) =
        (.int 60000, .int 432000000) ∧
      encodeDateOnly (asciiHost.within hourAhead) (readDate hourAhead 60000) = .int 60000 := by
  have htrip := datetime_round_trip_iff asciiHost hourAhead 60000 (by decide) (by decide)
  constructor
  · apply (htrip.1 432000000 (by decide) (by decide) (hourAhead_shows _)).mpr
    exact ⟨by decide, rfl⟩
  · exact (htrip.2 (hourAhead_shows _).exists).mpr (by decide)

/-- The first day of the year 50 is sent as one of 1950. -/
theorem year_fifty_moves :
    ¬ ∀ (zone : Zone) (days : Int), -678575 ≤ days → days ≤ 2973483 →
      (∃ t, zone.wall t = midnight days) →
      encodeDateOnly (asciiHost.within zone) (readDate zone days) = .int days := by
  intro hall
  have hback := hall hourAhead (-660678) (by decide) (by decide) (hourAhead_shows _).exists
  have htime : (readDate hourAhead (-660678)).time =
      some (hourAhead.toUtc (midnightTaken (-660678)) + (0 : Nat)) :=
    localDateOf_decodeDate (by decide) (by decide)
  obtain ⟨hrange, hsent⟩ :=
    @dayTaken_read hourAhead (-660678) (by decide) (by decide) 0 (by decide)
  rw [encodeDateOnly_wall htime hrange, Number.int.injEq] at hback
  exact absurd (hsent hback).1 (by decide)

end FastFirebird.Msgcodec
