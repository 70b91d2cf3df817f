import FastFirebird.ZonedDates

/-! Calendar and local time: what a host makes of milliseconds since 1970, and of a date. -/
namespace FastFirebird.Msgcodec

/-- The year of a day counted from 1970: by its four centuries, and one year off at most. -/
def yearFromDay (day : Int) : Int :=
  let year := 1970 + day * 400 / 146097
  if day < daysOfMonth year 0 then year - 1
  else if daysOfMonth (year + 1) 0 ≤ day then year + 1
  else year

/-- The month of a day of the year, from 0: the last one that has begun. -/
def monthFromDay (year day : Int) : Int :=
  ((List.range 12).reverse.find? fun (month : Nat) => daysOfMonth year month ≤ day).getD 0

/-- What a clock shows at `t` milliseconds of its own time. -/
def clockFields (t : Int) : LocalTime :=
  let day := t / MS_PER_DAY
  let year := yearFromDay day
  let month := monthFromDay year day
  { fullYear := year
    month := month
    date := day - daysOfMonth year month + 1
    hours := t / 3600000 % 24
    minutes := t / 60000 % 60
    seconds := t / 1000 % 60
    milliseconds := t % 1000 }

/-- A local time zone: how far its clock is ahead at an instant, and the instant the host takes
for a time of the clock. A time the clock does show is taken for one of its instants; what is
made of one that it skips is left open. -/
structure Zone where
  offset : Int → Int
  toUtc : Int → Int
  offset_lt : ∀ t, (offset t).natAbs < 86400000
  toUtc_near : ∀ w, (toUtc w - w).natAbs < 86400000
  toUtc_shown : ∀ w t, t + offset t = w → toUtc w + offset (toUtc w) = w

namespace Zone

/-- What the clock shows at an instant. -/
def wall (zone : Zone) (t : Int) : Int := t + zone.offset t

def localTime (zone : Zone) (t : Int) : LocalTime := clockFields (zone.wall t)

/-- A clock that is always ahead by as much. -/
def fixed (offset : Int) (h : offset.natAbs < 86400000) : Zone where
  offset _ := offset
  toUtc w := w - offset
  offset_lt _ := h
  toUtc_near w := by omega
  toUtc_shown w t h := by omega

theorem wall_toUtc {zone : Zone} {w : Int} (h : ∃ t, zone.wall t = w) :
    zone.wall (zone.toUtc w) = w := by
  obtain ⟨t, ht⟩ := h
  exact zone.toUtc_shown w t ht

theorem wall_near (zone : Zone) (t : Int) : (zone.wall t - t).natAbs < 86400000 := by
  have hoffset := zone.offset_lt t
  unfold wall
  omega

end Zone

/-- The years of two digits are those of the twentieth century. -/
def fullYear (year : Int) : Int := if 0 ≤ year ∧ year ≤ 99 then 1900 + year else year

/-- `new Date(year, month, date)`, month from 0. -/
def newLocalDate (zone : Zone) (year month date : Int) : JsDate :=
  newDate (zone.toUtc ((daysOfMonth (fullYear year) month + date - 1) * MS_PER_DAY))

/-! The fields of a clock -/

theorem yearFromDay_spec (day : Int) : daysOfMonth (yearFromDay day) 0 ≤ day ∧
    day < daysOfMonth (yearFromDay day + 1) 0 := by
  obtain ⟨year, hyear⟩ : ∃ year, year = 1970 + day * 400 / 146097 := ⟨_, rfl⟩
  have hlow : daysOfMonth (year - 1) 0 ≤ day := by
    simp only [daysOfMonth]
    norm_num
    omega
  have hhigh : day < daysOfMonth (year + 1 + 1) 0 := by
    simp only [daysOfMonth]
    norm_num
    omega
  unfold yearFromDay
  rw [← hyear]
  dsimp only
  split_ifs with hbefore hafter
  · rw [Int.sub_add_cancel]
    exact ⟨hlow, hbefore⟩
  · exact ⟨hafter, hhigh⟩
  · exact ⟨by omega, by omega⟩

theorem daysOfMonth_mono {a b : Int} (h : a ≤ b) : daysOfMonth a 0 ≤ daysOfMonth b 0 := by
  simp only [daysOfMonth]
  norm_num
  omega

theorem le_yearFromDay_iff {year day : Int} :
    year ≤ yearFromDay day ↔ daysOfMonth year 0 ≤ day := by
  obtain ⟨hlow, hhigh⟩ := yearFromDay_spec day
  constructor
  · intro h
    exact (daysOfMonth_mono h).trans hlow
  · intro h
    by_contra hlt
    have hmono := daysOfMonth_mono (show yearFromDay day + 1 ≤ year by omega)
    omega

theorem monthFromDay_spec {year day : Int} (h : daysOfMonth year 0 ≤ day) :
    daysOfMonth year (monthFromDay year day) ≤ day ∧
      0 ≤ monthFromDay year day ∧ monthFromDay year day ≤ 11 := by
  unfold monthFromDay
  cases hfind : (List.range 12).reverse.find? fun (month : Nat) => daysOfMonth year month ≤ day with
  | none => exact ⟨h, by decide, by decide⟩
  | some month =>
    have hbegun := List.find?_some hfind
    have hmem := List.mem_range.mp (List.mem_reverse.mp (List.mem_of_find?_eq_some hfind))
    rw [Option.getD_some]
    exact ⟨of_decide_eq_true hbegun, by omega, by omega⟩

/-- The first day of a month is one of its year's. -/
theorem daysOfMonth_ge {year month : Int} (hlow : 0 ≤ month) (hhigh : month ≤ 11) :
    daysOfMonth year 0 ≤ daysOfMonth year month ∧
      daysOfMonth year month ≤ daysOfMonth year 0 + 335 := by
  obtain rfl | rfl | rfl | rfl | rfl | rfl | rfl | rfl | rfl | rfl | rfl | rfl :
      month = 0 ∨ month = 1 ∨ month = 2 ∨ month = 3 ∨ month = 4 ∨ month = 5 ∨ month = 6 ∨
        month = 7 ∨ month = 8 ∨ month = 9 ∨ month = 10 ∨ month = 11 := by omega
  all_goals
    simp only [daysOfMonth, Int.reduceMod, Int.reduceToNat, Int.reduceDiv, Int.reduceLE, and_true,
      and_false, if_false, Int.add_zero]
    try split_ifs
    all_goals omega

/-- The hours, minutes and seconds of a clock are the time since its midnight. -/
theorem clockFields_time (t : Int) :
    (clockFields t).hours * 3600000 + (clockFields t).minutes * 60000 +
      (clockFields t).seconds * 1000 + (clockFields t).milliseconds = t % 86400000 := by
  show t / 3600000 % 24 * 3600000 + t / 60000 % 60 * 60000 + t / 1000 % 60 * 1000 + t % 1000 = _
  omega

theorem clockFields_day (t : Int) :
    daysOfMonth (clockFields t).fullYear (clockFields t).month + (clockFields t).date - 1 =
      t / 86400000 := by
  have hdate : (clockFields t).date =
      t / 86400000 - daysOfMonth (clockFields t).fullYear (clockFields t).month + 1 := rfl
  omega

theorem clockFields_year (t : Int) : (clockFields t).fullYear = yearFromDay (t / 86400000) := by
  unfold clockFields
  rfl

theorem clockFields_month (t : Int) :
    0 ≤ (clockFields t).month ∧ (clockFields t).month ≤ 11 ∧
      daysOfMonth (clockFields t).fullYear (clockFields t).month ≤ t / 86400000 := by
  have hyear := (yearFromDay_spec (t / 86400000)).1
  obtain ⟨hday, hlow, hhigh⟩ := monthFromDay_spec hyear
  exact ⟨hlow, hhigh, hday⟩

/-- The day a date is taken for: a hundred years of it are others. -/
def dayTaken (t : Int) : Int :=
  daysOfMonth (fullYear (clockFields t).fullYear) (clockFields t).month + (clockFields t).date - 1

/-- From the year 100 on a date is taken for its own day. -/
theorem dayTaken_late {t : Int} (h : -683003 ≤ t / 86400000) : dayTaken t = t / 86400000 := by
  have hyear : 100 ≤ (clockFields t).fullYear := by
    rw [clockFields_year, le_yearFromDay_iff]
    exact h
  have hsame : fullYear (clockFields t).fullYear = (clockFields t).fullYear := by
    unfold fullYear
    rw [if_neg (by omega)]
  rw [dayTaken, hsame, clockFields_day]

/-- Before it is taken for one of the twentieth century. -/
theorem dayTaken_early {t : Int} (hlow : -719528 ≤ t / 86400000) (h : t / 86400000 < -683003) :
    -25567 ≤ dayTaken t ∧ dayTaken t ≤ 11322 := by
  obtain ⟨hm0, hm11, hmonth⟩ := clockFields_month t
  have hday := clockFields_day t
  have hspec := yearFromDay_spec (t / 86400000)
  rw [← clockFields_year] at hspec
  have hyear0 : 0 ≤ (clockFields t).fullYear := by
    rw [clockFields_year, le_yearFromDay_iff]
    exact hlow
  have hyear99 : ¬ 100 ≤ (clockFields t).fullYear := by
    rw [clockFields_year, le_yearFromDay_iff]
    have hhundred : daysOfMonth 100 0 = -683003 := by decide
    omega
  have hsame : fullYear (clockFields t).fullYear = 1900 + (clockFields t).fullYear := by
    unfold fullYear
    rw [if_pos ⟨hyear0, by omega⟩]
  have htaken := @daysOfMonth_ge (1900 + (clockFields t).fullYear) _ hm0 hm11
  have hown := @daysOfMonth_ge (clockFields t).fullYear _ hm0 hm11
  have hfirst := daysOfMonth_mono (show 1900 ≤ 1900 + (clockFields t).fullYear by omega)
  have hlast := daysOfMonth_mono (show 1900 + (clockFields t).fullYear ≤ 1999 by omega)
  have h1900 : daysOfMonth 1900 0 = -25567 := by decide
  have h1999 : daysOfMonth 1999 0 = 10592 := by decide
  have hlength : daysOfMonth ((clockFields t).fullYear + 1) 0 ≤
      daysOfMonth (clockFields t).fullYear 0 + 366 := by
    simp only [daysOfMonth]
    norm_num
    omega
  rw [dayTaken, hsame]
  constructor <;> omega

end FastFirebird.Msgcodec
