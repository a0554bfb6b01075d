import Mathlib.Data.Int.Notation
import Mathlib.Tactic.SplitIfs

/-! # `boost::posix_time` as `soci_pgsql.hpp` uses it

A `ptime` counts microseconds from the start of the Julian day count, or is one of the special
values. Its date is the day number `count / 86400000000`, which `from_day_number` turns into year,
month and day and `day_number` turns back. `from_day_number` keeps 16 bits of the year: a count in the
year 67536 is read as one in the year 2000. Day numbers and counts are integers without bound here; the
library keeps them in 32 and 64 bits, which hold every day of the years 1400 to 9999.

`to_tm` has no field for a fraction of a second. `ptimeFromTm_toTm` says that `ptime_from_tm` gives
back everything else of a point in time from the years 1400 to 9999. -/

namespace Jkit.Db.PosixTime

/-! ### The calendar -/

/-- `static_cast<unsigned short>`. -/
def toUShort (n : ℤ) : ℤ := n % 65536

/-- `greg_year_month_day`. -/
structure YearMonthDay where
  year : ℤ
  month : ℤ
  day : ℤ
deriving DecidableEq

/-- `is_leap_year`. -/
def isLeapYear (year : ℤ) : Bool := year % 4 == 0 && (year % 100 != 0 || year % 400 == 0)

/-- `end_of_month_day`. -/
def endOfMonthDay (year month : ℤ) : ℤ :=
  if month = 2 then if isLeapYear year then 29 else 28
  else if month = 4 ∨ month = 6 ∨ month = 9 ∨ month = 11 then 30
  else 31

/-- `day_number`. -/
def dayNumber (ymd : YearMonthDay) : ℤ :=
  let a := (14 - ymd.month) / 12
  let y := ymd.year + 4800 - a
  let m := ymd.month + 12 * a - 3
  ymd.day + (153 * m + 2) / 5 + 365 * y + y / 4 - y / 100 + y / 400 - 32045

/-- `from_day_number`. -/
def fromDayNumber (n : ℤ) : YearMonthDay :=
  let a := n + 32044
  let b := (4 * a + 3) / 146097
  let c := a - 146097 * b / 4
  let d := (4 * c + 3) / 1461
  let e := c - 1461 * d / 4
  let m := (5 * e + 2) / 153
  { year := toUShort (100 * b + d - 4800 + m / 10)
    month := toUShort (m + 3 - 12 * (m / 10))
    day := toUShort (e - (153 * m + 2) / 5 + 1) }

/-- `day_of_week`. -/
def dayOfWeek (ymd : YearMonthDay) : ℤ :=
  let a := (14 - ymd.month) / 12
  let y := ymd.year - a
  let m := ymd.month + 12 * a - 2
  (ymd.day + y + y / 4 - y / 100 + y / 400 + 31 * m / 12) % 7

/-- The constructor of `greg_year_month_day`, with the ranges of its three fields. -/
def gregYearMonthDay (year month day : ℤ) : Option YearMonthDay :=
  if (1400 ≤ year ∧ year ≤ 9999) ∧ (1 ≤ month ∧ month ≤ 12) ∧ 1 ≤ day ∧ day ≤ 31 then
    some ⟨year, month, day⟩
  else none

/-- The constructor of `date` from year, month and day. -/
def mkDate (year month day : ℤ) : Option ℤ := do
  let ymd ← gregYearMonthDay year month day
  if endOfMonthDay year month < day then none else some (dayNumber ymd)

/-- The day numbers of `min_date_time` and `max_date_time`. -/
def minDate : ℤ := dayNumber ⟨1400, 1, 1⟩

def maxDate : ℤ := dayNumber ⟨9999, 12, 31⟩

/-- `year_month_day` of a date. -/
def yearMonthDay (days : ℤ) : Option YearMonthDay :=
  gregYearMonthDay (fromDayNumber days).year (fromDayNumber days).month (fromDayNumber days).day

/-! ### Points in time -/

/-- `ptime`. -/
inductive Ptime
  | notADateTime
  | posInfin
  | negInfin
  | ticks (count : ℤ)
deriving DecidableEq

/-- `std::tm`. -/
structure Tm where
  sec : ℤ
  min : ℤ
  hour : ℤ
  mday : ℤ
  mon : ℤ
  year : ℤ
  wday : ℤ
  yday : ℤ
  isdst : ℤ
deriving DecidableEq

/-- `frac_sec_per_day`. -/
def perDay : ℤ := 86400000000

/-- `to_tm`; `none` is an exception. -/
def toTm : Ptime → Option Tm
  | .ticks count => do
    let ymd ← yearMonthDay (count / perDay)
    let days := dayNumber ymd
    let ymd ← yearMonthDay days
    let start ← mkDate ymd.year 1 1
    let tod := count % perDay
    some
      { sec := tod / 1000000 % 60
        min := tod / 60000000 % 60
        hour := tod / 3600000000
        mday := ymd.day
        mon := ymd.month - 1
        year := ymd.year - 1900
        wday := dayOfWeek ymd
        yday := days - start
        isdst := -1 }
  | _ => none

/-- `to_tick_count` without a fraction. -/
def toTickCount (hours minutes seconds : ℤ) : ℤ :=
  if hours < 0 ∨ minutes < 0 ∨ seconds < 0 then
    -((hours.natAbs * 3600 + minutes.natAbs * 60 + seconds.natAbs) * 1000000)
  else (hours * 3600 + minutes * 60 + seconds) * 1000000

/-- `ptime_from_tm`; `none` is an exception. -/
def ptimeFromTm (tm : Tm) : Option Ptime := do
  let days ← mkDate (toUShort (tm.year + 1900)) (toUShort (tm.mon + 1)) (toUShort tm.mday)
  some (.ticks (days * perDay + toTickCount tm.hour tm.min tm.sec))

/-- The point in time is a special value or of the years 1400 to 9999. -/
def Ptime.InRange : Ptime → Prop
  | .ticks count => minDate ≤ count / perDay ∧ count / perDay ≤ maxDate
  | _ => True

/-- The point in time without its fraction of a second. -/
def Ptime.wholeSeconds : Ptime → Ptime
  | .ticks count => .ticks (count - count % 1000000)
  | p => p

/-! ### Day numbers and dates -/

theorem toUShort_eq {n : ℤ} (h0 : 0 ≤ n) (h : n < 65536) : toUShort n = n :=
  Int.emod_eq_of_lt h0 h

/-- The day `n` in the calendar from March on: the century `b`, the year `d` of it, the day `e` of the
year and the month `m`. Only the last year of four has a 366th day, and only the last century of four
has it in its last year. -/
theorem fromDayNumber_eq {n : ℤ} (hn : minDate ≤ n ∧ n ≤ maxDate) : ∃ b d e m : ℤ,
    fromDayNumber n =
      ⟨100 * b + d - 4800 + m / 10, m + 3 - 12 * (m / 10), e - (153 * m + 2) / 5 + 1⟩ ∧
    n + 32044 = 36524 * b + b / 4 + (365 * d + d / 4) + e ∧ (0 ≤ d ∧ d ≤ 99) ∧ (0 ≤ m ∧ m ≤ 11) ∧
    (5 * e + 2) / 153 = m ∧ (e ≤ 364 ∨ e = 365 ∧ d % 4 = 3 ∧ (d = 99 → b % 4 = 3)) := by
  have hmin : minDate = 2232400 := by decide
  have hmax : maxDate = 5373484 := by decide
  rw [hmin, hmax] at hn
  simp only [fromDayNumber]
  generalize hb : (4 * (n + 32044) + 3) / 146097 = b
  generalize hc : n + 32044 - 146097 * b / 4 = c
  generalize hd : (4 * c + 3) / 1461 = d
  generalize he : c - 1461 * d / 4 = e
  generalize hm : (5 * e + 2) / 153 = m
  have h4 : 146097 * b / 4 = 36524 * b + b / 4 := by omega
  have h5 : 1461 * d / 4 = 365 * d + d / 4 := by omega
  rw [h4] at hc
  rw [h5] at he
  have hde : (0 ≤ d ∧ d ≤ 99) ∧ (0 ≤ m ∧ m ≤ 11) := by omega
  have hyear : 0 ≤ 100 * b + d - 4800 + m / 10 ∧ 100 * b + d - 4800 + m / 10 < 65536 := by omega
  -- no cast changes anything within the range
  rw [toUShort_eq hyear.1 hyear.2, toUShort_eq (by omega) (by omega),
    toUShort_eq (by omega) (by omega)]
  exact ⟨b, d, e, m, rfl, by omega, hde.1, hde.2, hm, by omega⟩

/-- `day_number` undoes `from_day_number`. -/
theorem dayNumber_fromDayNumber {n : ℤ} (hn : minDate ≤ n ∧ n ≤ maxDate) :
    dayNumber (fromDayNumber n) = n := by
  obtain ⟨b, d, e, m, heq, hday, hd, hm, he, -⟩ := fromDayNumber_eq hn
  rw [heq]
  simp only [dayNumber]
  have hk : m / 10 = 0 ∨ m / 10 = 1 := by omega
  have ha : (14 - (m + 3 - 12 * (m / 10))) / 12 = m / 10 := by omega
  have hy : 100 * b + d - 4800 + m / 10 + 4800 - m / 10 = 100 * b + d := by omega
  have hmon : m + 3 - 12 * (m / 10) + 12 * (m / 10) - 3 = m := by omega
  rw [ha, hy, hmon]
  have h1 : (100 * b + d) / 4 = 25 * b + d / 4 := by omega
  have h2 : (100 * b + d) / 100 = b := by omega
  have h3 : (100 * b + d) / 400 = b / 4 := by omega
  rw [h1, h2, h3]
  omega

/-- The year that ends with the 366th day from March on is a leap year. -/
theorem isLeapYear_century {b d : ℤ} (hd : 0 ≤ d ∧ d ≤ 99) (h4 : d % 4 = 3)
    (hb : d = 99 → b % 4 = 3) : isLeapYear (100 * b + d - 4800 + 1) = true := by
  simp only [isLeapYear, Bool.and_eq_true, Bool.or_eq_true, beq_iff_eq, bne_iff_ne]
  refine ⟨by omega, ?_⟩
  by_cases h99 : d = 99
  · have := hb h99
    right; omega
  · left; omega

theorem endOfMonthDay_le (year month : ℤ) : endOfMonthDay year month ≤ 31 := by
  unfold endOfMonthDay
  split_ifs <;> omega

/-- `from_day_number` gives a day that its month has. -/
theorem fromDayNumber_valid {n : ℤ} (hn : minDate ≤ n ∧ n ≤ maxDate) :
    (1 ≤ (fromDayNumber n).month ∧ (fromDayNumber n).month ≤ 12) ∧ 1 ≤ (fromDayNumber n).day ∧
      (fromDayNumber n).day ≤ endOfMonthDay (fromDayNumber n).year (fromDayNumber n).month := by
  obtain ⟨b, d, e, m, heq, -, hd, hm, he, hlast⟩ := fromDayNumber_eq hn
  rw [heq]
  dsimp only
  have hk : m / 10 = 0 ∨ m / 10 = 1 := by omega
  refine ⟨by omega, by omega, ?_⟩
  by_cases hfeb : m = 11
  · -- the 29th of February is the 366th day from March on, of a leap year
    subst hfeb
    rcases hlast with h | ⟨h, h4, hb⟩
    · unfold endOfMonthDay
      split_ifs <;> omega
    · unfold endOfMonthDay
      have hten : (11 : ℤ) / 10 = 1 := rfl
      rw [hten, if_pos (by omega), if_pos (isLeapYear_century hd h4 hb)]
      omega
  · unfold endOfMonthDay
    rw [if_neg (by omega)]
    split_ifs with h
    · omega
    · omega

theorem gregYearMonthDay_eq_some {year month day : ℤ} {ymd : YearMonthDay}
    (h : gregYearMonthDay year month day = some ymd) :
    ymd = ⟨year, month, day⟩ ∧ (1400 ≤ year ∧ year ≤ 9999) ∧ (1 ≤ month ∧ month ≤ 12) ∧
      1 ≤ day ∧ day ≤ 31 := by
  unfold gregYearMonthDay at h
  split_ifs at h with hr
  exact ⟨(Option.some.inj h).symm, hr⟩

/-- The date of a day number leads back to the day number. -/
theorem mkDate_of_yearMonthDay {days : ℤ} {ymd : YearMonthDay} (hn : minDate ≤ days ∧ days ≤ maxDate)
    (h : yearMonthDay days = some ymd) :
    ymd = fromDayNumber days ∧ mkDate ymd.year ymd.month ymd.day = some days := by
  obtain ⟨rfl, hr⟩ := gregYearMonthDay_eq_some h
  have hday := (fromDayNumber_valid hn).2.2
  refine ⟨rfl, ?_⟩
  unfold mkDate gregYearMonthDay
  rw [if_pos hr]
  simp only [Option.bind_eq_bind, Option.bind_some]
  rw [if_neg (by omega), dayNumber_fromDayNumber hn]

/-! ### `to_tm` and back -/

theorem toTickCount_tod {tod : ℤ} (h : 0 ≤ tod) :
    toTickCount (tod / 3600000000) (tod / 60000000 % 60) (tod / 1000000 % 60) =
      tod - tod % 1000000 := by
  unfold toTickCount
  rw [if_neg (by omega)]
  omega

/-- `ptime_from_tm` gives back a point in time up to its fraction of a second. -/
theorem ptimeFromTm_toTm {p : Ptime} {tm : Tm} (hp : p.InRange) (h : toTm p = some tm) :
    ptimeFromTm tm = some p.wholeSeconds := by
  cases p with
  | ticks count =>
    simp only [toTm, Option.bind_eq_bind, Option.bind_eq_some_iff] at h
    obtain ⟨ymd, h1, ymd', h2, start, -, htm⟩ := h
    obtain ⟨rfl, -⟩ := mkDate_of_yearMonthDay hp h1
    rw [dayNumber_fromDayNumber hp] at h2
    have hr := (gregYearMonthDay_eq_some h2).2
    obtain ⟨rfl, hdate⟩ := mkDate_of_yearMonthDay hp h2
    have htod := toTickCount_tod (Int.emod_nonneg count (by decide : perDay ≠ 0))
    have hdays : count / perDay * perDay + count % perDay = count := Int.ediv_mul_add_emod count perDay
    have hfrac : count % perDay % 1000000 = count % 1000000 := by unfold perDay; omega
    obtain rfl := Option.some.inj htm
    unfold ptimeFromTm Ptime.wholeSeconds
    simp only [Int.sub_add_cancel]
    rw [toUShort_eq (by omega) (by omega), toUShort_eq (by omega) (by omega),
      toUShort_eq (by omega) (by omega), hdate]
    simp only [Option.bind_eq_bind, Option.bind_some, htod]
    congr 2
    omega
  | notADateTime => simp [toTm] at h
  | posInfin => simp [toTm] at h
  | negInfin => simp [toTm] at h

end Jkit.Db.PosixTime
