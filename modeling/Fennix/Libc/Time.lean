import Fennix.Framework.Calendar
import Mathlib.Tactic.IntervalCases

/-! # Calendar time of the C library

    `gmtime_r`, `localtime_r` and `mktime` of `Userspace/libc/src/std/time.c`. An `int` or
    `long` that does not fit its type has no value here, so a call that has a result has
    computed it without overflow.

    - `gmtimeR_eq`: the fields are those of the moment that denotes the time.
    - `mktime_eq`: fields out of range count from the first of the normalised month.
    - `calendar_right`: both directions, for every time and every `struct tm`.
-/

namespace Fennix.Libc.Time

open Calendar

/-! ## Section 1: The functions -/

/-- The value is an `int`. -/
def FitsInt (x : Int) : Prop := -2 ^ 31 ≤ x ∧ x < 2 ^ 31

/-- The value is a `long` or a `time_t`. -/
def FitsLong (x : Int) : Prop := -2 ^ 63 ≤ x ∧ x < 2 ^ 63

instance (x : Int) : Decidable (FitsInt x) := inferInstanceAs (Decidable (_ ∧ _))

instance (x : Int) : Decidable (FitsLong x) := inferInstanceAs (Decidable (_ ∧ _))

/-- The result of `int` arithmetic. -/
def int (x : Int) : Option Int := if FitsInt x then some x else none

/-- The result of `long` arithmetic. -/
def long (x : Int) : Option Int := if FitsLong x then some x else none

/-- `struct tm` -/
structure Tm where
  sec : Int
  min : Int
  hour : Int
  mday : Int
  mon : Int
  year : Int
  wday : Int
  yday : Int
  isdst : Int
  gmtoff : Int
  zone : String
deriving DecidableEq, Repr

/-- `__is_leap` -/
def isLeap (year : Int) : Bool :=
  year.tmod 4 = 0 ∧ (year.tmod 100 ≠ 0 ∨ year.tmod 400 = 0)

/-- `__is_leap(year) ? 366 : 365` -/
def yearDays (year : Int) : Int := if isLeap year then 366 else 365

/-- `mdays` -/
def mdays : List Int := [31, 28, 31, 30, 31, 30, 31, 31, 30, 31, 30, 31]

/-- The days of a month, with the one that February has more in a leap year. -/
def dim (year : Int) (mon : Nat) : Int :=
  if mon = 1 ∧ isLeap year then mdays.getD mon 0 + 1 else mdays.getD mon 0

/-- The loop of `gmtime_r` that finds the year. -/
def findYear : Nat → Int → Int → Option (Int × Int)
  | 0, _, _ => none
  | rounds + 1, days, year =>
    if days < 0 ∨ yearDays year ≤ days then
      if yearDays year ≤ days then
        (int (year + 1)).bind fun next => findYear rounds (days - yearDays year) next
      else (int (year - 1)).bind fun next => findYear rounds (days + yearDays next) next
    else some (days, year)

/-- The loop of `gmtime_r` that finds the month, with the rounds it has left. -/
def findMonth (year : Int) : Nat → Nat → Int → Nat × Int
  | 0, mon, days => (mon, days)
  | rounds + 1, mon, days =>
    if dim year mon ≤ days then findMonth year rounds (mon + 1) (days - dim year mon)
    else (mon, days)

/-- `gmtime_r`; its loop over the years ends within as many rounds as there are days. -/
def gmtimeR (t : Int) : Option Tm :=
  let negative := t.tmod 86400 < 0
  let rem := if negative then t.tmod 86400 + 86400 else t.tmod 86400
  let days := if negative then t.tdiv 86400 - 1 else t.tdiv 86400
  let wday := (4 + days).tmod 7
  (findYear (days.natAbs + 1) days 1970).bind fun found =>
    (int (found.2 - 1900)).bind fun year =>
      let month := findMonth found.2 12 0 found.1
      some
        { sec := (rem.tmod 3600).tmod 60
          min := (rem.tmod 3600).tdiv 60
          hour := rem.tdiv 3600
          mday := month.2 + 1
          mon := month.1
          year := year
          wday := if wday < 0 then wday + 7 else wday
          yday := found.1
          isdst := 0
          gmtoff := 0
          zone := "UTC" }

/-- `localtime_r` -/
def localtimeR (timezone t : Int) : Option Tm := (long (t - timezone)).bind gmtimeR

/-- What `mktime` does with a field that is not below `unit` or is negative: the field,
    and the next greater one that takes the carry. -/
def carry (field unit next : Int) : Option (Int × Int) :=
  if unit ≤ field ∨ field < 0 then
    (int (next + field.tdiv unit)).bind fun next =>
      if field.tmod unit < 0 then
        (int (next - 1)).map fun next => (field.tmod unit + unit, next)
      else some (field.tmod unit, next)
  else some (field, next)

/-- The days of `n` years from `year` on. -/
def sumYears (year : Int) : Nat → Int
  | 0 => 0
  | n + 1 => yearDays year + sumYears (year + 1) n

/-- The days of the first `n` months. -/
def sumMonths (year : Int) : Nat → Int
  | 0 => 0
  | n + 1 => sumMonths year n + dim year n

/-- The days from the first of January 1970 to that of `year`. -/
def daysToYear (year : Int) : Int :=
  if 1970 ≤ year then sumYears 1970 (year - 1970).toNat
  else -sumYears year (1970 - year).toNat

/-- `mktime`: the result, and the fields as it leaves them. -/
def mktime (timezone : Int) (tm : Tm) : Option (Int × Tm) :=
  (int (tm.year + 1900)).bind fun year =>
  (carry tm.sec 60 tm.min).bind fun sec =>
  (carry sec.2 60 tm.hour).bind fun min =>
  (carry min.2 24 tm.mday).bind fun hour =>
  (carry tm.mon 12 year).bind fun mon =>
  (int (hour.2 - 1)).bind fun day =>
  let days := daysToYear mon.2 + sumMonths mon.2 mon.1.toNat + day
  (long (days * 86400 + hour.1 * 3600 + min.1 * 60 + sec.1)).bind fun t =>
  (long (t + timezone)).bind fun t =>
  (long (t - if 0 < tm.isdst then 3600 else 0)).bind fun t =>
  (localtimeR timezone t).map fun temp => (t, temp)

/-! ## Section 2: Arithmetic -/

theorem int_of_fits {x : Int} (h : FitsInt x) : int x = some x := if_pos h

theorem long_of_fits {x : Int} (h : FitsLong x) : long x = some x := if_pos h

variable {unit t timezone : Int}

/-- The truncating quotient and remainder, put right for a negative remainder, are the
    quotient and remainder that round down. -/
theorem tdiv_tmod_adjusted (x : Int) (hunit : 0 < unit) :
    (if x.tmod unit < 0 then x.tmod unit + unit else x.tmod unit) = x % unit ∧
      (if x.tmod unit < 0 then x.tdiv unit - 1 else x.tdiv unit) = x / unit := by
  have h1 := Int.emod_nonneg x hunit.ne'
  have h2 := Int.emod_lt_of_pos x hunit
  rw [Int.tmod_eq_emod, Int.tdiv_eq_ediv, Int.sign_eq_one_of_pos hunit]
  split <;> split <;> omega

/-- The field that takes a carry fits, before and after the remainder is put right. -/
def CarryFits (field unit next : Int) : Prop :=
  FitsInt (next + field.tdiv unit) ∧ FitsInt (next + field / unit)

instance (field unit next : Int) : Decidable (CarryFits field unit next) :=
  inferInstanceAs (Decidable (_ ∧ _))

theorem carry_eq {field next : Int} (hunit : 0 < unit) (h : CarryFits field unit next) :
    carry field unit next = some (field % unit, next + field / unit) := by
  obtain ⟨hmod, hdiv⟩ := tdiv_tmod_adjusted field hunit
  unfold carry
  split
  case isTrue =>
    rw [int_of_fits h.1, Option.bind_some]
    split
    case isTrue hneg =>
      rw [if_pos hneg] at hmod hdiv
      have hnext : next + field.tdiv unit - 1 = next + field / unit := by omega
      rw [hnext, int_of_fits h.2, hmod, Option.map_some]
    case isFalse hpos =>
      rw [if_neg hpos] at hmod hdiv
      rw [hmod, hdiv]
  case isFalse hrange =>
    -- A field in range is its own remainder.
    push Not at hrange
    rw [Int.emod_eq_of_lt hrange.2 hrange.1, Int.ediv_eq_zero_of_lt hrange.2 hrange.1, add_zero]

/-! ## Section 3: Years and months -/

theorem isLeap_iff (y : Int) : isLeap y = true ↔ Leap y := by
  simp only [isLeap, Leap, Int.dvd_iff_tmod_eq_zero, decide_eq_true_eq, ne_eq]

theorem yearDays_eq (y : Int) : yearDays y = yearLength y := by
  simp only [yearDays, yearLength, isLeap_iff]

theorem dim_eq (y : Int) {m : Nat} (hm : m < 12) : dim y m = monthLength y m := by
  simp only [dim, isLeap_iff]
  interval_cases m <;> simp [mdays, monthLength]

theorem findYear_eq {n y : Int} (hy : InYear n y) (hfits : FitsInt y) :
    ∀ (rounds : Nat) (year : Int), FitsInt year → (y - year).natAbs < rounds →
      findYear rounds (n - yearStart year) year = some (n - yearStart y, y) := by
  intro rounds
  induction rounds with
  | zero => intro year _ h; omega
  | succ rounds ih =>
    intro year hyear hrounds
    have hstart := hy.1
    have hend := hy.2
    have hstep := yearStart_succ year
    unfold findYear
    rw [yearDays_eq]
    -- The year reached so far is the one of the day, an earlier or a later one.
    obtain rfl | hlt | hgt : year = y ∨ year < y ∨ y < year := by omega
    case inl =>
      rw [if_neg (by omega)]
    case inr.inl =>
      have hle : yearStart (year + 1) ≤ yearStart y := by
        obtain rfl | h : year + 1 = y ∨ year + 1 < y := by omega
        · exact le_rfl
        · exact (yearStart_lt h).le
      have hnext : FitsInt (year + 1) := by unfold FitsInt at *; omega
      have hdays : n - yearStart year - yearLength year = n - yearStart (year + 1) := by omega
      rw [if_pos (by omega), if_pos (by omega), int_of_fits hnext, Option.bind_some, hdays]
      exact ih (year + 1) hnext (by omega)
    case inr.inr =>
      have hle : yearStart (y + 1) ≤ yearStart year := by
        obtain rfl | h : y + 1 = year ∨ y + 1 < year := by omega
        · exact le_rfl
        · exact (yearStart_lt h).le
      have hlength := yearLength_bounds year
      have hbefore := yearStart_succ (year - 1)
      rw [Int.sub_add_cancel] at hbefore
      have hnext : FitsInt (year - 1) := by unfold FitsInt at *; omega
      have hdays : n - yearStart year + yearLength (year - 1) = n - yearStart (year - 1) := by omega
      rw [if_pos (by omega), if_neg (by omega), int_of_fits hnext, Option.bind_some, yearDays_eq,
        hdays]
      exact ih (year - 1) hnext (by omega)

theorem findMonth_eq {y d : Int} {m : Nat} (hm : m < 12) (hin : monthStart y m ≤ d)
    (hout : d < monthStart y (m + 1)) : ∀ rounds mon : Nat, mon + rounds = 12 → mon ≤ m →
      findMonth y rounds mon (d - monthStart y mon) = (m, d - monthStart y m) := by
  intro rounds
  induction rounds with
  | zero => intro mon _ _; omega
  | succ rounds ih =>
    intro mon hrounds hle
    have hdim : dim y mon = monthLength y mon := dim_eq y (by omega)
    unfold findMonth
    rw [hdim]
    obtain rfl | hlt : mon = m ∨ mon < m := by omega
    case inl =>
      simp only [monthStart] at hout
      rw [if_neg (by omega)]
    case inr =>
      have hstart := monthStart_mono y (m := mon + 1) (k := m) (by omega)
      have hdays : d - monthStart y mon - monthLength y mon = d - monthStart y (mon + 1) := by
        simp only [monthStart]
        omega
      rw [if_pos (by simp only [monthStart] at hstart; omega), hdays]
      exact ih (mon + 1) (by omega) (by omega)

theorem sumYears_eq (n : Nat) : ∀ y : Int, sumYears y n = yearStart (y + n) - yearStart y := by
  induction n with
  | zero => intro y; simp [sumYears]
  | succ n ih =>
    intro y
    have hlast : y + 1 + (n : Int) = y + ((n + 1 : Nat) : Int) := by push_cast; omega
    rw [sumYears, ih, yearDays_eq, yearStart_succ, hlast]
    omega

theorem daysToYear_eq (y : Int) : daysToYear y = yearStart y := by
  unfold daysToYear
  split
  case isTrue h =>
    rw [sumYears_eq, Int.toNat_of_nonneg (by omega), yearStart_epoch]
    simp
  case isFalse h =>
    rw [sumYears_eq, Int.toNat_of_nonneg (by omega)]
    simp

theorem sumMonths_eq (y : Int) {n : Nat} (hn : n ≤ 12) : sumMonths y n = monthStart y n := by
  induction n with
  | zero => rfl
  | succ n ih => rw [sumMonths, monthStart, ih (by omega), dim_eq y (by omega)]

/-! ## Section 4: gmtime_r -/

/-- The fields of a moment, in their normal form. -/
def normal (m : Moment) : Tm where
  sec := m.second
  min := m.minute
  hour := m.hour
  mday := m.date.day
  mon := m.date.month
  year := m.date.year - 1900
  wday := m.date.weekday
  yday := m.date.ordinal
  isdst := 0
  gmtoff := 0
  zone := "UTC"

/-- The year of the moment can be counted as the source counts it. -/
def FitsYear (m : Moment) : Prop := FitsInt m.date.year ∧ FitsInt (m.date.year - 1900)

theorem gmtimeR_eq (h : FitsYear (moment t)) : gmtimeR t = some (normal (moment t)) := by
  obtain ⟨hday, hhour, hminute, hsecond⟩ := (moment t).digits
  rw [moment_instant] at hday hhour hminute hsecond
  have hyear := (moment t).date.in_year
  have hmonth := (moment t).date.in_month
  have hrounds := hyear.distance
  obtain ⟨hrem, hdays⟩ := tdiv_tmod_adjusted t (by decide : (0 : Int) < 86400)
  have hweek := (tdiv_tmod_adjusted (4 + t / 86400) (by decide : (0 : Int) < 7)).1
  have hfind := findYear_eq hyear h.1 ((t / 86400).natAbs + 1) 1970 (by decide)
    (by rw [← hday]; omega)
  rw [yearStart_epoch, sub_zero, hday] at hfind
  have hordinal : t / 86400 - yearStart (moment t).date.year = (moment t).date.ordinal := by
    rw [← hday]
    simp [Date.dayNumber]
  rw [hordinal] at hfind
  have hfindMonth := findMonth_eq (moment t).date.month_lt hmonth.1 hmonth.2 12 0 rfl (by omega)
  simp only [monthStart, sub_zero] at hfindMonth
  simp only [gmtimeR, hrem, hdays, hfind, Option.bind_some, int_of_fits h.2, hfindMonth, hweek,
    normal, Option.some.injEq, Tm.mk.injEq, true_and, and_true]
  have hrem0 : 0 ≤ t % 86400 := by omega
  have hrem1 : 0 ≤ t % 86400 % 3600 := by omega
  refine ⟨?_, ?_, ?_, ?_, ?_⟩
  · rw [Int.tmod_eq_emod_of_nonneg hrem0, Int.tmod_eq_emod_of_nonneg hrem1, hsecond]
  · rw [Int.tmod_eq_emod_of_nonneg hrem0, Int.tdiv_eq_ediv_of_nonneg hrem1, hminute]
  · rw [Int.tdiv_eq_ediv_of_nonneg hrem0, hhour]
  · simp [Date.ordinal]
  · rw [Date.weekday, hday, add_comm]

theorem fitsLong_of_year (h : FitsYear (moment t)) : FitsLong t := by
  have hin := (moment t).date.in_year
  rw [(moment t).digits.1, moment_instant] at hin
  have h1 := yearStart_bounds (moment t).date.year
  have h2 := yearStart_bounds ((moment t).date.year + 1)
  have h3 := hin.1
  have h4 := hin.2
  have h5 := h.1
  unfold FitsInt at h5
  unfold FitsLong
  omega

theorem localtimeR_eq (h : FitsYear (moment (t - timezone))) :
    localtimeR timezone t = some (normal (moment (t - timezone))) := by
  rw [localtimeR, long_of_fits (fitsLong_of_year h), Option.bind_some, gmtimeR_eq h]

/-! ## Section 5: mktime -/

namespace Tm

/-- The year the months of a `struct tm` are normalised to. -/
def normalYear (tm : Tm) : Int := tm.year + 1900 + tm.mon / 12

/-- The second at which the normalised month starts. -/
def monthInstant (tm : Tm) : Int :=
  86400 * (yearStart tm.normalYear + monthStart tm.normalYear (tm.mon % 12).toNat)

/-- The local time a `struct tm` stands for: every field counts from the first of the
    normalised month. -/
def instant (tm : Tm) : Int :=
  tm.monthInstant + 86400 * (tm.mday - 1) + 3600 * tm.hour + 60 * tm.min + tm.sec

/-- The minutes, hours and days with what is carried to them. -/
def minutes (tm : Tm) : Int := tm.min + tm.sec / 60

@[inherit_doc minutes] def hours (tm : Tm) : Int := tm.hour + tm.minutes / 60

@[inherit_doc minutes] def days (tm : Tm) : Int := tm.mday + tm.hours / 24

/-- The `int` arithmetic on the fields does not overflow. -/
structure NoOverflow (tm : Tm) : Prop where
  year : FitsInt (tm.year + 1900)
  sec : CarryFits tm.sec 60 tm.min
  min : CarryFits tm.minutes 60 tm.hour
  hour : CarryFits tm.hours 24 tm.mday
  mon : CarryFits tm.mon 12 (tm.year + 1900)
  day : FitsInt (tm.days - 1)

end Tm

theorem mktime_eq {tm : Tm} (hdst : tm.isdst ≤ 0) (h : tm.NoOverflow)
    (hyear : FitsYear (moment tm.instant)) (hresult : FitsLong (tm.instant + timezone)) :
    mktime timezone tm = some (tm.instant + timezone, normal (moment tm.instant)) := by
  have hmon : (tm.mon % 12).toNat ≤ 12 := by omega
  -- The digits of the fields add up to what the fields themselves stand for.
  have hsum : (yearStart tm.normalYear + monthStart tm.normalYear (tm.mon % 12).toNat +
      (tm.days - 1)) * 86400 + tm.hours % 24 * 3600 + tm.minutes % 60 * 60 + tm.sec % 60 =
        tm.instant := by
    simp only [Tm.instant, Tm.monthInstant, Tm.days, Tm.hours, Tm.minutes]
    omega
  have hlocal : localtimeR timezone (tm.instant + timezone) = some (normal (moment tm.instant)) := by
    have hback : tm.instant + timezone - timezone = tm.instant := add_sub_cancel_right _ _
    rw [localtimeR_eq (by rwa [hback]), hback]
  have hsec := carry_eq (by omega) h.sec
  have hmin := carry_eq (by omega) h.min
  have hhour := carry_eq (by omega) h.hour
  have hmonth := carry_eq (by omega) h.mon
  rw [← Tm.minutes] at hsec
  rw [← Tm.hours] at hmin
  rw [← Tm.days] at hhour
  rw [← Tm.normalYear] at hmonth
  simp only [mktime, int_of_fits h.year, hsec, hmin, hhour, hmonth, int_of_fits h.day,
    Option.bind_some, daysToYear_eq, sumMonths_eq _ hmon, hsum,
    long_of_fits (fitsLong_of_year hyear), long_of_fits hresult, if_neg (Int.not_lt.mpr hdst),
    sub_zero, hlocal, Option.map_some]

theorem instant_normal (m : Moment) : (normal m).instant = m.instant := by
  have h := m.date.month_lt
  have hdiv : (m.date.month : Int) / 12 = 0 := by omega
  have hmod : ((m.date.month : Int) % 12).toNat = m.date.month := by omega
  simp only [Tm.instant, Tm.monthInstant, Tm.normalYear, normal, hdiv, hmod, Moment.instant,
    Date.dayNumber, Date.ordinal, sub_add_cancel, add_zero]
  omega

theorem carryFits_of_range {field next : Int} (h0 : 0 ≤ field) (hlt : field < unit)
    (hnext : FitsInt next) : CarryFits field unit next := by
  unfold CarryFits
  rw [Int.tdiv_eq_ediv_of_nonneg h0, Int.ediv_eq_zero_of_lt h0 hlt, add_zero]
  exact ⟨hnext, hnext⟩

theorem noOverflow_normal {m : Moment} (h : FitsYear m) : (normal m).NoOverflow := by
  have hsec := m.second_bounds
  have hmin := m.minute_bounds
  have hhour := m.hour_bounds
  have hmon := m.date.month_lt
  have hday : 1 ≤ m.date.day ∧ m.date.day ≤ 31 := ⟨m.date.one_le_day,
    m.date.day_le.trans (monthLength_le m.date.year m.date.month)⟩
  have hminutes : (normal m).minutes = m.minute := by
    simp only [Tm.minutes, normal]
    omega
  have hhours : (normal m).hours = m.hour := by
    simp only [Tm.hours, hminutes]
    simp only [normal]
    omega
  have hdays : (normal m).days = m.date.day := by
    simp only [Tm.days, hhours]
    simp only [normal]
    omega
  have hyear : (normal m).year + 1900 = m.date.year := by simp [normal]
  constructor
  case year => rw [hyear]; exact h.1
  case sec => exact carryFits_of_range hsec.1 hsec.2 (by simp only [normal, FitsInt]; omega)
  case min =>
    rw [hminutes]
    exact carryFits_of_range hmin.1 hmin.2 (by simp only [normal, FitsInt]; omega)
  case hour =>
    rw [hhours]
    exact carryFits_of_range hhour.1 hhour.2 (by simp only [normal, FitsInt]; omega)
  case mon =>
    rw [hyear]
    exact carryFits_of_range (by simp only [normal]; omega) (by simp only [normal]; omega) h.1
  case day => rw [hdays]; unfold FitsInt; omega

theorem mktime_normal (ht : FitsLong t) (hyear : FitsYear (moment (t - timezone))) :
    mktime timezone (normal (moment (t - timezone))) =
      some (t, normal (moment (t - timezone))) := by
  have hinstant : (normal (moment (t - timezone))).instant = t - timezone := by
    rw [instant_normal, moment_instant]
  have hresult : FitsLong ((normal (moment (t - timezone))).instant + timezone) := by
    rwa [hinstant, sub_add_cancel]
  rw [mktime_eq le_rfl (noOverflow_normal hyear) (by rwa [hinstant]) hresult, hinstant,
    sub_add_cancel]

/-! ## Section 6: The conversions -/

/-- For every time whose year is an `int`, `gmtime_r` gives the fields of the only moment
    that denotes it, and `mktime` gives back the time that `localtime_r` was given. For
    every `struct tm`, in range or not, `mktime` returns the time the fields add up to, and
    leaves the fields of the moment that denotes it. -/
theorem calendar_right :
    (∀ t, FitsLong t → FitsYear (moment t) →
      gmtimeR t = some (normal (moment t)) ∧ ∀ m : Moment, m.instant = t ↔ m = moment t) ∧
    (∀ timezone t, FitsLong t → FitsYear (moment (t - timezone)) →
      ∃ tm, localtimeR timezone t = some tm ∧ tm = normal (moment (t - timezone)) ∧
        mktime timezone tm = some (t, tm)) ∧
    ∀ timezone tm, tm.isdst ≤ 0 → tm.NoOverflow → FitsYear (moment tm.instant) →
      FitsLong (tm.instant + timezone) →
        mktime timezone tm = some (tm.instant + timezone, normal (moment tm.instant)) := by
  refine ⟨?_, ?_, ?_⟩
  · intro t _ hyear
    exact ⟨gmtimeR_eq hyear, fun m => instant_eq_iff⟩
  · intro timezone t ht hyear
    exact ⟨_, localtimeR_eq hyear, rfl, mktime_normal ht hyear⟩
  · intro timezone tm hdst hfits hyear hresult
    exact mktime_eq hdst hfits hyear hresult

/-- The last of February 2000, at midnight. -/
def leapDay : Moment where
  date := ⟨2000, 1, 29, by decide, by decide, by decide⟩
  hour := 0
  minute := 0
  second := 0
  hour_bounds := by decide
  minute_bounds := by decide
  second_bounds := by decide

/-- The same moment, counted from the first of the 27th month of 1998 and with a carry. -/
def leapDayCarried : Tm where
  sec := -60
  min := 1
  hour := 0
  mday := 0
  mon := 26
  year := 98
  wday := 0
  yday := 0
  isdst := 0
  gmtoff := 0
  zone := ""

theorem calendar_right_leapDay :
    gmtimeR 951782400 = some (normal leapDay) ∧
      localtimeR 3600 951786000 = some (normal leapDay) ∧
      mktime 3600 (normal leapDay) = some (951786000, normal leapDay) ∧
      mktime 3600 leapDayCarried = some (951786000, normal leapDay) := by
  have hmoment : moment 951782400 = leapDay := (instant_eq_iff.mp (by decide)).symm
  have hyear : FitsYear (moment 951782400) := by
    rw [hmoment]
    exact ⟨by decide, by decide⟩
  have hcarried : leapDayCarried.instant = 951782400 := by decide
  obtain ⟨hgmtime, hround, hmktime⟩ := calendar_right
  obtain ⟨tm, hlocal, htm, hback⟩ := hround 3600 951786000 (by decide) hyear
  have htm : tm = normal leapDay := htm.trans (congrArg normal hmoment)
  subst htm
  refine ⟨?_, hlocal, hback, ?_⟩
  · rw [(hgmtime 951782400 (by decide) hyear).1, hmoment]
  · have h := hmktime 3600 leapDayCarried (by decide)
      ⟨by decide, by decide, by decide, by decide, by decide, by decide⟩
      (by rw [hcarried]; exact hyear) (by decide)
    rw [h, hcarried, hmoment]
    rfl

end Fennix.Libc.Time
