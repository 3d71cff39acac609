import Mathlib.Data.BitVec
import Mathlib.Data.Int.LeastGreatest
import Mathlib.Logic.Equiv.Defs

/-! # The proleptic Gregorian calendar

    Days are counted from the first of January 1970, seconds from the start of that day.
    A date and a moment carry the proof that their parts are in range, so that each of
    them is a date and a time of day there is.

    - `Date.dayNumber_bijective`: every day has exactly one date.
    - `Moment.instant_bijective`: every second has exactly one date and time of day.
-/

namespace Fennix.Calendar

/-! ## Section 1: Years -/

/-- A leap year. -/
def Leap (y : Int) : Prop := 4 ∣ y ∧ (¬ 100 ∣ y ∨ 400 ∣ y)

instance (y : Int) : Decidable (Leap y) :=
  inferInstanceAs (Decidable (4 ∣ y ∧ (¬ 100 ∣ y ∨ 400 ∣ y)))

/-- The days of a year. -/
def yearLength (y : Int) : Int := if Leap y then 366 else 365

/-- The leap years before a year, counted from the year 1. -/
def leapYears (y : Int) : Int := (y - 1) / 4 - (y - 1) / 100 + (y - 1) / 400

/-- The day on which a year starts. -/
def yearStart (y : Int) : Int := 365 * (y - 1970) + (leapYears y - leapYears 1970)

theorem yearLength_bounds (y : Int) : 365 ≤ yearLength y ∧ yearLength y ≤ 366 := by
  unfold yearLength
  split <;> omega

@[simp] theorem yearStart_epoch : yearStart 1970 = 0 := by
  simp [yearStart]

theorem yearStart_succ (y : Int) : yearStart (y + 1) = yearStart y + yearLength y := by
  unfold yearStart yearLength leapYears
  split
  case isTrue h =>
    unfold Leap at h
    omega
  case isFalse h =>
    unfold Leap at h
    omega

theorem yearStart_lt {y z : Int} (h : y < z) : yearStart y < yearStart z := by
  unfold yearStart leapYears
  omega

theorem yearStart_bounds (y : Int) :
    (1970 ≤ y → 365 * (y - 1970) ≤ yearStart y ∧ yearStart y ≤ 366 * (y - 1970)) ∧
      (y ≤ 1970 → 366 * (y - 1970) ≤ yearStart y ∧ yearStart y ≤ 365 * (y - 1970)) := by
  unfold yearStart leapYears
  omega

/-- The day is in the year. -/
def InYear (n y : Int) : Prop := yearStart y ≤ n ∧ n < yearStart (y + 1)

theorem exists_inYear (n : Int) : ∃ y, InYear n y := by
  have hbdd : ∃ b, ∀ z, yearStart z ≤ n → z ≤ b := by
    refine ⟨1970 + max n 0, fun z hz => ?_⟩
    have := yearStart_bounds z
    omega
  have hinh : ∃ z, yearStart z ≤ n := by
    refine ⟨1970 - max (-n) 0, ?_⟩
    have := yearStart_bounds (1970 - max (-n) 0)
    omega
  obtain ⟨y, hy, hmax⟩ := Int.exists_greatest_of_bdd hbdd hinh
  refine ⟨y, hy, ?_⟩
  by_contra h
  have := hmax (y + 1) (by omega)
  omega

theorem InYear.unique {n y z : Int} (hy : InYear n y) (hz : InYear n z) : y = z := by
  -- Of two years the later one starts only after the earlier one ends.
  have hle : ∀ {y z : Int}, InYear n y → InYear n z → y ≤ z := by
    intro y z hy hz
    by_contra h
    have h1 := hy.1
    have h2 := hz.2
    obtain rfl | h3 : y = z + 1 ∨ z + 1 < y := by omega
    · omega
    · have := yearStart_lt h3
      omega
  have := hle hy hz
  have := hle hz hy
  omega

theorem InYear.distance {n y : Int} (h : InYear n y) : (y - 1970).natAbs ≤ n.natAbs := by
  have h1 := yearStart_bounds y
  have h2 := yearStart_bounds (y + 1)
  have h3 := h.1
  have h4 := h.2
  omega

/-! ## Section 2: Months -/

/-- The days of a month; the months are counted from 0. -/
def monthLength (y : Int) : Nat → Int
  | 1 => if Leap y then 29 else 28
  | 3 | 5 | 8 | 10 => 30
  | _ => 31

/-- The days of a year before a month. -/
def monthStart (y : Int) : Nat → Int
  | 0 => 0
  | m + 1 => monthStart y m + monthLength y m

theorem monthLength_pos (y : Int) (m : Nat) : 0 < monthLength y m := by
  unfold monthLength
  split <;> (try split) <;> omega

theorem monthLength_le (y : Int) (m : Nat) : monthLength y m ≤ 31 := by
  unfold monthLength
  split <;> (try split) <;> omega

theorem monthStart_year (y : Int) : monthStart y 12 = yearLength y := by
  simp only [monthStart, monthLength, yearLength]
  split <;> omega

theorem monthStart_mono (y : Int) {m k : Nat} (h : m ≤ k) : monthStart y m ≤ monthStart y k := by
  induction h with
  | refl => exact le_rfl
  | step h ih =>
    have := monthLength_pos y
    exact ih.trans (by simp only [monthStart]; grind)

theorem monthStart_nonneg (y : Int) (m : Nat) : 0 ≤ monthStart y m :=
  monthStart_mono y (Nat.zero_le m)

theorem exists_month {y d : Int} (h0 : 0 ≤ d) (hd : d < yearLength y) :
    ∃ m < 12, monthStart y m ≤ d ∧ d < monthStart y (m + 1) := by
  rw [← monthStart_year] at hd
  -- The last month that does not start after the day, among the first `k`.
  have hlast : ∀ k, d < monthStart y k → ∃ m < k, monthStart y m ≤ d ∧ d < monthStart y (m + 1) := by
    intro k
    induction k with
    | zero =>
      intro hk
      simp only [monthStart] at hk
      omega
    | succ k ih =>
      intro hk
      by_cases hlt : d < monthStart y k
      · obtain ⟨m, hm, hin⟩ := ih hlt
        exact ⟨m, by omega, hin⟩
      · exact ⟨k, by omega, by omega, hk⟩
  exact hlast 12 hd

theorem month_unique {y d : Int} {m k : Nat} (hm : monthStart y m ≤ d ∧ d < monthStart y (m + 1))
    (hk : monthStart y k ≤ d ∧ d < monthStart y (k + 1)) : m = k := by
  have h1 := monthStart_mono y (m := m + 1) (k := k)
  have h2 := monthStart_mono y (m := k + 1) (k := m)
  omega

/-! ## Section 3: Dates -/

/-- A date. -/
@[ext] structure Date where
  year : Int
  month : Nat
  day : Int
  month_lt : month < 12
  one_le_day : 1 ≤ day
  day_le : day ≤ monthLength year month

namespace Date

/-- The day of the year, counted from 0. -/
def ordinal (d : Date) : Int := monthStart d.year d.month + (d.day - 1)

/-- The number of a date's day. -/
def dayNumber (d : Date) : Int := yearStart d.year + d.ordinal

/-- The day of the week; Sunday is 0. The first day counted is a Thursday. -/
def weekday (d : Date) : Int := (d.dayNumber + 4) % 7

theorem in_month (d : Date) :
    monthStart d.year d.month ≤ d.ordinal ∧ d.ordinal < monthStart d.year (d.month + 1) := by
  have h1 := d.one_le_day
  have h2 := d.day_le
  simp only [ordinal, monthStart]
  omega

theorem ordinal_bounds (d : Date) : 0 ≤ d.ordinal ∧ d.ordinal < yearLength d.year := by
  have h1 := d.in_month
  have h2 := monthStart_nonneg d.year d.month
  have h3 := monthStart_mono d.year d.month_lt
  rw [monthStart_year] at h3
  simp only [Nat.succ_eq_add_one] at h3
  omega

theorem in_year (d : Date) : InYear d.dayNumber d.year := by
  have := d.ordinal_bounds
  unfold InYear dayNumber
  rw [yearStart_succ]
  omega

theorem dayNumber_bijective : Function.Bijective dayNumber := by
  constructor
  · intro d e h
    have hyear : d.year = e.year := d.in_year.unique (h ▸ e.in_year)
    have hordinal : d.ordinal = e.ordinal := by
      unfold dayNumber at h
      rw [hyear] at h
      omega
    have hmonth : d.month = e.month := by
      refine month_unique d.in_month ?_
      rw [hordinal, hyear]
      exact e.in_month
    have hday : d.day = e.day := by
      unfold ordinal at hordinal
      rw [hyear, hmonth] at hordinal
      omega
    exact Date.ext hyear hmonth hday
  · intro n
    obtain ⟨y, hy⟩ := exists_inYear n
    have hlt := hy.2
    rw [yearStart_succ] at hlt
    obtain ⟨m, hm, hin⟩ := exists_month (y := y) (d := n - yearStart y) (by have := hy.1; omega) (by omega)
    simp only [monthStart] at hin
    refine ⟨⟨y, m, n - yearStart y - monthStart y m + 1, hm, by omega, by omega⟩, ?_⟩
    simp only [dayNumber, ordinal]
    omega

end Date

/-! ## Section 4: Moments -/

/-- A date and a time of day. -/
@[ext] structure Moment where
  date : Date
  hour : Int
  minute : Int
  second : Int
  hour_bounds : 0 ≤ hour ∧ hour < 24
  minute_bounds : 0 ≤ minute ∧ minute < 60
  second_bounds : 0 ≤ second ∧ second < 60

namespace Moment

/-- The second a moment denotes. -/
def instant (m : Moment) : Int :=
  86400 * m.date.dayNumber + (3600 * m.hour + (60 * m.minute + m.second))

theorem digits (m : Moment) :
    m.date.dayNumber = m.instant / 86400 ∧ m.hour = m.instant % 86400 / 3600 ∧
      m.minute = m.instant % 86400 % 3600 / 60 ∧ m.second = m.instant % 86400 % 3600 % 60 := by
  have h1 := m.hour_bounds
  have h2 := m.minute_bounds
  have h3 := m.second_bounds
  unfold instant
  omega

theorem instant_bijective : Function.Bijective instant := by
  constructor
  · intro m k h
    obtain ⟨h1, h2, h3, h4⟩ := m.digits
    obtain ⟨k1, k2, k3, k4⟩ := k.digits
    rw [h] at h1 h2 h3 h4
    have hdate : m.date = k.date := Date.dayNumber_bijective.injective (h1.trans k1.symm)
    exact Moment.ext hdate (h2.trans k2.symm) (h3.trans k3.symm) (h4.trans k4.symm)
  · intro t
    obtain ⟨d, hd⟩ := Date.dayNumber_bijective.surjective (t / 86400)
    refine ⟨⟨d, t % 86400 / 3600, t % 86400 % 3600 / 60, t % 86400 % 3600 % 60,
      by omega, by omega, by omega⟩, ?_⟩
    simp only [instant, hd]
    omega

end Moment

/-- The moment a second is denoted by. -/
noncomputable def moment (t : Int) : Moment := (Equiv.ofBijective _ Moment.instant_bijective).symm t

theorem instant_eq_iff {m : Moment} {t : Int} : m.instant = t ↔ m = moment t :=
  (Equiv.eq_symm_apply (Equiv.ofBijective _ Moment.instant_bijective)).symm

@[simp] theorem moment_instant (t : Int) : (moment t).instant = t := instant_eq_iff.mpr rfl

end Fennix.Calendar
