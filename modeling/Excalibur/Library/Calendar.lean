import Mathlib

/-! # The Gregorian calendar

Dates and times of day in UTC, before and after 1970 alike, and their seconds since the
beginning of 1970.  A `DateTime` carries the proof that it names a day of the calendar
and a second of that day.

* `toSeconds_ofSeconds` says that every second has a date.
* `toSeconds_le_iff` is the order: the year decides, and within a year the digits of the
  month, the day and the time of day.
-/

namespace Excalibur.Library

/-! ## Years and months -/

def isLeap (year : Int) : Bool := year % 4 = 0 && (year % 100 ≠ 0 || year % 400 = 0)

/-- The days from the beginning of 1970 to the beginning of the year. -/
def yearStart (year : Int) : Int :=
  365 * (year - 1) + (year - 1) / 4 - (year - 1) / 100 + (year - 1) / 400 - 719162

def yearLength (leap : Bool) : Nat := if leap then 366 else 365

theorem yearStart_succ (year : Int) :
    yearStart (year + 1) = yearStart year + yearLength (isLeap year) := by
  have leap : isLeap year = true ↔ year % 4 = 0 ∧ (year % 100 ≠ 0 ∨ year % 400 = 0) := by
    simp [isLeap]
  unfold yearStart yearLength
  split
  · rename_i isLeapYear
    have divisible := leap.mp isLeapYear
    omega
  · rename_i common
    have notDivisible := mt leap.mpr common
    omega

theorem yearStart_le {first second : Int} (ordered : first ≤ second) :
    yearStart first ≤ yearStart second := by
  unfold yearStart
  omega

/-- The year of a day: an estimate, which is off by one at most. -/
def yearOf (day : Int) : Int :=
  let estimate := 400 * (day + 719162) / 146097 + 1
  if day < yearStart estimate then estimate - 1
  else if yearStart (estimate + 1) ≤ day then estimate + 1
  else estimate

theorem yearOf_spec (day : Int) : yearStart (yearOf day) ≤ day ∧ day < yearStart (yearOf day + 1) := by
  unfold yearOf
  dsimp only
  split
  · unfold yearStart at *
    omega
  · split
    · unfold yearStart at *
      omega
    · unfold yearStart at *
      omega

/-- The day of the year, counted from 0. -/
def dayOfYear (day : Int) : Nat := (day - yearStart (yearOf day)).toNat

theorem yearStart_add_dayOfYear (day : Int) : yearStart (yearOf day) + dayOfYear day = day := by
  have bounds := yearOf_spec day
  unfold dayOfYear
  omega

theorem dayOfYear_lt (day : Int) : dayOfYear day < yearLength (isLeap (yearOf day)) := by
  have bounds := yearOf_spec day
  have next := yearStart_succ (yearOf day)
  unfold dayOfYear
  omega

def monthLengths (leap : Bool) : List Nat :=
  [31, if leap then 29 else 28, 31, 30, 31, 30, 31, 31, 30, 31, 30, 31]

def monthLength (leap : Bool) (month : Nat) : Nat := (monthLengths leap).getD (month - 1) 0

/-- The days of the year before the month. -/
def monthStart (leap : Bool) (month : Nat) : Nat := ((monthLengths leap).take (month - 1)).sum

/-- The month of a day of the year, which is counted from 0. -/
def monthOf (leap : Bool) (day : Nat) : Nat :=
  (List.range 12).countP fun month => monthStart leap (month + 1) ≤ day

theorem monthOf_spec (leap : Bool) {day : Nat} (inside : day < yearLength leap) :
    1 ≤ monthOf leap day ∧ monthOf leap day ≤ 12 ∧ monthStart leap (monthOf leap day) ≤ day ∧
      day < monthStart leap (monthOf leap day) + monthLength leap (monthOf leap day) := by
  have all : ∀ leap, ∀ day < yearLength leap,
      1 ≤ monthOf leap day ∧ monthOf leap day ≤ 12 ∧ monthStart leap (monthOf leap day) ≤ day ∧
        day < monthStart leap (monthOf leap day) + monthLength leap (monthOf leap day) := by
    -- the days of one common and one leap year
    decide +kernel
  exact all leap day inside

theorem monthLength_le (leap : Bool) {month : Nat} (inside : month ≤ 12) :
    monthLength leap month ≤ 31 := by
  have all : ∀ leap, ∀ month ≤ 12, monthLength leap month ≤ 31 := by decide
  exact all leap month inside

theorem monthLength_mono {first second : Bool} (ordered : first → second) (month : Nat) :
    monthLength first month ≤ monthLength second month := by
  unfold monthLength monthLengths
  cases first
  · cases second
    · exact le_rfl
    · match month - 1 with
      | 0 | 1 => simp
      | later + 2 => simp
  · rw [ordered rfl]

/-- A month ends before a later one begins. -/
theorem monthStart_add_le (leap : Bool) {first second : Nat} (isMonth : 1 ≤ first)
    (ordered : first < second) (inside : second ≤ 12) :
    monthStart leap first + monthLength leap first ≤ monthStart leap second := by
  have all : ∀ leap, ∀ second ≤ 12, ∀ first < second, 1 ≤ first →
      monthStart leap first + monthLength leap first ≤ monthStart leap second := by decide
  exact all leap second inside first ordered isMonth

theorem monthEnd_le (leap : Bool) {month : Nat} (isMonth : 1 ≤ month) (inside : month ≤ 12) :
    monthStart leap month + monthLength leap month ≤ yearLength leap := by
  have all : ∀ leap, ∀ month ≤ 12, 1 ≤ month →
      monthStart leap month + monthLength leap month ≤ yearLength leap := by decide
  exact all leap month inside isMonth

/-! ## Dates with times -/

structure DateTime where
  year : Int
  month : Nat
  day : Nat
  hour : Nat
  minute : Nat
  second : Nat
  isMonth : 1 ≤ month ∧ month ≤ 12
  isDay : 1 ≤ day ∧ day ≤ monthLength (isLeap year) month
  isTime : hour < 24 ∧ minute < 60 ∧ second < 60
  deriving DecidableEq

namespace DateTime

/-- The date of the six numbers, if there is one. -/
def of? (year : Int) (month day hour minute second : Nat) : Option DateTime :=
  if valid : (1 ≤ month ∧ month ≤ 12) ∧ (1 ≤ day ∧ day ≤ monthLength (isLeap year) month) ∧
      hour < 24 ∧ minute < 60 ∧ second < 60 then
    some ⟨year, month, day, hour, minute, second, valid.1, valid.2.1, valid.2.2⟩
  else none

theorem of?_eq (t : DateTime) : of? t.year t.month t.day t.hour t.minute t.second = some t := by
  rw [of?, dif_pos ⟨t.isMonth, t.isDay, t.isTime⟩]

/-- The days since the beginning of 1970. -/
def days (t : DateTime) : Int :=
  yearStart t.year + monthStart (isLeap t.year) t.month + t.day - 1

/-- The seconds since the beginning of 1970. -/
def toSeconds (t : DateTime) : Int :=
  86400 * t.days + 3600 * t.hour + 60 * t.minute + t.second

/-- The digits of the month, the day, the hour, the minute and the second. -/
def stamp (t : DateTime) : Nat :=
  (((t.month * 100 + t.day) * 100 + t.hour) * 100 + t.minute) * 100 + t.second

theorem day_le (t : DateTime) : t.day ≤ 31 :=
  t.isDay.2.trans (monthLength_le (isLeap t.year) t.isMonth.2)

theorem days_bounds (t : DateTime) : yearStart t.year ≤ t.days ∧ t.days < yearStart (t.year + 1) := by
  have ends := monthEnd_le (isLeap t.year) t.isMonth.1 t.isMonth.2
  have isDay := t.isDay
  have next := yearStart_succ t.year
  unfold days
  omega

theorem toSeconds_lt_of_year_lt {t u : DateTime} (earlier : t.year < u.year) :
    t.toSeconds < u.toSeconds := by
  have before := t.days_bounds.2
  have between := yearStart_le (show t.year + 1 ≤ u.year by omega)
  have after := u.days_bounds.1
  have isTime := t.isTime
  unfold toSeconds
  omega

theorem toSeconds_lt_of_stamp_lt {t u : DateTime} (sameYear : t.year = u.year)
    (earlier : t.stamp < u.stamp) : t.toSeconds < u.toSeconds := by
  have tDay := t.isDay
  have uDay := u.isDay
  have tTime := t.isTime
  have uTime := u.isTime
  have tShort := t.day_le
  have uShort := u.day_le
  unfold stamp at earlier
  unfold toSeconds days
  rw [sameYear] at tDay ⊢
  rcases lt_trichotomy t.month u.month with monthBefore | sameMonth | monthAfter
  · have apart := monthStart_add_le (isLeap u.year) t.isMonth.1 monthBefore u.isMonth.2
    omega
  · -- in one month the stamps differ by the day and the time of day only
    rw [sameMonth] at earlier ⊢
    omega
  · omega

theorem toSeconds_eq_of_stamp_eq {t u : DateTime} (sameYear : t.year = u.year)
    (same : t.stamp = u.stamp) : t.toSeconds = u.toSeconds := by
  have tTime := t.isTime
  have uTime := u.isTime
  have tShort := t.day_le
  have uShort := u.day_le
  unfold stamp at same
  have sameMonth : t.month = u.month := by omega
  unfold toSeconds days
  rw [sameYear, sameMonth]
  omega

/-- The year decides, then the digits of the rest. -/
theorem toSeconds_le_iff (t u : DateTime) :
    t.toSeconds ≤ u.toSeconds ↔ t.year < u.year ∨ t.year = u.year ∧ t.stamp ≤ u.stamp := by
  rcases lt_trichotomy t.year u.year with before | same | after
  · have earlier := toSeconds_lt_of_year_lt before
    exact iff_of_true earlier.le (.inl before)
  · rcases lt_trichotomy t.stamp u.stamp with stampBefore | stampSame | stampAfter
    · have earlier := toSeconds_lt_of_stamp_lt same stampBefore
      exact iff_of_true earlier.le (.inr ⟨same, stampBefore.le⟩)
    · have equal := toSeconds_eq_of_stamp_eq same stampSame
      exact iff_of_true equal.le (.inr ⟨same, stampSame.le⟩)
    · have later := toSeconds_lt_of_stamp_lt same.symm stampAfter
      exact iff_of_false (by omega) (by omega)
  · have later := toSeconds_lt_of_year_lt after
    exact iff_of_false (by omega) (by omega)

/-- The date and time of a second. -/
def ofSeconds (x : Int) : DateTime where
  year := yearOf (x / 86400)
  month := monthOf (isLeap (yearOf (x / 86400))) (dayOfYear (x / 86400))
  day := dayOfYear (x / 86400) - monthStart (isLeap (yearOf (x / 86400)))
    (monthOf (isLeap (yearOf (x / 86400))) (dayOfYear (x / 86400))) + 1
  hour := (x % 86400).toNat / 3600
  minute := (x % 86400).toNat / 60 % 60
  second := (x % 86400).toNat % 60
  isMonth := by
    have inMonth := monthOf_spec _ (dayOfYear_lt (x / 86400))
    exact ⟨inMonth.1, inMonth.2.1⟩
  isDay := by
    have inMonth := monthOf_spec _ (dayOfYear_lt (x / 86400))
    omega
  isTime := by omega

theorem toSeconds_ofSeconds (x : Int) : (ofSeconds x).toSeconds = x := by
  have inYear := yearStart_add_dayOfYear (x / 86400)
  have inMonth := monthOf_spec _ (dayOfYear_lt (x / 86400))
  simp only [toSeconds, days, ofSeconds]
  omega

theorem year_ofSeconds_le {x y : Int} (ordered : x ≤ y) : (ofSeconds x).year ≤ (ofSeconds y).year := by
  have order := (toSeconds_le_iff (ofSeconds x) (ofSeconds y)).mp
    (by rwa [toSeconds_ofSeconds, toSeconds_ofSeconds])
  rcases order with before | ⟨same, -⟩
  · exact before.le
  · exact same.le

theorem year_ofSeconds_le_succ {x y : Int} (near : y ≤ x + 365 * 86400) :
    (ofSeconds y).year ≤ (ofSeconds x).year + 1 := by
  by_contra far
  -- a whole year would lie between the two
  have before := (ofSeconds x).days_bounds.2
  have after := (ofSeconds y).days_bounds.1
  have between := yearStart_le (show (ofSeconds x).year + 1 + 1 ≤ (ofSeconds y).year by omega)
  have long : 365 ≤ yearLength (isLeap ((ofSeconds x).year + 1)) := by
    unfold yearLength
    split <;> omega
  have isTime := (ofSeconds x).isTime
  rw [yearStart_succ] at between
  rw [← toSeconds_ofSeconds x, ← toSeconds_ofSeconds y] at near
  unfold toSeconds at near
  omega

end DateTime

example : (DateTime.ofSeconds 0).year = 1970 ∧ (DateTime.ofSeconds 0).stamp = 0101000000 := by
  decide +kernel

end Excalibur.Library
