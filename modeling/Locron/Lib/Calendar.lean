import Mathlib.Tactic

set_option autoImplicit false

/-! # The proleptic Gregorian calendar on day numbers

A date is the number `n : Int` of days since 0000-01-01. `ofDay n` reads off year, month and
day of month, `weekday n` the day of the week. Everything is periodic with the 400-year cycle of
`cycleDays` days.

The computation counts years from the first of March, so that a leap day is always the last
day of its year: a cycle is four centuries, a century 25 groups of four years, a group four
years, and only the last century, group and year of each level can be one day longer.
-/

namespace Calendar

def cycleDays : Int := 146097

/-- A calendar date. -/
structure Civil where
  year : Int
  month : Int
  day : Int
  deriving DecidableEq, Repr

/-! ## Years that start in March -/

/-- Year of the cycle (`0` to `399`) and day of that year, for day `e` of a cycle that starts
on the first of March. -/
def marchYear (e : Int) : Int × Int :=
  let c := min (e / 36524) 3
  let r := e - 36524 * c
  let q := r / 1461
  let s := r - 1461 * q
  let y := min (s / 365) 3
  (100 * c + 4 * q + y, s - 365 * y)

/-- Month (`0` is March) and day of month of day `d` of a March-based year. -/
def marchMonth (d : Int) : Int × Int :=
  let m := (5 * d + 2) / 153
  (m, d - (153 * m + 2) / 5 + 1)

/-- The date of day number `n`. -/
def ofDay (n : Int) : Civil :=
  let z := n - 60
  let y := marchYear (z % cycleDays)
  let m := marchMonth y.2
  if m.1 < 10 then ⟨400 * (z / cycleDays) + y.1, m.1 + 3, m.2⟩
  else ⟨400 * (z / cycleDays) + y.1 + 1, m.1 - 9, m.2⟩

/-- Day of the week of day number `n`, Sunday being `0`: 0000-01-01 is a Saturday. -/
def weekday (n : Int) : Int := (n + 6) % 7

/-! ## Dates -/

/-- The date built from a 400-year cycle, a March-based year and a month and day of it. -/
def ofMarch (k y : Int) (m : Int × Int) : Civil :=
  if m.1 < 10 then ⟨400 * k + y, m.1 + 3, m.2⟩ else ⟨400 * k + y + 1, m.1 - 9, m.2⟩

theorem ofDay_eq_ofMarch (n : Int) :
    ofDay n = ofMarch ((n - 60) / cycleDays) (marchYear ((n - 60) % cycleDays)).1
      (marchMonth (marchYear ((n - 60) % cycleDays)).2) := rfl

example : ofDay 0 = ⟨0, 1, 1⟩ ∧ ofDay 59 = ⟨0, 2, 29⟩ ∧ ofDay 738944 = ⟨2023, 2, 28⟩ := by decide

/-! ## The 400-year cycle -/

theorem ofDay_month_add_cycle (n k : Int) :
    (ofDay (n + cycleDays * k)).month = (ofDay n).month := by
  have he : (n + cycleDays * k - 60) % cycleDays = (n - 60) % cycleDays := by
    rw [show n + cycleDays * k - 60 = n - 60 + cycleDays * k by ring, Int.add_mul_emod_self_left]
  rw [ofDay_eq_ofMarch, ofDay_eq_ofMarch, he]
  unfold ofMarch
  split <;> rfl

theorem ofDay_day_add_cycle (n k : Int) : (ofDay (n + cycleDays * k)).day = (ofDay n).day := by
  have he : (n + cycleDays * k - 60) % cycleDays = (n - 60) % cycleDays := by
    rw [show n + cycleDays * k - 60 = n - 60 + cycleDays * k by ring, Int.add_mul_emod_self_left]
  rw [ofDay_eq_ofMarch, ofDay_eq_ofMarch, he]
  unfold ofMarch
  split <;> rfl

theorem weekday_add_cycle (n k : Int) : weekday (n + cycleDays * k) = weekday n := by
  unfold weekday cycleDays
  omega

end Calendar
