import Mathlib.Algebra.Group.Nat.Defs

/-!
# The Gregorian calendar

Days are counted from the first of January of the year 1, in both directions.  The date of a
day is found as in the `time` package of Go: whole cycles of 400, 100 and 4 years and single
years are cut off one after the other.  The last year of a cycle takes its extra day.
-/

namespace Gofusion.Lib.Calendar

structure Date where
  year : Int
  month : Nat
  day : Nat
deriving DecidableEq, Repr

def isLeap (year : Int) : Bool := year % 4 = 0 && (year % 100 ≠ 0 || year % 400 = 0)

theorem isLeap_iff :
    isLeap year = true ↔ year % 4 = 0 ∧ (year % 100 ≠ 0 ∨ year % 400 = 0) := by
  simp [isLeap]

def daysBeforeYear (year : Int) : Int :=
  365 * (year - 1) + (year - 1) / 4 - (year - 1) / 100 + (year - 1) / 400

def daysIn (leap : Bool) (month : Nat) : Nat :=
  if month = 2 then (if leap then 29 else 28)
  else if month ∈ [4, 6, 9, 11] then 30 else 31

def daysBeforeMonth (leap : Bool) : Nat → Nat
  | 0 | 1 => 0
  | month + 2 => daysBeforeMonth leap (month + 1) + daysIn leap (month + 1)

def Date.days (d : Date) : Int :=
  daysBeforeYear d.year + daysBeforeMonth (isLeap d.year) d.month + (d.day - 1)

/-- A month of the year and a day of this month. -/
def Date.Valid (d : Date) : Prop :=
  1 ≤ d.month ∧ d.month ≤ 12 ∧ 1 ≤ d.day ∧ d.day ≤ daysIn (isLeap d.year) d.month

instance (d : Date) : Decidable d.Valid := by unfold Date.Valid; infer_instance

theorem Date.Valid.lt_hundred {d : Date} (h : d.Valid) : d.month < 10 ^ 2 ∧ d.day < 10 ^ 2 := by
  obtain ⟨-, hmonth, -, hday⟩ := h
  have hle : daysIn (isLeap d.year) d.month ≤ 31 := by
    unfold daysIn
    split
    · split <;> decide
    · split <;> decide
  omega

/-! ## The date of a day -/

/-- The cycles of 400, 100 and 4 years before a day, the years behind them and the days of the
last year. -/
structure Cycles where
  n400 : Int
  n100 : Int
  n4 : Int
  n : Int
  yday : Int
deriving DecidableEq, Repr

/-- The day that a cycle has at its end belongs to its last part. -/
def cycles (days : Int) : Cycles :=
  let d400 := days % 146097
  let n100 := d400 / 36524 - d400 / 36524 / 4
  let d100 := d400 - 36524 * n100
  let n4 := d100 / 1461
  let d4 := d100 - 1461 * n4
  let n := d4 / 365 - d4 / 365 / 4
  { n400 := days / 146097, n100, n4, n, yday := d4 - 365 * n }

def Cycles.year (c : Cycles) : Int := 400 * c.n400 + 100 * c.n100 + 4 * c.n4 + c.n + 1

/-- The month, from `month` on, and the day in it. -/
def cutMonths (leap : Bool) : (fuel month yday : Nat) → Nat × Nat
  | 0, month, yday => (month, yday + 1)
  | fuel + 1, month, yday =>
    if yday < daysIn leap month then (month, yday + 1)
    else cutMonths leap fuel (month + 1) (yday - daysIn leap month)

def dateOfDays (days : Int) : Date :=
  let c := cycles days
  let md := cutMonths (isLeap c.year) 11 1 c.yday.toNat
  { year := c.year, month := md.1, day := md.2 }

/-- The parts of a day, with the bounds of each. -/
theorem cycles_spec (days : Int) :
    let c := cycles days
    days = 146097 * c.n400 + 36524 * c.n100 + 1461 * c.n4 + 365 * c.n + c.yday ∧
      (0 ≤ c.n100 ∧ c.n100 ≤ 3) ∧ (0 ≤ c.n4 ∧ c.n4 ≤ 24) ∧ (0 ≤ c.n ∧ c.n ≤ 3) ∧
      0 ≤ c.yday ∧ (c.yday < 365 ∨ c.yday = 365 ∧ c.n = 3 ∧ (c.n4 = 24 → c.n100 = 3)) := by
  simp only [cycles]
  omega

theorem daysBeforeYear_year (days : Int) :
    daysBeforeYear (cycles days).year + (cycles days).yday = days := by
  obtain ⟨hdays, h100, h4, h1, -⟩ := cycles_spec days
  simp only [daysBeforeYear, Cycles.year]
  omega

theorem yday_lt (days : Int) :
    (cycles days).yday < 365 + (if isLeap (cycles days).year then 1 else 0) := by
  obtain ⟨hdays, h100, h4, h1, hyday, hlast⟩ := cycles_spec days
  rcases hlast with hlast | ⟨hlast, hn, hn4⟩
  · split <;> omega
  · have hleap : isLeap (cycles days).year = true := by
      rw [isLeap_iff, Cycles.year]
      omega
    rw [if_pos hleap]
    omega

/-- The month and the day of a day of the year. -/
theorem cutMonths_spec (leap : Bool) : ∀ yday < 365 + (if leap then 1 else 0),
    let md := cutMonths leap 11 1 yday
    1 ≤ md.1 ∧ md.1 ≤ 12 ∧ 1 ≤ md.2 ∧ md.2 ≤ daysIn leap md.1 ∧
      daysBeforeMonth leap md.1 + md.2 = yday + 1 := by
  cases leap <;> decide +kernel

/-- The month of a day number. -/
theorem month_spec (days : Int) :
    let c := cycles days
    let md := cutMonths (isLeap c.year) 11 1 c.yday.toNat
    1 ≤ md.1 ∧ md.1 ≤ 12 ∧ 1 ≤ md.2 ∧ md.2 ≤ daysIn (isLeap c.year) md.1 ∧
      daysBeforeMonth (isLeap c.year) md.1 + md.2 = c.yday.toNat + 1 := by
  refine cutMonths_spec _ _ ?_
  have hlt := yday_lt days
  generalize isLeap (cycles days).year = leap at hlt ⊢
  cases leap <;> simp only [if_true, Bool.false_eq_true, if_false] at hlt ⊢ <;> omega

theorem dateOfDays_valid (days : Int) : (dateOfDays days).Valid := by
  obtain ⟨hmonth, hmonth', hday, hday', -⟩ := month_spec days
  exact ⟨hmonth, hmonth', hday, hday'⟩

/-- Dates and day numbers are inverse. -/
theorem days_dateOfDays (days : Int) : (dateOfDays days).days = days := by
  obtain ⟨-, -, hday, -, hmonth⟩ := month_spec days
  have hyear := daysBeforeYear_year days
  obtain ⟨-, -, -, -, hyday, -⟩ := cycles_spec days
  simp only [Date.days, dateOfDays]
  omega

example : dateOfDays 738944 = ⟨2024, 2, 29⟩ := by decide

end Gofusion.Lib.Calendar
