/-
# OmarchyPool.Lib.Calendar -- the proleptic Gregorian calendar

A date, the day after it, and the number of days from 1970-01-01 to it.  The number is a closed form over
eras of four hundred years, in years that begin in March; that it counts days is `days_epoch` and
`days_next`.  An earlier date has fewer days before it (`days_lt_of_before`), and the date a number of days
is split into has that number (`days_civil`).
-/
import Mathlib.Data.Int.Order.Basic
import Mathlib.Tactic.IntervalCases
import Mathlib.Tactic.Linarith

namespace OmarchyPool.Lib

set_option autoImplicit false

structure Date where
  year : Int
  month : Int
  day : Int
deriving DecidableEq, Repr

namespace Date

def isLeap (year : Int) : Prop := year % 4 = 0 ∧ (year % 100 ≠ 0 ∨ year % 400 = 0)

instance (year : Int) : Decidable (isLeap year) := inferInstanceAs (Decidable (_ ∧ _))

def daysIn (year month : Int) : Int :=
  if month = 2 then (if isLeap year then 29 else 28)
  else if month = 4 ∨ month = 6 ∨ month = 9 ∨ month = 11 then 30 else 31

def Valid (date : Date) : Prop :=
  1 ≤ date.month ∧ date.month ≤ 12 ∧ 1 ≤ date.day ∧ date.day ≤ daysIn date.year date.month

instance (date : Date) : Decidable date.Valid := inferInstanceAs (Decidable (_ ∧ _ ∧ _ ∧ _))

/-- The day after. -/
def next (date : Date) : Date :=
  if date.day < daysIn date.year date.month then { date with day := date.day + 1 }
  else if date.month < 12 then ⟨date.year, date.month + 1, 1⟩
  else ⟨date.year + 1, 1, 1⟩

def Before (a b : Date) : Prop :=
  a.year < b.year ∨ a.year = b.year ∧ (a.month < b.month ∨ a.month = b.month ∧ a.day < b.day)

/-! ## Years that begin in March -/

/-- The March a date is counted from. -/
def marchYear (date : Date) : Int := if date.month ≤ 2 then date.year - 1 else date.year

/-- Months since March. -/
def marchMonth (month : Int) : Int := (month + 9) % 12

/-- Days from the March of a year to the first of a month. -/
def beforeMonth (marchMonth : Int) : Int := (153 * marchMonth + 2) / 5

/-- Days from the March of the year 0 to that of a year. -/
def beforeYear (year : Int) : Int := 365 * year + year / 4 - year / 100 + year / 400

/-- The number of days from 1970-01-01, by the era of four hundred years and the day in it. -/
def days (date : Date) : Int :=
  let year := date.marchYear
  let era := year / 400
  let yearOfEra := year - era * 400
  let dayOfYear := beforeMonth (marchMonth date.month) + date.day - 1
  let dayOfEra := yearOfEra * 365 + yearOfEra / 4 - yearOfEra / 100 + dayOfYear
  era * 146097 + dayOfEra - 719468

theorem days_eq (date : Date) :
    date.days = beforeYear date.marchYear + beforeMonth (marchMonth date.month) + date.day - 719469 := by
  simp only [days, beforeYear]
  omega

theorem beforeYear_succ (year : Int) :
    beforeYear (year + 1) = beforeYear year + if isLeap (year + 1) then 366 else 365 := by
  by_cases leap : isLeap (year + 1)
  · rw [if_pos leap]
    unfold isLeap at leap
    unfold beforeYear
    omega
  · rw [if_neg leap]
    unfold isLeap at leap
    unfold beforeYear
    omega

theorem beforeYear_add (year : Int) (n : Nat) : beforeYear year + 365 * n ≤ beforeYear (year + n) := by
  induction n with
  | zero => simp
  | succ n ih =>
      have step := beforeYear_succ (year + n)
      have least : (365 : Int) ≤ if isLeap (year + n + 1) then 366 else 365 := by split <;> omega
      push_cast
      rw [← add_assoc, step]
      linarith

/-- A month but February is as long as the way to the next one. -/
theorem daysIn_eq (year : Int) {month : Int} (low : 1 ≤ month) (high : month ≤ 12) (notFebruary : month ≠ 2) :
    daysIn year month = beforeMonth (marchMonth month + 1) - beforeMonth (marchMonth month) := by
  interval_cases month
  case «2» => exact absurd rfl notFebruary
  all_goals rfl

theorem daysIn_february (year : Int) : daysIn year 2 = beforeYear year - beforeYear (year - 1) - beforeMonth 11 := by
  have step := beforeYear_succ (year - 1)
  rw [sub_add_cancel] at step
  have start : beforeMonth 11 = 337 := by decide
  unfold daysIn
  rw [if_pos rfl, step, start]
  by_cases leap : isLeap year
  · rw [if_pos leap, if_pos leap]
    omega
  · rw [if_neg leap, if_neg leap]
    omega

theorem days_epoch : days ⟨1970, 1, 1⟩ = 0 := by decide

/-- The number counts the days. -/
theorem days_next {date : Date} (valid : date.Valid) : date.next.days = date.days + 1 := by
  obtain ⟨year, month, day⟩ := date
  obtain ⟨low, high, first, last⟩ := valid
  dsimp only at low high first last
  unfold next
  dsimp only
  by_cases within : day < daysIn year month
  · rw [if_pos within, days_eq, days_eq]
    dsimp only [marchYear]
    omega
  · rw [if_neg within]
    have is_last : day = daysIn year month := by omega
    subst is_last
    by_cases february : month = 2
    · subst february
      rw [if_pos (by decide), days_eq, days_eq, daysIn_february]
      have here : marchMonth 2 = 11 := by decide
      have there : beforeMonth (marchMonth 3) = 0 := by decide
      norm_num [marchYear, here, there]
      omega
    · rw [daysIn_eq year low high february]
      by_cases december : month < 12
      · rw [if_pos december, days_eq, days_eq]
        have following : marchMonth (month + 1) = marchMonth month + 1 := by
          unfold marchMonth
          omega
        have same : marchYear ⟨year, month + 1, 1⟩ = marchYear ⟨year, month, 1⟩ := by
          unfold marchYear
          dsimp only
          split <;> split <;> omega
        dsimp only [marchYear] at same ⊢
        rw [following, same]
        omega
      · rw [if_neg december, days_eq, days_eq]
        have twelfth : month = 12 := by omega
        subst twelfth
        have here : marchMonth 12 + 1 = marchMonth 1 := by decide
        norm_num [marchYear, here]
        omega

/-! ## Order -/

theorem beforeYear_mono {a b : Int} (less : a ≤ b) : beforeYear a ≤ beforeYear b := by
  obtain ⟨n, rfl⟩ := Int.le.dest less
  have apart := beforeYear_add a n
  omega

/-- The last day of a year that begins in March comes before the next year. -/
theorem beforeMonth_add_le {date : Date} (valid : date.Valid) :
    beforeMonth (marchMonth date.month) + date.day ≤ beforeYear (date.marchYear + 1) - beforeYear date.marchYear := by
  obtain ⟨year, month, day⟩ := date
  obtain ⟨low, high, first, last⟩ := valid
  dsimp only at low high first last ⊢
  by_cases february : month = 2
  · subst february
    rw [daysIn_february] at last
    have here : marchMonth 2 = 11 := by decide
    norm_num [marchYear, here]
    omega
  · have year_length := beforeYear_add (marchYear ⟨year, month, day⟩) 1
    have step : beforeMonth (marchMonth month + 1) ≤ 337 := by
      unfold marchMonth beforeMonth
      omega
    rw [daysIn_eq year low high february] at last
    push_cast at year_length
    omega

theorem days_lt_of_before {a b : Date} (validA : a.Valid) (validB : b.Valid) (before : a.Before b) :
    a.days < b.days := by
  have lengthA := beforeMonth_add_le validA
  obtain ⟨lowA, highA, firstA, lastA⟩ := validA
  obtain ⟨lowB, highB, firstB, lastB⟩ := validB
  rw [days_eq, days_eq]
  have startB : 0 ≤ beforeMonth (marchMonth b.month) := by
    unfold beforeMonth marchMonth
    omega
  rcases lt_or_ge a.marchYear b.marchYear with earlier | notEarlier
  · have years := beforeYear_mono (show a.marchYear + 1 ≤ b.marchYear from earlier)
    omega
  · have years : a.marchYear = b.marchYear := by
      unfold marchYear at notEarlier ⊢
      unfold Before at before
      split at notEarlier <;> split at notEarlier <;> omega
    rw [years]
    rcases lt_or_ge (marchMonth a.month) (marchMonth b.month) with earlier | notEarlier'
    · have lengths : beforeMonth (marchMonth a.month) + a.day ≤ beforeMonth (marchMonth a.month + 1) := by
        by_cases february : a.month = 2
        · rw [february] at earlier
          have latest : marchMonth 2 = 11 := by decide
          unfold marchMonth at earlier latest
          omega
        · rw [daysIn_eq a.year lowA highA february] at lastA
          omega
      have starts : beforeMonth (marchMonth a.month + 1) ≤ beforeMonth (marchMonth b.month) := by
        unfold beforeMonth
        omega
      omega
    · have months : a.month = b.month := by
        unfold marchMonth at notEarlier'
        unfold marchYear at years
        unfold Before at before
        split at years <;> split at years <;> omega
      have days : a.day < b.day := by
        unfold marchYear at years
        unfold Before at before
        rw [months] at years before
        split at years <;> omega
      rw [months]
      omega

/-! ## Back to a date -/

/-- The year of the era a day of it is in, which may be the last day of a leap year. -/
def yearOfDay (dayOfEra : Int) : Int :=
  (dayOfEra - dayOfEra / 1460 + dayOfEra / 36524 - dayOfEra / 146096) / 365

def dayOfYear (dayOfEra : Int) : Int :=
  dayOfEra - (365 * yearOfDay dayOfEra + yearOfDay dayOfEra / 4 - yearOfDay dayOfEra / 100)

/-- The date with the number of days. -/
def civil (number : Int) : Date :=
  let shifted := number + 719468
  let era := shifted / 146097
  let dayOfEra := shifted - era * 146097
  let month := (5 * dayOfYear dayOfEra + 2) / 153
  let day := dayOfYear dayOfEra - beforeMonth month + 1
  let month := if month < 10 then month + 3 else month - 9
  ⟨yearOfDay dayOfEra + era * 400 + (if month ≤ 2 then 1 else 0), month, day⟩

/-- Centuries, fours of years, years and days: the fourth century and the fourth year may each have a day
more, which is where the formula corrects. -/
theorem exists_split {dayOfEra : Int} (low : 0 ≤ dayOfEra) (high : dayOfEra ≤ 146096) :
    ∃ century four year day : Int, dayOfEra / 36524 - dayOfEra / 146096 = century ∧
      dayOfEra = 36524 * century + 1461 * four + 365 * year + day ∧
      0 ≤ century ∧ century ≤ 3 ∧ 0 ≤ four ∧ four ≤ 24 ∧ 0 ≤ year ∧ year ≤ 3 ∧ 0 ≤ day ∧ day ≤ 365 ∧
      (day = 365 → year = 3 ∧ (four = 24 → century = 3)) := by
  obtain ⟨century, its, c0, c3⟩ : ∃ century, dayOfEra / 36524 - dayOfEra / 146096 = century ∧ 0 ≤ century ∧ century ≤ 3 :=
    ⟨_, rfl, by omega, by omega⟩
  obtain ⟨inCentury, whole, r0, r36524, last⟩ : ∃ inCentury, dayOfEra = 36524 * century + inCentury ∧
      0 ≤ inCentury ∧ inCentury ≤ 36524 ∧ (inCentury = 36524 → century = 3) :=
    ⟨dayOfEra - 36524 * century, by omega, by omega, by omega, by omega⟩
  obtain ⟨four, inFour, split, q0, q24, w0, w1460⟩ : ∃ four inFour, inCentury = 1461 * four + inFour ∧
      0 ≤ four ∧ four ≤ 24 ∧ 0 ≤ inFour ∧ inFour ≤ 1460 :=
    ⟨inCentury / 1461, inCentury % 1461, by omega, by omega, by omega, by omega, by omega⟩
  obtain ⟨year, day, years, y0, y3, d0, d365, leap⟩ : ∃ year day, inFour = 365 * year + day ∧
      0 ≤ year ∧ year ≤ 3 ∧ 0 ≤ day ∧ day ≤ 365 ∧ (day = 365 → year = 3) :=
    ⟨inFour / 365 - inFour / 1460, inFour - 365 * (inFour / 365 - inFour / 1460), by omega, by omega, by omega,
      by omega, by omega, by omega⟩
  refine ⟨century, four, year, day, its, by omega, c0, c3, q0, q24, y0, y3, d0, d365, ?_⟩
  intro leapDay
  refine ⟨leap leapDay, ?_⟩
  intro lastFour
  exact last (by have := leap leapDay; omega)

theorem yearOfDay_bounds {dayOfEra : Int} (low : 0 ≤ dayOfEra) (high : dayOfEra ≤ 146096) :
    0 ≤ yearOfDay dayOfEra ∧ yearOfDay dayOfEra ≤ 399 ∧ 0 ≤ dayOfYear dayOfEra ∧ dayOfYear dayOfEra ≤ 365 := by
  obtain ⟨century, four, year, day, centuries, whole, c0, c3, q0, q24, y0, y3, d0, d365, leap⟩ :=
    exists_split low high
  have small : 0 ≤ day - (24 * century + four + 365 * year + day) / 1460 ∧
      day - (24 * century + four + 365 * year + day) / 1460 ≤ 364 := by
    clear centuries whole low high
    omega
  have fours : dayOfEra / 1460 = 25 * century + four + (24 * century + four + 365 * year + day) / 1460 := by
    clear small centuries leap
    omega
  have found : yearOfDay dayOfEra = 100 * century + 4 * four + year := by
    have corrected : dayOfEra - dayOfEra / 1460 + dayOfEra / 36524 - dayOfEra / 146096 =
        365 * (100 * century + 4 * four + year) + (day - (24 * century + four + 365 * year + day) / 1460) := by
      rw [fours]
      linarith
    rw [yearOfDay, corrected]
    generalize day - (24 * century + four + 365 * year + day) / 1460 = inYear at small
    clear corrected fours centuries leap
    omega
  have inFours : (100 * century + 4 * four + year) / 4 = 25 * century + four := by omega
  have inCenturies : (100 * century + 4 * four + year) / 100 = century := by omega
  have rest : dayOfYear dayOfEra = day := by
    rw [dayOfYear, found, inFours, inCenturies]
    omega
  rw [found, rest]
  omega

/-- The month and the day of a number of days are those of a calendar. -/
theorem civil_bounds (number : Int) :
    1 ≤ (civil number).month ∧ (civil number).month ≤ 12 ∧ 1 ≤ (civil number).day ∧ (civil number).day ≤ 31 := by
  have low : 0 ≤ number + 719468 - (number + 719468) / 146097 * 146097 := by omega
  have high : number + 719468 - (number + 719468) / 146097 * 146097 ≤ 146096 := by omega
  obtain ⟨-, -, d0, d365⟩ := yearOfDay_bounds low high
  unfold civil
  dsimp only
  generalize dayOfYear (number + 719468 - (number + 719468) / 146097 * 146097) = day at d0 d365
  unfold beforeMonth
  clear low high
  refine ⟨?_, ?_, ?_, ?_⟩
  · split <;> omega
  · split <;> omega
  · omega
  · omega

theorem days_civil (number : Int) : (civil number).days = number := by
  have low : 0 ≤ number + 719468 - (number + 719468) / 146097 * 146097 := by omega
  have high : number + 719468 - (number + 719468) / 146097 * 146097 ≤ 146096 := by omega
  obtain ⟨y0, y399, d0, d365⟩ := yearOfDay_bounds low high
  unfold civil
  dsimp only
  generalize shifted_eq : number + 719468 = shifted at *
  generalize day_eq : shifted - shifted / 146097 * 146097 = dayOfEra at *
  have marches : (5 * dayOfYear dayOfEra + 2) / 153 ≤ 11 := by omega
  have starts : 0 ≤ (5 * dayOfYear dayOfEra + 2) / 153 := by omega
  generalize (5 * dayOfYear dayOfEra + 2) / 153 = month at *
  have year : marchYear ⟨yearOfDay dayOfEra + shifted / 146097 * 400 +
      (if (if month < 10 then month + 3 else month - 9) ≤ 2 then 1 else 0), if month < 10 then month + 3 else month - 9,
      dayOfYear dayOfEra - beforeMonth month + 1⟩ = yearOfDay dayOfEra + shifted / 146097 * 400 := by
    unfold marchYear
    dsimp only
    split <;> omega
  have back : marchMonth (if month < 10 then month + 3 else month - 9) = month := by
    unfold marchMonth
    split <;> omega
  have era : (yearOfDay dayOfEra + shifted / 146097 * 400) / 400 = shifted / 146097 := by omega
  unfold days
  dsimp only
  rw [year, back, era, add_sub_cancel_right]
  unfold dayOfYear
  omega

/-- The days of the years from 0 to 9999, counted from 1970. -/
theorem civil_year_bounds {number : Int} (low : -719528 ≤ number) (high : number < 2932897) :
    0 ≤ (civil number).year ∧ (civil number).year < 10000 := by
  have its := days_civil number
  obtain ⟨m1, m12, d1, d31⟩ := civil_bounds number
  generalize civil number = date at *
  rw [days_eq] at its
  have first : beforeYear (-1) = -366 := by decide
  have last : beforeYear 9999 = 3652059 := by decide
  have after : beforeYear 10000 = 3652425 := by decide
  unfold marchYear at its
  unfold beforeMonth marchMonth at its
  constructor
  · by_contra before
    split at its
    · have years := beforeYear_mono (show date.year - 1 ≤ -2 by omega)
      have earlier : beforeYear (-2) = -731 := by decide
      omega
    · have years := beforeYear_mono (show date.year ≤ -1 by omega)
      omega
  · by_contra past
    split at its
    · have years := beforeYear_mono (show 9999 ≤ date.year - 1 by omega)
      omega
    · have years := beforeYear_mono (show 10000 ≤ date.year by omega)
      omega

end Date

end OmarchyPool.Lib
