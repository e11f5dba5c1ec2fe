/-
# OmarchyPool.Clock -- times as texts

`YYYY-MM-DDTHH:MM:SSZ`, as four pieces of code write and read it: `chrono_now` and `parse_iso8601` of the
pool's crate, `utc` and `unix_time` of the agent.  Each carries its own form of the civil-date formula, and
each is the calendar's (`days`, `civil`), so that what one writes the other reads (`parse_chrono`,
`unix_utc`) and what both read is the same instant.

A time is read to the whole second: a fraction is dropped, and a second of 60 is the first of the next
minute.  So among the texts both read, with dates of the calendar, an earlier one never has the larger
number, and has the smaller one when neither says 60 (`times_convert`).
-/
import Mathlib.Data.List.Basic
import OmarchyPool.Lib.Calendar
import OmarchyPool.Manifest.Vercmp

namespace OmarchyPool.Clock

open Lib Manifest

set_option autoImplicit false

/-! ## Numbers in a text -/

/-- `str::parse::<i64>`: a sign, and digits. -/
def i64FromStr (s : Bytes) : Option Int :=
  let negative := s.head? = some 45
  let digits := if negative ∨ s.head? = some 43 then s.tail else s
  if digits = [] ∨ ¬ digits.all isDigit then none
  else
    let n : Int := value digitOf 10 digits
    let n := if negative then -n else n
    if -2 ^ 63 ≤ n ∧ n < 2 ^ 63 then some n else none

/-- The bytes of a range. -/
def slice (text : Bytes) (start stop : Nat) : Bytes := (text.drop start).take (stop - start)

/-- `text.get(range)?.parse::<i64>().ok()`; a range that cuts a character holds a byte that is no digit. -/
def field (text : Bytes) (start stop : Nat) : Option Int :=
  if stop ≤ text.length then i64FromStr (slice text start stop) else none

/-- `{n:0width}`. -/
def padded (width : Nat) (n : Int) : Bytes :=
  let digits := (Nat.toDigits 10 n.natAbs).map fun c => c.toNat.toUInt8
  if n < 0 then hyphen :: (List.replicate (width - 1 - digits.length) zero ++ digits)
  else List.replicate (width - digits.length) zero ++ digits

def letterT : UInt8 := 84
def letterZ : UInt8 := 90
def period : UInt8 := 46

/-! ## The pool's crate -/

/-- `chrono_now`, at `secs` seconds from the epoch. -/
def chronoNow (secs : Nat) : Bytes :=
  let hour := secs % 86400 / 3600
  let minute := secs % 3600 / 60
  let second := secs % 60
  let shifted : Int := ((secs / 86400 : Nat) : Int) + 719468
  let era := shifted / 146097
  let dayOfEra := shifted - era * 146097
  let yearOfEra := (dayOfEra - dayOfEra / 1460 + dayOfEra / 36524 - dayOfEra / 146096) / 365
  let dayOfYear := dayOfEra - (365 * yearOfEra + yearOfEra / 4 - yearOfEra / 100)
  let shiftedMonth := (5 * dayOfYear + 2) / 153
  let day := dayOfYear - (153 * shiftedMonth + 2) / 5 + 1
  let month := if shiftedMonth < 10 then shiftedMonth + 3 else shiftedMonth - 9
  let year := yearOfEra + era * 400 + (if month ≤ 2 then 1 else 0)
  padded 4 year ++ hyphen :: (padded 2 month ++ hyphen :: (padded 2 day ++ letterT :: (padded 2 hour ++
    colon :: (padded 2 minute ++ colon :: (padded 2 second ++ [letterZ])))))

def parseIso8601 (text : Bytes) : Option Int :=
  if text.length < 19 ∨ text[4]? ≠ some hyphen ∨ text[7]? ≠ some hyphen ∨ text[10]? ≠ some letterT ∨
      text[13]? ≠ some colon ∨ text[16]? ≠ some colon then none
  else do
    let year ← field text 0 4
    let month ← field text 5 7
    let day ← field text 8 10
    let hour ← field text 11 13
    let minute ← field text 14 16
    let second ← field text 17 19
    if ¬ (1 ≤ month ∧ month ≤ 12) ∨ ¬ (1 ≤ day ∧ day ≤ 31) ∨ 23 < hour ∨ 59 < minute ∨ 60 < second then none
    else
      let year := if month ≤ 2 then year - 1 else year
      let era := year / 400
      let yearOfEra := year - era * 400
      let shiftedMonth := (month + 9) % 12
      let dayOfYear := (153 * shiftedMonth + 2) / 5 + day - 1
      let dayOfEra := yearOfEra * 365 + yearOfEra / 4 - yearOfEra / 100 + dayOfYear
      let days := era * 146097 + dayOfEra - 719468
      some (days * 86400 + hour * 3600 + minute * 60 + second)

/-! ## The agent -/

/-- `capacity::utc`. -/
def utc (secs : Nat) : Bytes :=
  let days := secs / 86400
  let rem := secs % 86400
  let z := days + 719468
  let era := z / 146097
  let doe := z % 146097
  let yoe := (doe - doe / 1460 + doe / 36524 - doe / 146096) / 365
  let doy := doe - (365 * yoe + yoe / 4 - yoe / 100)
  let mp := (5 * doy + 2) / 153
  let d := doy - (153 * mp + 2) / 5 + 1
  let m := if mp < 10 then mp + 3 else mp - 9
  let y := yoe + era * 400 + (if m ≤ 2 then 1 else 0)
  padded 4 y ++ hyphen :: (padded 2 m ++ hyphen :: (padded 2 d ++ letterT :: (padded 2 (rem / 3600 : Nat) ++
    colon :: (padded 2 (rem % 3600 / 60 : Nat) ++ colon :: (padded 2 (rem % 60 : Nat) ++ [letterZ])))))

/-- `manifest::is_timestamp`. -/
def isTimestamp (b : Bytes) : Bool :=
  let digits (start stop : Nat) : Bool := stop ≤ b.length && (slice b start stop).all isDigit
  let shape := 20 ≤ b.length && digits 0 4 && b[4]? == some hyphen && digits 5 7 && b[7]? == some hyphen &&
    digits 8 10 && b[10]? == some letterT && digits 11 13 && b[13]? == some colon && digits 14 16 &&
    b[16]? == some colon && digits 17 19
  let rest := slice b 19 (b.length - 1)
  shape && b.getLast? == some letterZ &&
    (rest.isEmpty || (2 ≤ rest.length && rest.head? == some period && rest.tail.all isDigit))

/-- `trust::unix_time`. -/
def unixTime (s : Bytes) : Option Int :=
  if ¬ isTimestamp s then none
  else do
    let year ← field s 0 4
    let month ← field s 5 7
    let day ← field s 8 10
    let hh ← field s 11 13
    let mm ← field s 14 16
    let ss ← field s 17 19
    if ¬ (1 ≤ month ∧ month ≤ 12) ∨ ¬ (1 ≤ day ∧ day ≤ 31) ∨ 23 < hh ∨ 59 < mm ∨ 60 < ss then none
    else
      let year := if month ≤ 2 then year - 1 else year
      let era := year / 400
      let yoe := year - era * 400
      let doy := (153 * (if 2 < month then month - 3 else month + 9) + 2) / 5 + day - 1
      let doe := yoe * 365 + yoe / 4 - yoe / 100 + doy
      let days := era * 146097 + doe - 719468
      some (days * 86400 + hh * 3600 + mm * 60 + ss)

example : parseIso8601 (ascii "2026-09-12T07:20:00.123Z") = some 1789197600 := by decide

/-! ## Writing and reading a number -/

theorem value_zeros (k : Nat) (l : Bytes) : value digitOf 10 (List.replicate k zero ++ l) = value digitOf 10 l := by
  induction k with
  | zero => rfl
  | succ k ih =>
      have nothing : digitOf zero = 0 := by decide
      rw [List.replicate_succ, List.cons_append, value_cons, ih, nothing, Nat.zero_mul, Nat.zero_add]

theorem digit_byte {c : Char} (digit : c.isDigit = true) :
    isDigit c.toNat.toUInt8 = true ∧ digitOf c.toNat.toUInt8 = c.toNat - 48 := by
  obtain ⟨least, most⟩ := Char.isDigit_iff_toNat.mp digit
  have low : 48 ≤ c.toNat := least
  have high : c.toNat ≤ 57 := most
  have byte : c.toNat.toUInt8.toNat = c.toNat := by
    rw [Nat.toUInt8, UInt8.toNat_ofNat']
    omega
  refine ⟨?_, by rw [digitOf, byte]⟩
  unfold isDigit
  simp only [Bool.and_eq_true, decide_eq_true_eq, UInt8.le_iff_toNat_le, byte]
  have low48 : (48 : UInt8).toNat = 48 := rfl
  have high57 : (57 : UInt8).toNat = 57 := rfl
  omega

/-- A number that fits is written in as many digits as there is room. -/
theorem padded_spec {width : Nat} {n : Int} (room : 0 < width) (nonneg : 0 ≤ n) (fits : n < 10 ^ width) :
    (padded width n).length = width ∧ (padded width n).all isDigit = true ∧
      (value digitOf 10 (padded width n) : Int) = n := by
  obtain ⟨m, rfl⟩ := Int.eq_ofNat_of_zero_le nonneg
  have below : m < 10 ^ width := by exact_mod_cast fits
  have short := (Nat.length_toDigits_le_iff (n := m) (k := width) (b := 10) (by decide) room).mpr below
  have digit : ∀ c ∈ Nat.toDigits 10 m, c.isDigit = true := fun c member =>
    Nat.isDigit_of_mem_toDigits (by decide) (by decide) member
  have digits : value digitOf 10 ((Nat.toDigits 10 m).map fun c => c.toNat.toUInt8) = m := by
    have read := @Nat.ofDigitChars_ten_toDigits m
    rw [Nat.ofDigitChars_eq_foldl] at read
    rw [value, valueFrom, List.foldl_map]
    refine Eq.trans ?_ read
    apply List.foldl_ext
    intro n c member
    rw [(digit_byte (digit c member)).2, Nat.mul_comm]
    rfl
  unfold padded
  simp only [Int.natAbs_natCast, if_neg (show ¬ (m : Int) < 0 by omega)]
  refine ⟨?_, ?_, ?_⟩
  · simp only [List.length_append, List.length_replicate, List.length_map]
    omega
  · rw [List.all_append, List.all_replicate, Bool.and_eq_true]
    constructor
    · have isZero : isDigit zero = true := by decide
      simp [isZero]
    · rw [List.all_eq_true]
      intro b member
      obtain ⟨c, its, rfl⟩ := List.mem_map.mp member
      exact (digit_byte (digit c its)).1
  · rw [value_zeros, digits]

theorem i64FromStr_digits {s : Bytes} (nonempty : s ≠ []) (short : s.length ≤ 18) (digits : s.all isDigit = true) :
    i64FromStr s = some (value digitOf 10 s : Int) := by
  obtain ⟨c, rest, rfl⟩ := List.exists_cons_of_ne_nil nonempty
  have first : isDigit c = true := by simp_all
  have plain : ¬ c = 45 ∧ ¬ c = 43 := by
    constructor
    · rintro rfl
      exact absurd first (by decide)
    · rintro rfl
      exact absurd first (by decide)
  have each : ∀ d ∈ c :: rest, digitOf d < 10 := by
    intro d member
    have its := List.all_eq_true.mp digits d member
    simp only [isDigit, Bool.and_eq_true, decide_eq_true_eq, UInt8.le_iff_toNat_le] at its
    have high57 : (57 : UInt8).toNat = 57 := rfl
    unfold digitOf
    omega
  have small : value digitOf 10 (c :: rest) < 2 ^ 63 :=
    calc value digitOf 10 (c :: rest) < 10 ^ (c :: rest).length := value_lt each
      _ ≤ 10 ^ 18 := Nat.pow_le_pow_right (by decide) short
      _ < 2 ^ 63 := by decide
  have bound : -2 ^ 63 ≤ (value digitOf 10 (c :: rest) : Int) ∧ (value digitOf 10 (c :: rest) : Int) < 2 ^ 63 := by
    constructor
    · omega
    · exact_mod_cast small
  unfold i64FromStr
  simp only [List.head?_cons, Option.some.injEq, plain.1, plain.2, or_self, if_false, List.cons_ne_nil, digits,
    not_true_eq_false]
  rw [if_pos bound]

/-! ## Stamps -/

/-- The date and the time a text names, to the whole second. -/
structure Stamp where
  date : Date
  hour : Int
  minute : Int
  second : Int

namespace Stamp

/-- What both readers check of the numbers. -/
def InRange (stamp : Stamp) : Prop :=
  (1 ≤ stamp.date.month ∧ stamp.date.month ≤ 12) ∧ (1 ≤ stamp.date.day ∧ stamp.date.day ≤ 31) ∧
    stamp.hour ≤ 23 ∧ stamp.minute ≤ 59 ∧ stamp.second ≤ 60

/-- Seconds from the epoch. -/
def seconds (stamp : Stamp) : Int :=
  stamp.date.days * 86400 + stamp.hour * 3600 + stamp.minute * 60 + stamp.second

def Before (a b : Stamp) : Prop :=
  a.date.Before b.date ∨ a.date = b.date ∧
    (a.hour < b.hour ∨ a.hour = b.hour ∧ (a.minute < b.minute ∨ a.minute = b.minute ∧ a.second < b.second))

/-- The numbers of a clock, with a second of 60. -/
structure OnClock (stamp : Stamp) : Prop where
  valid : stamp.date.Valid
  hour : 0 ≤ stamp.hour ∧ stamp.hour ≤ 23
  minute : 0 ≤ stamp.minute ∧ stamp.minute ≤ 59
  second : 0 ≤ stamp.second ∧ stamp.second ≤ 60

theorem seconds_le_of_before {a b : Stamp} (clockA : a.OnClock) (clockB : b.OnClock) (before : a.Before b) :
    a.seconds ≤ b.seconds := by
  obtain ⟨validA, ⟨-, hourA⟩, ⟨-, minuteA⟩, -, secondA⟩ := clockA
  obtain ⟨validB, ⟨hourB, -⟩, ⟨minuteB, -⟩, secondB, -⟩ := clockB
  unfold seconds
  rcases before with date | ⟨date, time⟩
  · have days := Date.days_lt_of_before validA validB date
    omega
  · rw [date]
    omega

theorem seconds_lt_of_before {a b : Stamp} (clockA : a.OnClock) (clockB : b.OnClock) (whole : a.second ≤ 59)
    (before : a.Before b) : a.seconds < b.seconds := by
  obtain ⟨validA, ⟨-, hourA⟩, ⟨-, minuteA⟩, -⟩ := clockA
  obtain ⟨validB, ⟨hourB, -⟩, ⟨minuteB, -⟩, secondB, -⟩ := clockB
  unfold seconds
  rcases before with date | ⟨date, time⟩
  · have days := Date.days_lt_of_before validA validB date
    omega
  · rw [date]
    omega

theorem before_or_eq_or_before (a b : Stamp) : a.Before b ∨ a = b ∨ b.Before a := by
  obtain ⟨⟨year, month, day⟩, hour, minute, second⟩ := a
  obtain ⟨⟨year', month', day'⟩, hour', minute', second'⟩ := b
  simp only [Before, Date.Before, Stamp.mk.injEq, Date.mk.injEq]
  omega

theorem before_of_seconds_lt {a b : Stamp} (clockA : a.OnClock) (clockB : b.OnClock) (less : a.seconds < b.seconds) :
    a.Before b := by
  rcases before_or_eq_or_before a b with before | rfl | after
  · exact before
  · exact absurd less (lt_irrefl _)
  · exact absurd (seconds_le_of_before clockB clockA after) (not_le.mpr less)

end Stamp

/-- The six numbers of the text are those of the stamp. -/
structure Reads (text : Bytes) (stamp : Stamp) : Prop where
  year : field text 0 4 = some stamp.date.year
  month : field text 5 7 = some stamp.date.month
  day : field text 8 10 = some stamp.date.day
  hour : field text 11 13 = some stamp.hour
  minute : field text 14 16 = some stamp.minute
  second : field text 17 19 = some stamp.second

/-- The separators stand where they do in a time. -/
def Separated (text : Bytes) : Prop :=
  19 ≤ text.length ∧ text[4]? = some hyphen ∧ text[7]? = some hyphen ∧ text[10]? = some letterT ∧
    text[13]? = some colon ∧ text[16]? = some colon

theorem parseIso8601_iff {text : Bytes} {stamp : Stamp} (separated : Separated text) (reads : Reads text stamp)
    {n : Int} : parseIso8601 text = some n ↔ stamp.InRange ∧ stamp.seconds = n := by
  obtain ⟨long, four, seven, ten, thirteen, sixteen⟩ := separated
  have shape : ¬ (text.length < 19 ∨ text[4]? ≠ some hyphen ∨ text[7]? ≠ some hyphen ∨ text[10]? ≠ some letterT ∨
      text[13]? ≠ some colon ∨ text[16]? ≠ some colon) := by
    simp [four, seven, ten, thirteen, sixteen, long]
  unfold parseIso8601
  rw [if_neg shape, reads.year, reads.month, reads.day, reads.hour, reads.minute, reads.second]
  simp only [Option.bind_eq_bind, Option.bind_some]
  unfold Stamp.InRange
  split
  · rename_i outside
    simp only [reduceCtorEq, false_iff, not_and]
    intro inside
    omega
  · rename_i inside
    rw [Option.some.injEq]
    constructor
    · intro eq
      exact ⟨by omega, eq⟩
    · exact fun its => its.2

theorem unixTime_iff {text : Bytes} {stamp : Stamp} (timestamp : isTimestamp text = true) (reads : Reads text stamp)
    {n : Int} : unixTime text = some n ↔ stamp.InRange ∧ stamp.seconds = n := by
  unfold unixTime
  rw [if_neg (by simp [timestamp]), reads.year, reads.month, reads.day, reads.hour, reads.minute, reads.second]
  simp only [Option.bind_eq_bind, Option.bind_some]
  unfold Stamp.InRange
  split
  · rename_i outside
    simp only [reduceCtorEq, false_iff, not_and]
    intro inside
    omega
  · rename_i inside
    have shifted : (if 2 < stamp.date.month then stamp.date.month - 3 else stamp.date.month + 9) =
        (stamp.date.month + 9) % 12 := by
      split <;> omega
    rw [Option.some.injEq, shifted]
    constructor
    · intro eq
      exact ⟨by omega, eq⟩
    · exact fun its => its.2

/-! ## What is read of a text both readers take -/

/-- The number of a range of digits. -/
def number (text : Bytes) (start stop : Nat) : Int := value digitOf 10 (slice text start stop)

def stampOf (text : Bytes) : Stamp :=
  ⟨⟨number text 0 4, number text 5 7, number text 8 10⟩, number text 11 13, number text 14 16, number text 17 19⟩

theorem field_of_digits {text : Bytes} {start stop : Nat} (some : start < stop) (short : stop - start ≤ 18)
    (inside : stop ≤ text.length) (digits : (slice text start stop).all isDigit = true) :
    field text start stop = .some (number text start stop) := by
  have length : (slice text start stop).length = stop - start := by
    simp only [slice, List.length_take, List.length_drop]
    omega
  have nonempty : slice text start stop ≠ [] := by
    intro nil
    rw [nil] at length
    simp at length
    omega
  rw [field, if_pos inside]
  exact i64FromStr_digits nonempty (by omega) digits

theorem of_isTimestamp {text : Bytes} (timestamp : isTimestamp text = true) :
    Separated text ∧ Reads text (stampOf text) := by
  unfold isTimestamp at timestamp
  simp only [Bool.and_eq_true, decide_eq_true_eq, beq_iff_eq] at timestamp
  obtain ⟨⟨⟨⟨⟨⟨⟨⟨⟨⟨⟨⟨⟨long, -, year⟩, four⟩, -, month⟩, seven⟩, -, day⟩, ten⟩, -, hour⟩, thirteen⟩, -, minute⟩,
    sixteen⟩, -, second⟩, -⟩, -⟩ := timestamp
  refine ⟨⟨by omega, four, seven, ten, thirteen, sixteen⟩, ?_⟩
  exact ⟨field_of_digits (by decide) (by decide) (by omega) year,
    field_of_digits (by decide) (by decide) (by omega) month,
    field_of_digits (by decide) (by decide) (by omega) day,
    field_of_digits (by decide) (by decide) (by omega) hour,
    field_of_digits (by decide) (by decide) (by omega) minute,
    field_of_digits (by decide) (by decide) (by omega) second⟩

theorem timestamp_of_unixTime {text : Bytes} {n : Int} (read : unixTime text = some n) : isTimestamp text = true := by
  unfold unixTime at read
  split at read
  · cases read
  · rename_i timestamp
    simpa using timestamp

/-- A text both readers take gives each the seconds of its stamp. -/
theorem read_eq {text : Bytes} {n m : Int} (parsed : parseIso8601 text = some n) (read : unixTime text = some m) :
    (stampOf text).InRange ∧ n = (stampOf text).seconds ∧ m = (stampOf text).seconds := by
  have timestamp := timestamp_of_unixTime read
  obtain ⟨separated, reads⟩ := of_isTimestamp timestamp
  obtain ⟨inRange, eq⟩ := (parseIso8601_iff separated reads).mp parsed
  obtain ⟨-, eq'⟩ := (unixTime_iff timestamp reads).mp read
  exact ⟨inRange, eq.symm, eq'.symm⟩

theorem onClock_stampOf {text : Bytes} (inRange : (stampOf text).InRange) (valid : (stampOf text).date.Valid) :
    (stampOf text).OnClock :=
  ⟨valid, ⟨Int.natCast_nonneg _, inRange.2.2.1⟩, ⟨Int.natCast_nonneg _, inRange.2.2.2.1⟩,
    ⟨Int.natCast_nonneg _, inRange.2.2.2.2⟩⟩

/-! ## What is written -/

/-- A time as both writers lay it out. -/
def layout (stamp : Stamp) : Bytes :=
  padded 4 stamp.date.year ++ hyphen :: (padded 2 stamp.date.month ++ hyphen :: (padded 2 stamp.date.day ++
    letterT :: (padded 2 stamp.hour ++ colon :: (padded 2 stamp.minute ++ colon :: (padded 2 stamp.second ++ [letterZ])))))

/-- The stamp of a number of seconds. -/
def stampAt (secs : Nat) : Stamp :=
  ⟨Date.civil (secs / 86400 : Nat), (secs % 86400 / 3600 : Nat), (secs % 3600 / 60 : Nat), (secs % 60 : Nat)⟩

theorem chronoNow_eq (secs : Nat) : chronoNow secs = layout (stampAt secs) := rfl

theorem utc_eq (secs : Nat) : utc secs = layout (stampAt secs) := by
  obtain ⟨y0, y399, d0, d365⟩ := @Date.yearOfDay_bounds ((secs / 86400 + 719468) % 146097 : Nat) (by omega) (by omega)
  have doe : ((secs / 86400 : Nat) : Int) + 719468 - (((secs / 86400 : Nat) : Int) + 719468) / 146097 * 146097 =
      ((secs / 86400 + 719468) % 146097 : Nat) := by omega
  have era : (((secs / 86400 : Nat) : Int) + 719468) / 146097 = ((secs / 86400 + 719468) / 146097 : Nat) := by omega
  have minutes : secs % 86400 % 3600 / 60 = secs % 3600 / 60 := by omega
  have seconds : secs % 86400 % 60 = secs % 60 := by omega
  unfold utc layout stampAt Date.civil
  dsimp only
  rw [doe, era, minutes, seconds]
  generalize (secs / 86400 + 719468) / 146097 = era
  generalize (secs / 86400 + 719468) % 146097 = day at y0 y399 d0 d365
  have yoe : (((day - day / 1460 + day / 36524 - day / 146096) / 365 : Nat) : Int) = Date.yearOfDay day := by
    unfold Date.yearOfDay
    omega
  generalize (day - day / 1460 + day / 36524 - day / 146096) / 365 = year at yoe
  have doy : ((day - (365 * year + year / 4 - year / 100) : Nat) : Int) = Date.dayOfYear day := by
    unfold Date.dayOfYear at d0 d365 ⊢
    omega
  generalize day - (365 * year + year / 4 - year / 100) = inYear at doy
  rw [← yoe, ← doy]
  have mp : ((5 * (inYear : Int) + 2) / 153) = ((5 * inYear + 2) / 153 : Nat) := by omega
  rw [mp]
  have start : (153 * ((5 * inYear + 2) / 153) + 2) / 5 ≤ inYear := by omega
  generalize (5 * inYear + 2) / 153 = march at start
  have months : (if (march : Int) < 10 then (march : Int) + 3 else (march : Int) - 9) =
      ((if march < 10 then march + 3 else march - 9 : Nat) : Int) := by
    split <;> split <;> omega
  have dayOfMonth : (inYear : Int) - Date.beforeMonth march + 1 = (inYear - (153 * march + 2) / 5 + 1 : Nat) := by
    unfold Date.beforeMonth
    omega
  rw [months, dayOfMonth]
  generalize (if march < 10 then march + 3 else march - 9 : Nat) = month
  have years : (year : Int) + (era : Int) * 400 + (if (month : Int) ≤ 2 then 1 else 0) =
      (year + era * 400 + (if month ≤ 2 then 1 else 0) : Nat) := by
    split <;> split <;> omega
  rw [years]

/-! ## Each reads what the other writes -/

theorem exists_of_length_four {l : Bytes} (length : l.length = 4) : ∃ a b c d, l = [a, b, c, d] := by
  obtain ⟨a, rest, rfl⟩ := List.exists_cons_of_length_eq_add_one length
  obtain ⟨b, c, d, rfl⟩ := List.length_eq_three.mp (by simpa using length)
  exact ⟨a, b, c, d, rfl⟩

/-- What stands where in a text that is laid out as a time. -/
theorem slices {year month day hour minute second : Bytes} (ofYear : year.length = 4) (ofMonth : month.length = 2)
    (ofDay : day.length = 2) (ofHour : hour.length = 2) (ofMinute : minute.length = 2) (ofSecond : second.length = 2) :
    let text := year ++ hyphen :: (month ++ hyphen :: (day ++ letterT :: (hour ++ colon :: (minute ++ colon ::
      (second ++ [letterZ])))))
    text.length = 20 ∧ Separated text ∧ slice text 19 19 = [] ∧ text.getLast? = some letterZ ∧
      slice text 0 4 = year ∧ slice text 5 7 = month ∧ slice text 8 10 = day ∧ slice text 11 13 = hour ∧
      slice text 14 16 = minute ∧ slice text 17 19 = second := by
  obtain ⟨y, y', y₂, y₃, rfl⟩ := exists_of_length_four ofYear
  obtain ⟨m, m', rfl⟩ := List.length_eq_two.mp ofMonth
  obtain ⟨d, d', rfl⟩ := List.length_eq_two.mp ofDay
  obtain ⟨h, h', rfl⟩ := List.length_eq_two.mp ofHour
  obtain ⟨n, n', rfl⟩ := List.length_eq_two.mp ofMinute
  obtain ⟨s, s', rfl⟩ := List.length_eq_two.mp ofSecond
  exact ⟨rfl, ⟨by simp, rfl, rfl, rfl, rfl, rfl⟩, rfl, rfl, rfl, rfl, rfl, rfl, rfl, rfl⟩

/-- A number of two digits. -/
def Small (n : Int) : Prop := 0 ≤ n ∧ n < 100

theorem layout_reads {stamp : Stamp} (year : 0 ≤ stamp.date.year ∧ stamp.date.year < 10000)
    (month : Small stamp.date.month) (day : Small stamp.date.day) (hour : Small stamp.hour)
    (minute : Small stamp.minute) (second : Small stamp.second) :
    isTimestamp (layout stamp) = true ∧ stampOf (layout stamp) = stamp := by
  have small {n : Int} (its : Small n) : (padded 2 n).length = 2 ∧ (padded 2 n).all isDigit = true ∧
      (value digitOf 10 (padded 2 n) : Int) = n := padded_spec (by decide) its.1 its.2
  obtain ⟨lengthY, digitsY, isY⟩ := @padded_spec 4 _ (by decide) year.1 year.2
  obtain ⟨lengthM, digitsM, isM⟩ := small month
  obtain ⟨lengthD, digitsD, isD⟩ := small day
  obtain ⟨lengthH, digitsH, isH⟩ := small hour
  obtain ⟨lengthN, digitsN, isN⟩ := small minute
  obtain ⟨lengthS, digitsS, isS⟩ := small second
  obtain ⟨length, ⟨-, four, seven, ten, thirteen, sixteen⟩, rest, last, sliceY, sliceM, sliceD, sliceH, sliceN,
    sliceS⟩ := slices lengthY lengthM lengthD lengthH lengthN lengthS
  constructor
  · unfold isTimestamp layout
    simp only [length, four, seven, ten, thirteen, sixteen, rest, last, sliceY, sliceM, sliceD, sliceH, sliceN,
      sliceS, digitsY, digitsM, digitsD, digitsH, digitsN, digitsS]
    decide
  · unfold stampOf number layout
    rw [sliceY, sliceM, sliceD, sliceH, sliceN, sliceS, isY, isM, isD, isH, isN, isS]

/-- The last second of the year 9999. -/
def lastSecond : Nat := 253402300799

theorem read_layout {secs : Nat} (fits : secs ≤ lastSecond) :
    parseIso8601 (layout (stampAt secs)) = some (secs : Int) ∧ unixTime (layout (stampAt secs)) = some (secs : Int) := by
  unfold lastSecond at fits
  obtain ⟨m1, m12, d1, d31⟩ := Date.civil_bounds (secs / 86400 : Nat)
  have years := @Date.civil_year_bounds (secs / 86400 : Nat) (by omega) (by omega)
  have hour : (0 : Int) ≤ (secs % 86400 / 3600 : Nat) ∧ ((secs % 86400 / 3600 : Nat) : Int) ≤ 23 := by omega
  have minute : (0 : Int) ≤ (secs % 3600 / 60 : Nat) ∧ ((secs % 3600 / 60 : Nat) : Int) ≤ 59 := by omega
  have second : (0 : Int) ≤ (secs % 60 : Nat) ∧ ((secs % 60 : Nat) : Int) ≤ 60 := by omega
  have inRange : (stampAt secs).InRange := ⟨⟨m1, m12⟩, ⟨d1, d31⟩, hour.2, minute.2, second.2⟩
  have whole : (stampAt secs).seconds = secs := by
    unfold Stamp.seconds stampAt
    simp only [Date.days_civil]
    omega
  have small {n k : Int} (its : 0 ≤ n ∧ n ≤ k) (below : k < 100) : Small n := ⟨its.1, by omega⟩
  obtain ⟨timestamp, same⟩ := @layout_reads (stampAt secs) years (small ⟨zero_le_one.trans m1, m12⟩ (by decide))
    (small ⟨zero_le_one.trans d1, d31⟩ (by decide)) (small hour (by decide)) (small minute (by decide)) (small second (by decide))
  obtain ⟨separated, reads⟩ := of_isTimestamp timestamp
  rw [same] at reads
  exact ⟨(parseIso8601_iff separated reads).mpr ⟨inRange, whole⟩, (unixTime_iff timestamp reads).mpr ⟨inRange, whole⟩⟩

/-- What either writes of a second up to the end of the year 9999 the other two read as that second; and of the
texts both read, with dates of the calendar, each gives both the same number, never the larger to the earlier,
and the smaller to the earlier when that does not say 60. -/
theorem times_convert :
    (∀ secs : Nat, secs ≤ lastSecond →
      parseIso8601 (chronoNow secs) = some (secs : Int) ∧ unixTime (utc secs) = some (secs : Int)) ∧
    ∀ (s t : Bytes) (n n' m m' : Int), parseIso8601 s = some n → unixTime s = some n' → parseIso8601 t = some m →
      unixTime t = some m' → (stampOf s).date.Valid → (stampOf t).date.Valid →
        n = n' ∧ m = m' ∧ ((stampOf s).Before (stampOf t) → n ≤ m) ∧
          ((stampOf s).second ≤ 59 → (n < m ↔ (stampOf s).Before (stampOf t))) := by
  constructor
  · intro secs fits
    rw [chronoNow_eq, utc_eq]
    exact read_layout fits
  · intro s t n n' m m' parsedS readS parsedT readT validS validT
    obtain ⟨rangeS, rfl, rfl⟩ := read_eq parsedS readS
    obtain ⟨rangeT, rfl, rfl⟩ := read_eq parsedT readT
    have clockS := onClock_stampOf rangeS validS
    have clockT := onClock_stampOf rangeT validT
    refine ⟨rfl, rfl, Stamp.seconds_le_of_before clockS clockT, ?_⟩
    intro whole
    exact ⟨Stamp.before_of_seconds_lt clockS clockT, Stamp.seconds_lt_of_before clockS clockT whole⟩

theorem times_convert_leap_day :
    parseIso8601 (chronoNow 951782400) = some (951782400 : Nat) ∧ unixTime (utc 951782400) = some (951782400 : Nat) :=
  times_convert.1 951782400 (by decide)

/-- A leap second and the midnight after it are one number; so are two fractions of a second. -/
theorem not_strictly_ordered :
    parseIso8601 (ascii "2016-12-31T23:59:60Z") = some 1483228800 ∧
      unixTime (ascii "2016-12-31T23:59:60Z") = some 1483228800 ∧
      parseIso8601 (ascii "2017-01-01T00:00:00Z") = some 1483228800 ∧
      unixTime (ascii "2017-01-01T00:00:00Z") = some 1483228800 ∧
      (stampOf (ascii "2016-12-31T23:59:60Z")).date.Valid ∧ (stampOf (ascii "2017-01-01T00:00:00Z")).date.Valid ∧
      (stampOf (ascii "2016-12-31T23:59:60Z")).Before (stampOf (ascii "2017-01-01T00:00:00Z")) ∧
      (parseIso8601 (ascii "2026-09-12T07:20:00.2Z") = some 1789197600 ∧
        parseIso8601 (ascii "2026-09-12T07:20:00.7Z") = some 1789197600) ∧
      (unixTime (ascii "2026-09-12T07:20:00.2Z") = some 1789197600 ∧
        unixTime (ascii "2026-09-12T07:20:00.7Z") = some 1789197600) := by
  refine ⟨by decide, by decide, by decide, by decide, by decide,
    by decide, ?_, by decide, by decide⟩
  left
  left
  decide

end OmarchyPool.Clock
