/-
# OmarchyPool.Lib.Decimal -- numerals compared as numbers

A numeral is a list of digits, the most significant first.  Two numerals without leading zeros
compare as the numbers they write, by their lengths and then digit by digit
(`compare_value`); and a numeral read into a bounded number is read whole or not at all
(`readBelow_eq`).
-/
import Mathlib.Algebra.Order.Ring.Nat
import Mathlib.Tactic.Ring
import Mathlib.Tactic.Linarith

namespace OmarchyPool.Lib

set_option autoImplicit false

section Numerals

variable {α : Type} (digit : α → Nat) (base : Nat)

/-- The number a numeral writes, after a number already read. -/
def valueFrom (read : Nat) (l : List α) : Nat := l.foldl (fun n d => n * base + digit d) read

def value (l : List α) : Nat := valueFrom digit base 0 l

/-- A numeral read digit by digit, each step checked against a bound. -/
def readBelow (limit : Nat) (l : List α) : Option Nat :=
  l.foldlM (fun n d => if n * base + digit d < limit then some (n * base + digit d) else none) 0

variable {digit base}

theorem valueFrom_eq (read : Nat) (l : List α) :
    valueFrom digit base read l = read * base ^ l.length + value digit base l := by
  induction l generalizing read with
  | nil => simp [valueFrom, value]
  | cons d rest ih =>
      have here := ih (read * base + digit d)
      have zero := ih (0 * base + digit d)
      simp only [value, valueFrom, List.foldl_cons, List.length_cons] at here zero ⊢
      rw [here, zero, Nat.pow_succ]
      ring

theorem value_cons (d : α) (rest : List α) :
    value digit base (d :: rest) = digit d * base ^ rest.length + value digit base rest := by
  have := @valueFrom_eq _ digit base (digit d) rest
  simpa [value, valueFrom] using this

theorem value_lt {l : List α} (digits : ∀ d ∈ l, digit d < base) : value digit base l < base ^ l.length := by
  induction l with
  | nil => simp [value, valueFrom]
  | cons d rest ih =>
      have below := ih fun e member => digits e (by simp [member])
      have here := digits d (by simp)
      rw [value_cons, List.length_cons, Nat.pow_succ]
      calc digit d * base ^ rest.length + value digit base rest
          < digit d * base ^ rest.length + base ^ rest.length := Nat.add_lt_add_left below _
        _ = (digit d + 1) * base ^ rest.length := by ring
        _ ≤ base * base ^ rest.length := Nat.mul_le_mul_right _ here
        _ = base ^ rest.length * base := Nat.mul_comm _ _

/-- Leading zeros write nothing. -/
theorem value_dropWhile {zero : α → Bool} (isZero : ∀ d, zero d = true → digit d = 0) (l : List α) :
    value digit base (l.dropWhile zero) = value digit base l := by
  induction l with
  | nil => rfl
  | cons d rest ih =>
      rw [List.dropWhile_cons]
      split
      · rename_i isZ
        rw [ih, value_cons, isZero d isZ, Nat.zero_mul, Nat.zero_add]
      · rfl

variable {l m : List α}

/-- A longer numeral without a leading zero is more. -/
theorem value_lt_of_length_lt (base_pos : 0 < base) (digitsL : ∀ d ∈ l, digit d < base)
    (noZero : ∀ d ∈ m.head?, digit d ≠ 0) (length : l.length < m.length) :
    value digit base l < value digit base m := by
  obtain ⟨e, others, rfl⟩ := List.exists_cons_of_length_pos (l := m) (by omega)
  have leading : 1 ≤ digit e := Nat.one_le_iff_ne_zero.mpr (noZero e (by simp))
  have short : l.length ≤ others.length := Nat.lt_succ_iff.mp (by simpa using length)
  calc value digit base l < base ^ l.length := value_lt digitsL
    _ ≤ base ^ others.length := Nat.pow_le_pow_right base_pos short
    _ ≤ digit e * base ^ others.length := Nat.le_mul_of_pos_left _ leading
    _ ≤ value digit base (e :: others) := by rw [value_cons]; exact Nat.le_add_right _ _

variable [Ord α]

theorem compare_value_of_length_eq (ordered : ∀ d ∈ l, ∀ e ∈ m, compare d e = compare (digit d) (digit e))
    (digitsL : ∀ d ∈ l, digit d < base) (digitsM : ∀ d ∈ m, digit d < base) (length : l.length = m.length) :
    compare l m = compare (value digit base l) (value digit base m) := by
  induction l generalizing m with
  | nil =>
      obtain rfl : m = [] := List.length_eq_zero_iff.mp length.symm
      rfl
  | cons d rest ih =>
      obtain ⟨e, others, rfl⟩ := List.exists_cons_of_length_pos (l := m) (by rw [← length]; simp)
      have length' : rest.length = others.length := by simpa using length
      have tail := ih (fun x member y member' => ordered x (by simp [member]) y (by simp [member']))
        (fun x member => digitsL x (by simp [member])) (fun x member => digitsM x (by simp [member])) length'
      have below := value_lt (fun x member => digitsL x (List.mem_cons_of_mem d member))
      have below' := value_lt (fun x member => digitsM x (List.mem_cons_of_mem e member))
      rw [value_cons, value_cons, length', List.compare_eq_compareLex, List.compareLex_cons_cons,
        ordered d (by simp) e (by simp)]
      rw [length'] at below
      rw [List.compare_eq_compareLex] at tail
      rcases Nat.lt_trichotomy (digit d) (digit e) with less | same | more
      · have step : (digit d + 1) * base ^ others.length ≤ digit e * base ^ others.length :=
          Nat.mul_le_mul_right _ less
        rw [compare_lt_iff_lt.mpr less, eq_comm]
        exact compare_lt_iff_lt.mpr (by rw [Nat.add_mul] at step; omega)
      · rw [same, compare_eq_iff_eq.mpr rfl]
        show List.compareLex compare rest others = _
        rw [tail]
        simp only [compare, compareOfLessAndEq]
        grind
      · have step : (digit e + 1) * base ^ others.length ≤ digit d * base ^ others.length :=
          Nat.mul_le_mul_right _ more
        rw [compare_gt_iff_gt.mpr more, eq_comm]
        exact compare_gt_iff_gt.mpr (by rw [Nat.add_mul] at step; omega)

/-- Numerals without leading zeros compare as numbers. -/
theorem compare_value (ordered : ∀ d ∈ l, ∀ e ∈ m, compare d e = compare (digit d) (digit e)) (base_pos : 0 < base)
    (digitsL : ∀ d ∈ l, digit d < base) (digitsM : ∀ d ∈ m, digit d < base)
    (noZeroL : ∀ d ∈ l.head?, digit d ≠ 0) (noZeroM : ∀ d ∈ m.head?, digit d ≠ 0) :
    (compare l.length m.length).then (compare l m) = compare (value digit base l) (value digit base m) := by
  rcases Nat.lt_trichotomy l.length m.length with less | same | more
  · rw [compare_lt_iff_lt.mpr less, compare_lt_iff_lt.mpr (value_lt_of_length_lt base_pos digitsL noZeroM less)]
    rfl
  · rw [compare_eq_iff_eq.mpr same]
    exact compare_value_of_length_eq ordered digitsL digitsM same
  · rw [compare_gt_iff_gt.mpr more, compare_gt_iff_gt.mpr (value_lt_of_length_lt base_pos digitsM noZeroL more)]
    rfl

end Numerals

/-- Reading under a bound reads the number if it is below the bound, and else nothing. -/
theorem readBelow_eq {α : Type} {digit : α → Nat} {base limit : Nat} (base_pos : 0 < base) (room : 0 < limit)
    (l : List α) :
    readBelow digit base limit l = if value digit base l < limit then some (value digit base l) else none := by
  have stepwise : ∀ (l : List α) (read : Nat), read < limit →
      l.foldlM (fun n d => if n * base + digit d < limit then some (n * base + digit d) else none) read =
        if valueFrom digit base read l < limit then some (valueFrom digit base read l) else none := by
    intro l
    induction l with
    | nil =>
        intro read below
        simp [valueFrom, below]
    | cons d rest ih =>
        intro read below
        rw [List.foldlM_cons]
        by_cases fits : read * base + digit d < limit
        · simp only [fits, if_true, Option.bind_eq_bind, Option.bind_some]
          exact ih _ fits
        · have isOver : ¬ valueFrom digit base (read * base + digit d) rest < limit := by
            rw [valueFrom_eq]
            have grows : read * base + digit d ≤ (read * base + digit d) * base ^ rest.length :=
              Nat.le_mul_of_pos_right _ (Nat.pow_pos base_pos)
            omega
          simp only [fits, if_false, Option.bind_eq_bind, Option.bind_none]
          exact (if_neg isOver).symm
  exact stepwise l 0 room

end OmarchyPool.Lib
