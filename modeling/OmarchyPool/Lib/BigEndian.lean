/-
# OmarchyPool.Lib.BigEndian -- numbers as bytes, the most significant first

The number a string of bytes writes, and the string of a given width that writes a number: each undoes the
other (`number_fixed`, `fixed_number`).  A string padded to a width is the string of that width for its
number (`pad_eq_fixed`), and how many bytes a number needs is how large it is (`length_dropWhile_le_iff`).
-/
import Mathlib.Data.List.Induction
import OmarchyPool.Lib.Decimal

namespace OmarchyPool.Lib.BigEndian

open Lib

set_option autoImplicit false

/-- The number a string of bytes writes. -/
def number (l : List UInt8) : Nat := value UInt8.toNat 256 l

/-- The last `width` bytes of a number. -/
def fixed : Nat → Nat → List UInt8
  | 0, _ => []
  | width + 1, n => fixed width (n / 256) ++ [UInt8.ofNat n]

/-- With zeros on the left. -/
def pad (width : Nat) (l : List UInt8) : List UInt8 := List.replicate (width - l.length) 0 ++ l

variable {l : List UInt8} {width n : Nat}

@[simp] theorem length_fixed (width n : Nat) : (fixed width n).length = width := by
  induction width generalizing n with
  | zero => rfl
  | succ width ih => simp [fixed, ih]

theorem number_concat (l : List UInt8) (b : UInt8) : number (l ++ [b]) = number l * 256 + b.toNat := by
  simp [number, value, valueFrom, List.foldl_append]

theorem number_lt (l : List UInt8) : number l < 256 ^ l.length := value_lt fun b _ => b.toNat_lt

theorem number_cons (b : UInt8) (rest : List UInt8) : number (b :: rest) = b.toNat * 256 ^ rest.length + number rest :=
  value_cons b rest

theorem number_fixed (fits : n < 256 ^ width) : number (fixed width n) = n := by
  induction width generalizing n with
  | zero =>
      have zero : n = 0 := by simpa using fits
      rw [zero]
      rfl
  | succ width ih =>
      have high : n / 256 < 256 ^ width := by
        rw [Nat.pow_succ] at fits
        exact Nat.div_lt_of_lt_mul (by rwa [Nat.mul_comm] at fits)
      have low : (UInt8.ofNat n).toNat = n % 256 := UInt8.toNat_ofNat'
      rw [fixed, number_concat, ih high, low]
      omega

theorem fixed_number (l : List UInt8) : fixed l.length (number l) = l := by
  induction l using List.reverseRecOn with
  | nil => rfl
  | append_singleton l b ih =>
      have below := b.toNat_lt
      have high : (number l * 256 + b.toNat) / 256 = number l := by omega
      have low : UInt8.ofNat (number l * 256 + b.toNat) = b := by
        apply UInt8.toNat_inj.mp
        rw [UInt8.toNat_ofNat']
        omega
      rw [List.length_append, List.length_singleton, fixed, number_concat, high, low, ih]

theorem number_injective {m : List UInt8} (length : l.length = m.length) (same : number l = number m) : l = m := by
  rw [← fixed_number l, ← fixed_number m, length, same]

theorem number_zeros (k : Nat) (l : List UInt8) : number (List.replicate k 0 ++ l) = number l := by
  induction k with
  | zero => rfl
  | succ k ih =>
      rw [List.replicate_succ, List.cons_append, number_cons, ih]
      simp

theorem pad_eq_fixed (short : l.length ≤ width) : pad width l = fixed width (number l) := by
  apply number_injective
  · simp only [pad, List.length_append, List.length_replicate, length_fixed]
    omega
  · have fits : number l < 256 ^ width := (number_lt l).trans_le (Nat.pow_le_pow_right (by decide) short)
    rw [pad, number_zeros, number_fixed fits]

theorem number_dropWhile (l : List UInt8) : number (l.dropWhile (· == 0)) = number l := by
  apply value_dropWhile
  intro b isZero
  rw [beq_iff_eq] at isZero
  rw [isZero]
  rfl

/-- How many bytes are left without leading zeros. -/
theorem length_dropWhile_le_iff : (l.dropWhile (· == 0)).length ≤ width ↔ number l < 256 ^ width := by
  rw [← number_dropWhile l]
  cases front : l.dropWhile (· == 0) with
  | nil =>
      have zero : number [] < 256 ^ width := Nat.pow_pos (by decide)
      simp [zero]
  | cons b rest =>
      have leading : b ≠ 0 := by
        have first := List.head_dropWhile_not (· == 0) (l := l) (by rw [front]; exact List.cons_ne_nil b rest)
        simpa [front] using first
      have positive : 1 ≤ b.toNat := by
        rw [Nat.one_le_iff_ne_zero]
        exact fun zero => leading (UInt8.toNat_inj.mp zero)
      constructor
      · intro short
        exact (number_lt (b :: rest)).trans_le (Nat.pow_le_pow_right (by decide) short)
      · intro fits
        have least : 256 ^ rest.length ≤ number (b :: rest) := by
          rw [number_cons]
          exact le_add_right (Nat.le_mul_of_pos_left _ positive)
        exact (Nat.pow_lt_pow_iff_right (by decide)).mp (least.trans_lt fits)

end OmarchyPool.Lib.BigEndian
